/-
  Cascade.Proofs.Tool.Again — the formatter on a text that it wrote itself. A run numbers
  the names of properties as they come, and writes each block in the order of the numbers.
  The blocks are put into another order before they are written, so the next run may meet
  the names in another order too and number them otherwise.

  The second run always gives a text. It is the same text exactly where every block of it
  has its names in the order in which they first come in the text (`Settled`,
  `again_iff_settled`). Not every text is like that (`a_run_on_its_own_text_changes_it`).
-/

import Cascade.Proofs.Names
import Cascade.Proofs.Sheet.Entries
import Cascade.Tool.Run
import Mathlib.Data.List.Perm.Subperm

namespace Cascade

open Grammar Sheet

variable {u : NameTable} {indent : String} {source : List Reply} {rs : List Rule}

/-- The names of each block stand in the order in which the names first come in all blocks. -/
def Settled (blocks : List (List String)) : Prop :=
  ∀ ns ∈ blocks, ns.Pairwise fun a b => blocks.flatten.idxOf a < blocks.flatten.idxOf b

namespace NameTable

/-! ## What is written with a table -/

/-- The names stand in the order of the table. -/
def InOrder (u : NameTable) (ns : List String) : Prop := ns.Pairwise fun a b => u.names.idxOf a < u.names.idxOf b

theorem writtenOne_eq_some {p : PropertyId} {v : String} {d : String × String}
    (h : writtenOne u.rendering p v = some d) : u.names[p.toNat]? = some d.1 ∧ d.2 = v := by
  have hname : u.rendering.name p = u.names[p.toNat]? := rfl
  unfold writtenOne at h
  rw [hname] at h
  cases hn : u.names[p.toNat]? with
  | none => simp [hn] at h
  | some name =>
    rw [hn] at h
    by_cases he : name.isEmpty
    · simp [he] at h
    · simp only [he, Bool.false_eq_true, if_false, Option.some.injEq] at h
      subst h
      exact ⟨rfl, rfl⟩

theorem mem_written {ds : Declarations String} {d : String × String} (h : d ∈ written u.rendering ds) :
    ∃ e ∈ ds.entries, u.names[e.1.toNat]? = some d.1 ∧ d.2 = e.2 := by
  obtain ⟨e, he, hd⟩ := List.mem_filterMap.mp h
  exact ⟨e, he, writtenOne_eq_some hd⟩

/-- Declarations are written in the order of their numbers, which is that of the table. -/
theorem inOrder_written (hu : u.names.Nodup) (ds : Declarations String) :
    u.InOrder ((written u.rendering ds).map Prod.fst) := by
  refine List.pairwise_map.mpr (ds.sorted.filterMap _ ?_)
  intro e f hef d hd d' hd'
  obtain ⟨hi, hname⟩ := List.getElem?_eq_some_iff.mp (writtenOne_eq_some hd).1
  obtain ⟨hj, hname'⟩ := List.getElem?_eq_some_iff.mp (writtenOne_eq_some hd').1
  rw [← hname, ← hname', hu.idxOf_getElem _ hi, hu.idxOf_getElem _ hj]
  exact UInt32.lt_iff_toNat_lt.mp hef

/-- A declaration with the number of its name. -/
def numbered (u : NameTable) (d : String × String) : PropertyId × String := (.ofNat (u.names.idxOf d.1), d.2)

section

variable (hsize : u.names.length ≤ UInt32.size) {d : String × String} (hmem : d.1 ∈ u.names)

include hsize hmem

theorem toNat_numbered : (u.numbered d).1.toNat = u.names.idxOf d.1 :=
  UInt32.toNat_ofNat_of_lt' (Nat.lt_of_lt_of_le (List.idxOf_lt_length_of_mem hmem) hsize)

theorem name_numbered : u.rendering.name (u.numbered d).1 = some d.1 := by
  show u.names[(u.numbered d).1.toNat]? = some d.1
  rw [toNat_numbered hsize hmem, List.getElem?_idxOf hmem]

theorem writtenOne_numbered (hn : Name d.1) :
    writtenOne u.rendering (u.numbered d).1 (u.numbered d).2 = some d := by
  have hempty : d.1.isEmpty = false := by simpa using hn.1
  unfold writtenOne
  rw [name_numbered hsize hmem]
  simp only [hempty]
  rfl

theorem echoes_numbered (hn : Name d.1) (hv : Value d.2) :
    Echoes host u u.rendering (u.numbered d).1 (u.numbered d).2 := by
  have hidentify : host.identify u d.1 = (some (u.numbered d).1, u) := by
    show (some (u.number d.1).1, (u.number d.1).2) = _
    rw [number_known hmem]
    rfl
  exact ⟨⟨d.1, name_numbered hsize hmem, hn, hidentify⟩, hv, rfl⟩

end

/-- Where the numbers do not run out, what is in the order of the table is written as it was read. -/
theorem tidy_eq {rule : Rule} (hsize : u.names.length ≤ UInt32.size) (hknown : ∀ n ∈ rule.names, n ∈ u.names)
    (horder : u.InOrder rule.names) (hread : ∀ d ∈ rule.declarations, Name d.1 ∧ Value d.2) :
    tidy host u u.rendering rule = rule := by
  have hmem : ∀ d ∈ rule.declarations, d.1 ∈ u.names := fun d hd => hknown d.1 (List.mem_map_of_mem hd)
  have hsorted : ((Declarations.empty : Declarations String).entries ++ rule.declarations.map u.numbered).Pairwise
      fun e f => e.1 < f.1 := by
    refine List.pairwise_map.mpr ((List.pairwise_map.mp horder).imp_of_mem ?_)
    intro d d' hd hd' hlt
    rw [UInt32.lt_iff_toNat_lt, toNat_numbered hsize (hmem d hd), toNat_numbered hsize (hmem d' hd')]
    exact hlt
  have hecho : ∀ e ∈ rule.declarations.map u.numbered, Echoes host u u.rendering e.1 e.2 := by
    intro e he
    obtain ⟨d, hd, rfl⟩ := List.mem_map.mp he
    exact echoes_numbered hsize (hmem d hd) (hread d hd).1 (hread d hd).2
  have hwritten : (rule.declarations.map u.numbered).filterMap (fun e => writtenOne u.rendering e.1 e.2) =
      rule.declarations := by
    rw [List.filterMap_map]
    refine (List.filterMap_congr ?_).trans List.filterMap_some
    intro d hd
    exact writtenOne_numbered hsize (hmem d hd) (hread d hd).1
  have hdeclared := declareAll_entries .empty hsorted hecho
  rw [hwritten] at hdeclared
  unfold tidy
  rw [hdeclared]
  exact congrArg (Rule.mk rule.chains) hwritten

end NameTable

/-! ## What a run reads and writes -/

/-- The names of rules, in the order in which they come. -/
def namesOf (rs : List Rule) : NameTable := ({} : NameTable).learn (rs.flatMap Rule.names)

theorem mem_namesOf {name : String} : name ∈ (namesOf rs).names ↔ ∃ rule ∈ rs, name ∈ rule.names := by
  simp [namesOf, NameTable.mem_learn]

theorem nodup_namesOf (rs : List Rule) : (namesOf rs).names.Nodup := NameTable.nodup_learn List.nodup_nil

theorem settled_iff : Settled (rs.map Rule.names) ↔ ∀ rule ∈ rs, (namesOf rs).InOrder rule.names := by
  have hflat : (rs.map Rule.names).flatten = rs.flatMap Rule.names := List.flatMap_def.symm
  have hblock : ∀ rule ∈ rs, (rule.names.Pairwise fun a b =>
      (rs.flatMap Rule.names).idxOf a < (rs.flatMap Rule.names).idxOf b) ↔ (namesOf rs).InOrder rule.names := by
    intro rule hrule
    have hmem : ∀ n ∈ rule.names, n ∈ rs.flatMap Rule.names := fun n hn => List.mem_flatMap.mpr ⟨rule, hrule, hn⟩
    exact List.Pairwise.iff_of_mem fun ha hb => (NameTable.idxOf_learn _ (hmem _ ha) (hmem _ hb)).symm
  unfold Settled
  rw [hflat]
  constructor
  · intro h rule hrule
    exact (hblock rule hrule).mp (h _ (List.mem_map_of_mem hrule))
  · intro h ns hns
    obtain ⟨rule, hrule, rfl⟩ := List.mem_map.mp hns
    exact (hblock rule hrule).mpr (h rule hrule)

/-- The sheet of rules, made with the table of their names. -/
def sheetOf (rs : List Rule) : Sheet String := ofStyles (made NameTable.host (namesOf rs) {} rs).styles

def textOf (indent : String) (rs : List Rule) : String := (sheetOf rs).toText indent (namesOf rs).rendering

/-- What is made of rules with an empty table is what is made with the table of their names. -/
theorem made_namesOf (rs : List Rule) :
    ofStyles (made NameTable.host {} {} rs).styles = sheetOf rs ∧ (made NameTable.host {} {} rs).memory = namesOf rs := by
  obtain ⟨hstyles, hmemory⟩ := NameTable.made_learn (List.prefix_refl (namesOf rs).names) {}
  exact ⟨congrArg ofStyles hstyles, hmemory⟩

theorem format_of_made
    (h : Sheet.read NameTable.host {} {} source =
      ⟨.ok (ofStyles (made NameTable.host {} {} rs).styles), (made NameTable.host {} {} rs).memory,
        (made NameTable.host {} {} rs).supply⟩) :
    Source.format indent source = .ok (textOf indent rs) := by
  unfold Source.format
  simp only [h, (made_namesOf rs).1, (made_namesOf rs).2]
  rfl

theorem format_eq (h : SheetText (Source.served source) rs) (hh : Source.halt? source = none) :
    Source.format indent source = .ok (textOf indent rs) :=
  format_of_made (read_of_sheet NameTable.host {} {} h hh)

theorem entries_sheetOf (hc : ∀ rule ∈ rs, rule.chains ≠ []) :
    (sheetOf rs).entries indent (namesOf rs).rendering =
      (rs.map fun rule => Entry.ofRule indent
        (tidy NameTable.host (namesOf rs) (namesOf rs).rendering rule)).mergeSort Entry.before := by
  refine entries_made hc ?_
  intro rule hrule
  exact NameTable.declareAll_known (fun n hn => mem_namesOf.mpr ⟨rule, hrule, hn⟩) .empty

/-- The rules of a text that was written of a sheet with a table of names. -/
structure Written (u : NameTable) (indent : String) (s : Sheet String) (rs : List Rule) : Prop where
  text : SheetText (Utf8.bytes (s.toText indent u.rendering)) rs
  entries : rs.map (Entry.ofRule indent) = s.entries indent u.rendering
  ordered : ∀ rule ∈ rs, u.InOrder rule.names
  numbered : ∀ rule ∈ rs, ∀ n ∈ rule.names, n ∈ u.names.take UInt32.size

/-- What is written of a sheet that was read can be read. -/
theorem legible_sheetOf (h : SheetText (Source.served source) rs) (hh : Source.halt? source = none) :
    ∀ g ∈ byBlock (sheetOf rs).styles, Legible (namesOf rs).rendering g := by
  have hread : (Sheet.read NameTable.host {} {} source).result = .ok (sheetOf rs) := by
    rw [read_of_sheet NameTable.host {} {} h hh, (made_namesOf rs).1]
  obtain ⟨-, hchains, hvalues⟩ := legible_read (fun _ _ _ => rfl) hread
  have hname : ∀ n ∈ (namesOf rs).names, Name n := by
    intro n hn
    obtain ⟨rule, hrule, hn⟩ := mem_namesOf.mp hn
    obtain ⟨d, hd, rfl⟩ := List.mem_map.mp hn
    exact ((parts_of_sheet h rule hrule).2 d hd).1
  intro g hg
  have hmem : ∀ x ∈ g, x ∈ (sheetOf rs).styles := by
    intro x hx
    exact (perm_byBlock _).mem_iff.mp (List.mem_flatten.mpr ⟨g, hg, hx⟩)
  refine ⟨?_, fun x hx => hchains x (hmem x hx), ?_⟩
  · rintro rfl
    exact (groups_byBlock _).nonempty hg
  · intro d hd
    cases g with
    | nil => cases hd
    | cons x g =>
      obtain ⟨e, he, hn, hv⟩ := NameTable.mem_written hd
      exact ⟨hname d.1 (List.mem_of_getElem? hn), hv ▸ hvalues x (hmem x List.mem_cons_self) e he⟩

theorem written_sheetOf (hi : Blank (Utf8.bytes indent)) (h : SheetText (Source.served source) rs)
    (hh : Source.halt? source = none) : ∃ ss, Written (namesOf rs) indent (sheetOf rs) ss := by
  obtain ⟨gs, hperm, he⟩ := exists_entries (sheetOf rs) indent (namesOf rs).rendering
  have hlegible : ∀ g ∈ gs, Legible (namesOf rs).rendering g := by
    intro g hg
    exact legible_sheetOf h hh g (hperm.mem_iff.mp hg)
  have hdeclared : ∀ rule ∈ gs.map (ruleOf (namesOf rs).rendering),
      ∃ ds, rule.names = (written (namesOf rs).rendering ds).map Prod.fst := by
    intro rule hrule
    obtain ⟨g, hg, rfl⟩ := List.mem_map.mp hrule
    obtain ⟨x, g, rfl⟩ := List.exists_cons_of_ne_nil (hlegible g hg).nonempty
    exact ⟨x.block.declarations, rfl⟩
  refine ⟨gs.map (ruleOf (namesOf rs).rendering), sheetText_toText hi he hlegible, ?_, ?_, ?_⟩
  · rw [← he, List.map_map]
    exact List.map_congr_left fun g hg => entry_ruleOf (hlegible g hg)
  · intro rule hrule
    obtain ⟨ds, hds⟩ := hdeclared rule hrule
    rw [hds]
    exact NameTable.inOrder_written (nodup_namesOf rs) ds
  · intro rule hrule n hn
    obtain ⟨ds, hds⟩ := hdeclared rule hrule
    rw [hds] at hn
    obtain ⟨d, hd, rfl⟩ := List.mem_map.mp hn
    obtain ⟨e, -, hname, -⟩ := NameTable.mem_written hd
    obtain ⟨hlt, hname⟩ := List.getElem?_eq_some_iff.mp hname
    rw [← hname]
    exact List.mem_take_iff_getElem.mpr ⟨e.1.toNat, Nat.lt_min.mpr ⟨e.1.toNat_lt, hlt⟩, rfl⟩

/-! ## A run on the text of a run -/

/-- Names that are written have numbers, so their own table does not run out of numbers. -/
theorem size_namesOf {ss : List Rule} (h : ∀ rule ∈ ss, ∀ n ∈ rule.names, n ∈ u.names.take UInt32.size) :
    (namesOf ss).names.length ≤ UInt32.size := by
  have hsub : (namesOf ss).names ⊆ u.names.take UInt32.size := by
    intro n hn
    obtain ⟨rule, hrule, hn⟩ := mem_namesOf.mp hn
    exact h rule hrule n hn
  exact (List.Nodup.subperm (nodup_namesOf ss) hsub).length_le.trans (List.length_take_le _ _)

/-- Where the text has settled, its rules are written as they are, and stand in their places already. -/
theorem toText_of_settled {s : Sheet String} {ss : List Rule} (h : Written u indent s ss)
    (hs : Settled (ss.map Rule.names)) :
    textOf indent ss = s.toText indent u.rendering := by
  have htidy : ∀ rule ∈ ss, tidy NameTable.host (namesOf ss) (namesOf ss).rendering rule = rule := by
    intro rule hrule
    exact NameTable.tidy_eq (size_namesOf h.numbered) (fun n hn => mem_namesOf.mpr ⟨rule, hrule, hn⟩)
      (settled_iff.mp hs rule hrule) (parts_of_sheet h.text rule hrule).2
  have hentries : (ss.map fun rule => Entry.ofRule indent
      (tidy NameTable.host (namesOf ss) (namesOf ss).rendering rule)) = s.entries indent u.rendering := by
    rw [← h.entries]
    exact List.map_congr_left fun rule hrule => congrArg (Entry.ofRule indent) (htidy rule hrule)
  unfold textOf toText
  rw [entries_sheetOf (chains_ne_nil h.text), hentries, List.mergeSort_of_pairwise (sorted_entries s indent _)]

/-- Two derivations of one text have the same names in the same blocks. -/
theorem names_unique {bs : List UInt8} {ss : List Rule} (h : SheetText bs rs) (h' : SheetText bs ss) :
    rs.map Rule.names = ss.map Rule.names := by
  obtain ⟨l, hrun⟩ := Reader.run_sheet h
  obtain ⟨l', hrun'⟩ := Reader.run_sheet h'
  exact names_of_events (congrArg Outcome.events (hrun.symm.trans hrun'))

/-- A text that comes out as it went in has settled: its blocks have the order of the table of its own names. -/
theorem settled_of_toText {s : Sheet String} {ss : List Rule} (h : Written u indent s ss)
    (hi : Blank (Utf8.bytes indent)) (he : textOf indent ss = s.toText indent u.rendering) :
    Settled (ss.map Rule.names) := by
  obtain ⟨hserved, hhalt⟩ := Source.served_replies (Utf8.bytes (s.toText indent u.rendering))
  obtain ⟨ts, hts⟩ := written_sheetOf hi (hserved.symm ▸ h.text) hhalt
  have htext : SheetText (Utf8.bytes (textOf indent ss)) ts := hts.text
  rw [he] at htext
  have hnames := names_unique h.text htext
  refine settled_iff.mpr fun rule hrule => ?_
  have hmem : rule.names ∈ ts.map Rule.names := hnames ▸ List.mem_map_of_mem hrule
  obtain ⟨rule', hrule', hsame⟩ := List.mem_map.mp hmem
  exact hsame ▸ hts.ordered rule' hrule'

/-- A run on the text that a run has written gives a text. It is the same text exactly where every block of the text
    has its names in the order in which they first come. -/
theorem again_iff_settled {text : String} (hi : Blank (Utf8.bytes indent))
    (h : Source.format indent source = .ok text) :
    ∃ again, Source.format indent (Source.replies (Utf8.bytes text)) = .ok again ∧
      (∃ ss, SheetText (Utf8.bytes text) ss) ∧
      ∀ ss, SheetText (Utf8.bytes text) ss → (again = text ↔ Settled (ss.map Rule.names)) := by
  have hread : ∃ s, (Sheet.read NameTable.host {} {} source).result = .ok s := by
    unfold Source.format at h
    cases hr : (Sheet.read NameTable.host {} {} source).result with
    | error e => simp [hr, Except.map] at h
    | ok s => exact ⟨s, rfl⟩
  obtain ⟨s, hs⟩ := hread
  obtain ⟨hhalt, rs, hsheet, -⟩ := (read_eq_ok_iff NameTable.host).mp hs
  rw [format_eq hsheet hhalt] at h
  obtain rfl := Except.ok.inj h
  obtain ⟨ss, hss⟩ := written_sheetOf hi hsheet hhalt
  obtain ⟨hserved, hhalt'⟩ := Source.served_replies (Utf8.bytes (textOf indent rs))
  refine ⟨_, format_eq (hserved.symm ▸ hss.text) hhalt', ⟨ss, hss.text⟩, ?_⟩
  intro ts hts
  rw [names_unique hts hss.text]
  exact ⟨settled_of_toText hss hi, toText_of_settled hss⟩

/-! ## A text that does not stay as it is -/

/-- `x` declares `z` and `a`, then `y` declares `a`. -/
def sharedName : String := "x\x7bz:1;a:1\x7dy\x7ba:1\x7d"

/-- What is written of it: `y` comes first, and so does `a`. -/
def sharedOnce : String := "y \x7b\n\ta: 1;\n\x7d\nx \x7b\n\tz: 1;\n\ta: 1;\n\x7d\n"

def sharedTwice : String := "y \x7b\n\ta: 1;\n\x7d\nx \x7b\n\ta: 1;\n\tz: 1;\n\x7d\n"

theorem format_of_run {css : String} {l : UInt32}
    (hrun : ({} : Reader).run (Utf8.bytes css) = ⟨{ line := l }, events rs, none⟩) :
    Source.format indent (Source.replies (Utf8.bytes css)) = .ok (textOf indent rs) := by
  apply format_of_made
  exact read_replies_of_run NameTable.host {} {} hrun

theorem format_sharedName : Source.format "" (Source.replies (Utf8.bytes sharedName)) = .ok sharedOnce := by
  let x : Style String := Style.of ⟨[{ tag := "x" }]⟩ ⟨0, { entries := [(0, "1"), (1, "1")], sorted := by decide }⟩ 0
  let y : Style String := Style.of ⟨[{ tag := "y" }]⟩ ⟨1, { entries := [(1, "1")], sorted := by decide }⟩ 1
  let rules : List Rule :=
    [⟨[⟨[], [⟨.tag, "x"⟩]⟩], [("z", "1"), ("a", "1")]⟩, ⟨[⟨[], [⟨.tag, "y"⟩]⟩], [("a", "1")]⟩]
  have hrun : ({} : Reader).run (Utf8.bytes sharedName) = ⟨{}, events rules, none⟩ := by decide +kernel
  have hsheet : sheetOf rules = ⟨[x, y]⟩ := sort_eq (s := ⟨[x, y]⟩) (by decide)
  rw [format_of_run hrun, textOf, hsheet, toText_pair (by decide), if_neg (by decide +kernel)]
  rfl

theorem format_sharedOnce : Source.format "" (Source.replies (Utf8.bytes sharedOnce)) = .ok sharedTwice := by
  let y : Style String := Style.of ⟨[{ tag := "y" }]⟩ ⟨0, { entries := [(0, "1")], sorted := by decide }⟩ 0
  let x : Style String := Style.of ⟨[{ tag := "x" }]⟩ ⟨1, { entries := [(0, "1"), (1, "1")], sorted := by decide }⟩ 1
  let rules : List Rule :=
    [⟨[⟨[], [⟨.tag, "y"⟩]⟩], [("a", "1")]⟩, ⟨[⟨[], [⟨.tag, "x"⟩]⟩], [("z", "1"), ("a", "1")]⟩]
  have hrun : ({} : Reader).run (Utf8.bytes sharedOnce) = ⟨{ line := 8 }, events rules, none⟩ := by decide +kernel
  have hsheet : sheetOf rules = ⟨[y, x]⟩ := sort_eq (s := ⟨[y, x]⟩) (by decide)
  rw [format_of_run hrun, textOf, hsheet, toText_pair (by decide), if_pos (by decide +kernel)]
  rfl

theorem again_sharedOnce :
    Source.format "" (Source.replies (Utf8.bytes sharedName)) = .ok sharedOnce ∧
      ∀ ss, SheetText (Utf8.bytes sharedOnce) ss → ¬ Settled (ss.map Rule.names) := by
  have hnone : Blank (Utf8.bytes "") := by decide
  obtain ⟨again, hagain, -, hsame⟩ := again_iff_settled hnone format_sharedName
  obtain rfl : sharedTwice = again := Except.ok.inj (format_sharedOnce.symm.trans hagain)
  refine ⟨format_sharedName, fun ss hss hs => ?_⟩
  have hdifferent : sharedTwice ≠ sharedOnce := by decide
  exact hdifferent ((hsame ss hss).mpr hs)

theorem run_of_format {input : List UInt8} {w : Workspace} {text : String}
    (h : Source.format "" (Source.replies input) = .ok text) : Run.of ["-"] input w = ⟨0, text, "", w⟩ := by
  have hparse : Command.parse ["-"] = .ok (.format ⟨"-", none, ""⟩) := by decide
  have hperform : Run.perform ⟨"-", none, ""⟩ input w = .ok (text, w) := by
    simp only [Run.perform, Run.source, Run.formatted, Job.standardInput, if_true]
    show ((Source.format "" (Source.replies input)).mapError _ >>= fun text => .ok (text, w)) = _
    rw [h]
    rfl
  unfold Run.of
  rw [hparse]
  simp only [hperform]

/-- A run on the text of a run writes another text: `z` and `a` have changed places. -/
theorem a_run_on_its_own_text_changes_it :
    Run.of ["-"] (Utf8.bytes sharedName) {} = ⟨0, sharedOnce, "", {}⟩ ∧
      Run.of ["-"] (Utf8.bytes sharedOnce) {} = ⟨0, sharedTwice, "", {}⟩ ∧ sharedTwice ≠ sharedOnce :=
  ⟨run_of_format format_sharedName, run_of_format format_sharedOnce, by decide⟩

end Cascade
