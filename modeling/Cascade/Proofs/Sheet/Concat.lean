/-
  Cascade.Proofs.Sheet.Concat — two texts read as one. The first is a sheet, the second is
  anything.

  - A reader that gets to the end of a sheet is a new one some lines later, so it reads the
    second text as a new one does, and the lines of its error are those lines later
    (`run_concat`).
  - If the second text is a sheet too, both together are the rules of the one and then of
    the other. The builder holds nothing back between rules, so the styles are those of the
    one and then of the other, up to the numbers; and sorting all at once is the same as
    sorting each part before (`ofStyles_append`).
  - Styles are `Alike` when they say the same, one by one, and the same ones share a block.
    Sorting keeps this (`alike_ofStyles`), and queries see no more (`queryStyles_alike`).
-/

import Cascade.Proofs.Builder.Rules
import Cascade.Proofs.Reader.Lines
import Cascade.Proofs.Sheet.Reading
import Cascade.Proofs.Sheet.Text
import Cascade.Sheet.Query

namespace Cascade

open Grammar

variable {V : Type} {a b : List UInt8}

/-! ## The reader -/

namespace Reader

/-- At the end of a sheet a reader is a new one on another line. -/
theorem reader_of_accepted (h : (({} : Reader).run a).ended.fault? = none) :
    (({} : Reader).run a).fault? = none ∧
      (({} : Reader).run a).reader = ({} : Reader).later (UInt32.ofNat (a.count lineEnd)) := by
  obtain ⟨hfault, -⟩ := ended_fault?_eq_none_iff.mp h
  obtain ⟨rs, hsheet, -⟩ := sheet_of_accepted h
  obtain ⟨l, hrun⟩ := run_sheet hsheet
  have hline := line_run {} a
  rw [taken_eq hfault, hrun] at hline
  refine ⟨hfault, ?_⟩
  rw [hrun]
  exact congrArg (fun l => ({ line := l } : Reader)) hline

theorem run_concat (h : (({} : Reader).run a).ended.fault? = none) (b : List UInt8) :
    ({} : Reader).run (a ++ b) =
      { (({} : Reader).run b).later (UInt32.ofNat (a.count lineEnd)) with
        events := (({} : Reader).run a).events ++ (({} : Reader).run b).events } := by
  obtain ⟨hfault, hreader⟩ := reader_of_accepted h
  rw [run_append, Outcome.andThen_of_none hfault, hreader, run_later]
  rfl

/-- What has been reported before does not change how the input ends. -/
theorem ended_error?_of_events (o : Outcome) (es : List Event) :
    ({ o with events := es } : Outcome).ended.error? = o.ended.error? := by
  unfold Outcome.ended Outcome.andThen
  cases hf : o.fault? <;> simp [Outcome.error?, hf]

end Reader

/-! ## Styles that are alike -/

/-- What a style says, whatever its numbers. -/
def Style.content (x : Style V) : Chain × Declarations V × Specificity :=
  (x.chain, x.block.declarations, x.specificity)

/-- The styles say the same, one by one, and the same ones share a block. -/
structure Alike (xs ys : List (Style V)) : Prop where
  same : xs.map Style.content = ys.map Style.content
  shared : ∀ p ∈ xs.zip ys, ∀ q ∈ xs.zip ys,
    (p.1.block.number = q.1.block.number ↔ p.2.block.number = q.2.block.number)

variable {xs ys us vs : List (Style V)}

theorem Alike.length_eq (h : Alike xs ys) : xs.length = ys.length := by
  simpa using congrArg List.length h.same

theorem alike_append (h : Alike xs ys) (h' : Alike us vs) (hx : Apart xs us) (hy : Apart ys vs) :
    Alike (xs ++ us) (ys ++ vs) := by
  refine ⟨by rw [List.map_append, List.map_append, h.same, h'.same], ?_⟩
  have hcross : ∀ p ∈ xs.zip ys, ∀ q ∈ us.zip vs,
      p.1.block.number ≠ q.1.block.number ∧ p.2.block.number ≠ q.2.block.number := by
    intro p hp q hq
    obtain ⟨hp1, hp2⟩ := List.of_mem_zip hp
    obtain ⟨hq1, hq2⟩ := List.of_mem_zip hq
    exact ⟨hx _ hp1 _ hq1, hy _ hp2 _ hq2⟩
  rw [List.zip_append h.length_eq]
  intro p hp q hq
  rcases List.mem_append.mp hp with hp | hp
  · rcases List.mem_append.mp hq with hq | hq
    · exact h.shared p hp q hq
    · obtain ⟨h1, h2⟩ := hcross p hp q hq
      exact iff_of_false h1 h2
  · rcases List.mem_append.mp hq with hq | hq
    · obtain ⟨h1, h2⟩ := hcross q hq p hp
      exact iff_of_false h1.symm h2.symm
    · exact h'.shared p hp q hq

theorem content_of_mem_zip (h : xs.map Style.content = ys.map Style.content) {p : Style V × Style V}
    (hp : p ∈ xs.zip ys) : p.1.content = p.2.content := by
  have hmem : (p.1.content, p.2.content) ∈ (xs.map Style.content).zip (ys.map Style.content) := by
    rw [List.zip_map]
    exact List.mem_map.mpr ⟨p, hp, rfl⟩
  rw [h, List.zip_map'] at hmem
  obtain ⟨c, -, hc⟩ := List.mem_map.mp hmem
  exact (Prod.mk.inj hc).1.symm.trans (Prod.mk.inj hc).2

/-- Sorting moves styles that are alike to the same places. -/
theorem alike_ofStyles (h : Alike xs ys) : Alike (Sheet.ofStyles xs).styles (Sheet.ofStyles ys).styles := by
  -- sort the pairs: their first and second parts have the same ranks
  let sorted := (xs.zip ys).mergeSort fun p q => Sheet.before p.1 q.1
  have hfst : sorted.map Prod.fst = (Sheet.ofStyles xs).styles := by
    have hmap := List.map_mergeSort (r := fun p q : Style V × Style V => Sheet.before p.1 q.1) (s := Sheet.before)
      (f := Prod.fst) (l := xs.zip ys) fun _ _ _ _ => rfl
    rwa [List.map_fst_zip (Nat.le_of_eq h.length_eq)] at hmap
  have hsnd : sorted.map Prod.snd = (Sheet.ofStyles ys).styles := by
    have hmap := List.map_mergeSort (r := fun p q : Style V × Style V => Sheet.before p.1 q.1) (s := Sheet.before)
      (f := Prod.snd) (l := xs.zip ys) (by
        intro p hp q hq
        have hpp := congrArg (·.2.2) (content_of_mem_zip h.same hp)
        have hqq := congrArg (·.2.2) (content_of_mem_zip h.same hq)
        simp only [Style.content] at hpp hqq
        simp only [Sheet.before, hpp, hqq])
    rwa [List.map_snd_zip (Nat.le_of_eq h.length_eq.symm)] at hmap
  have hmem : ∀ p, p ∈ sorted ↔ p ∈ xs.zip ys := fun p => List.mem_mergeSort
  have hzip : sorted = (sorted.map Prod.fst).zip (sorted.map Prod.snd) := List.zip_of_prod rfl rfl
  rw [← hfst, ← hsnd]
  refine ⟨?_, ?_⟩
  · rw [List.map_map, List.map_map]
    exact List.map_congr_left fun p hp => content_of_mem_zip h.same ((hmem p).mp hp)
  · rw [← hzip]
    exact fun p hp q hq => h.shared p ((hmem p).mp hp) q ((hmem q).mp hq)

theorem queryStyles_alike {d : Document} (h : xs.map Style.content = ys.map Style.content) (p : PropertyId)
    (c : Cursor d) : Sheet.queryStyles p xs c = Sheet.queryStyles p ys c := by
  induction xs generalizing ys c with
  | nil =>
    cases ys with
    | nil => rfl
    | cons y ys => cases h
  | cons x xs ih =>
    cases ys with
    | nil => cases h
    | cons y ys =>
      obtain ⟨hxy, hrest⟩ := List.cons.inj h
      obtain ⟨hchain, hcontent⟩ := Prod.mk.inj hxy
      obtain ⟨hdeclarations, hrank⟩ := Prod.mk.inj hcontent
      rw [Sheet.queryStyles, Sheet.queryStyles, hchain, hdeclarations, hrank]
      simp only [ih hrest]

/-! ## Styles of the same rules -/

section

variable {σ : Type} (host : Host σ V)

theorem made_append (memory : σ) (supply : Supply) (rs ss : List Rule) :
    (made host memory supply (rs ++ ss)).styles =
      (made host memory supply rs).styles ++
        (made host (made host memory supply rs).memory (made host memory supply rs).supply ss).styles := by
  induction rs generalizing memory supply with
  | nil => rfl
  | cons r rs ih =>
    show (madeRule host memory supply r).styles ++ (made host _ _ (rs ++ ss)).styles = _
    rw [ih, ← List.append_assoc]
    rfl

theorem block_of_made (memory : σ) (supply : Supply) (rs : List Rule) :
    (made host memory supply rs).supply.block = supply.block + rs.length := by
  induction rs generalizing memory supply with
  | nil => rfl
  | cons r rs ih =>
    show (made host _ (madeRule host memory supply r).supply rs).supply.block = _
    have hnext : (madeRule host memory supply r).supply.block = supply.block + 1 := rfl
    rw [ih, hnext, List.length_cons]
    omega

theorem number_of_made {memory : σ} {supply : Supply} {rs : List Rule} {x : Style V}
    (h : x ∈ (made host memory supply rs).styles) :
    x.block.number < (made host memory supply rs).supply.block := by
  induction rs generalizing memory supply with
  | nil => cases h
  | cons r rs ih =>
    rcases List.mem_append.mp h with h | h
    · rw [(mem_madeRule h).1, block_of_made, List.length_cons]
      show supply.block < _
      omega
    · exact ih h

/-- What is made later is on other blocks. -/
theorem apart_made {memory memory' : σ} {supply supply' : Supply} {rs ss : List Rule}
    (h : (made host memory supply rs).supply.block ≤ supply'.block) :
    Apart (made host memory supply rs).styles (made host memory' supply' ss).styles := by
  intro x hx y hy
  have hlt := number_of_made host hx
  have hle := (mem_made hy).1
  omega

end

variable (identify : String → Option PropertyId) (interpret : PropertyId → String → Option V)

/-- A host that answers by two functions makes the same declarations whatever it was asked before. -/
theorem declareAll_asked (asked asked' : List Question) (ds : Declarations V) (l : List (String × String)) :
    (declareAll (.answering identify interpret) asked ds l).2 =
      (declareAll (.answering identify interpret) asked' ds l).2 := by
  induction l generalizing asked asked' ds with
  | nil => rfl
  | cons d l ih =>
    have hstep : (declare (.answering identify interpret) asked ds d.1 d.2).2 =
        (declare (.answering identify interpret) asked' ds d.1 d.2).2 := by
      simp only [declare, Host.answering]
      cases identify d.1 with
      | none => rfl
      | some p =>
        dsimp only
        cases interpret p d.2 <;> rfl
    rw [declareAll_cons, declareAll_cons, hstep]
    exact ih _ _ _

theorem alike_madeRule (asked asked' : List Question) (supply supply' : Supply) (r : Rule) :
    Alike (madeRule (.answering identify interpret) asked supply r).styles
      (madeRule (.answering identify interpret) asked' supply' r).styles := by
  have hcontent (asked : List Question) (supply : Supply) :
      (madeRule (.answering identify interpret) asked supply r).styles.map Style.content =
        (r.chains.map Trail.chain).map fun c =>
          (c, (declareAll (.answering identify interpret) asked .empty r.declarations).2, c.specificity) := by
    show List.map _ (List.map _ ((r.chains.map Trail.chain).zipIdx supply.serial)) = _
    conv_rhs => rw [← List.zipIdx_map_fst supply.serial (r.chains.map Trail.chain)]
    rw [List.map_map, List.map_map]
    rfl
  refine ⟨?_, ?_⟩
  · rw [hcontent, hcontent, declareAll_asked identify interpret asked asked']
  · intro p hp q hq
    obtain ⟨hp1, hp2⟩ := List.of_mem_zip hp
    obtain ⟨hq1, hq2⟩ := List.of_mem_zip hq
    rw [(mem_madeRule hp1).1, (mem_madeRule hp2).1, (mem_madeRule hq1).1, (mem_madeRule hq2).1]
    exact iff_of_true rfl rfl

theorem alike_made (asked asked' : List Question) (supply supply' : Supply) (rs : List Rule) :
    Alike (made (.answering identify interpret) asked supply rs).styles
      (made (.answering identify interpret) asked' supply' rs).styles := by
  induction rs generalizing asked asked' supply supply' with
  | nil => exact ⟨rfl, by simp [made]⟩
  | cons r rs ih =>
    exact alike_append (alike_madeRule identify interpret asked asked' supply supply' r) (ih _ _ _ _)
      (apart_madeRule _ _ _ _ _ _) (apart_madeRule _ _ _ _ _ _)

/-! ## Sheets -/

theorem Grammar.sheet_append {rs ss : List Rule} (h : SheetText a rs) (h' : SheetText b ss) :
    SheetText (a ++ b) (rs ++ ss) := by
  induction h' with
  | blank hw => simpa using sheet_blank h hw
  | rule _ hq hw ih => simpa using ih.rule hq hw

namespace Sheet

theorem read_replies {σ : Type} {rs : List Rule} (host : Host σ V) (memory : σ) (supply : Supply)
    (h : SheetText a rs) :
    (read host memory supply (Source.replies a)).result = .ok (ofStyles (made host memory supply rs).styles) := by
  obtain ⟨l, hrun⟩ := Reader.run_sheet h
  rw [read_replies_of_run host memory supply hrun]

/-- The styles of rules and of more rules, sorted at once, are alike those of the one appended to those of the other. -/
theorem alike_sheets {rs ss : List Rule} {s t : Supply} (u : Supply)
    (h : Apart (made (.answering identify interpret) [] s rs).styles (made (.answering identify interpret) [] t ss).styles) :
    Alike (ofStyles (made (.answering identify interpret) [] u (rs ++ ss)).styles).styles
      ((ofStyles (made (.answering identify interpret) [] s rs).styles).append
        (ofStyles (made (.answering identify interpret) [] t ss).styles)).1.styles := by
  have happend : ((ofStyles (made (.answering identify interpret) [] s rs).styles).append
      (ofStyles (made (.answering identify interpret) [] t ss).styles)).1 = _ := ofStyles_append _ _
  rw [happend, made_append]
  exact alike_ofStyles (alike_append (alike_made ..) (alike_made ..) (apart_made _ (Nat.le_refl _)) h)

theorem apart_of_sorted {xs ys : List (Style V)} (h : Apart (ofStyles xs).styles (ofStyles ys).styles) : Apart xs ys :=
  fun x hx y hy => h x ((perm_ofStyles xs).mem_iff.mpr hx) y ((perm_ofStyles ys).mem_iff.mpr hy)

/-- A sheet that is read with the numbers that another reading has left is on blocks of its own. -/
theorem apart_read {σ : Type} {host : Host σ V} {memory memory' : σ} {supply supply' : Supply} {source source' : List Reply}
    {A B : Sheet V} (hA : (read host memory supply source).result = .ok A)
    (hB : (read host memory' supply' source').result = .ok B)
    (h : (read host memory supply source).supply.block ≤ supply'.block) : Apart A.styles B.styles := by
  obtain ⟨hhalt, rs, hrs, rfl⟩ := (read_eq_ok_iff host).mp hA
  obtain ⟨-, ss, -, rfl⟩ := (read_eq_ok_iff host).mp hB
  rw [read_of_sheet host memory supply hrs hhalt] at h
  intro x hx y hy
  exact apart_made host h x ((perm_ofStyles _).mem_iff.mp hx) y ((perm_ofStyles _).mem_iff.mp hy)

/-- A sheet and then any text are read as each of them is, with the error on a later line. If both are sheets,
    reading them as one gives what appending the one to the other gives, whatever numbers the three readings had; the
    two must only be on blocks of their own, as they are when one is read after the other (`apart_read`). -/
theorem read_concat (ha : (({} : Reader).run a).ended.fault? = none) (b : List UInt8) :
    (({} : Reader).run (a ++ b)).ended.events =
        (({} : Reader).run a).ended.events ++ (({} : Reader).run b).ended.events ∧
      (({} : Reader).run (a ++ b)).ended.error? =
        (({} : Reader).run b).ended.error?.map
          (fun e => { e with line := e.line + UInt32.ofNat (a.count lineEnd) }) ∧
      ((({} : Reader).run b).ended.fault? = none →
        ∀ {V : Type} (identify : String → Option PropertyId) (interpret : PropertyId → String → Option V)
          (s t u : Supply), ∃ A B C,
            (read (.answering identify interpret) [] s (Source.replies a)).result = .ok A ∧
            (read (.answering identify interpret) [] t (Source.replies b)).result = .ok B ∧
            (read (.answering identify interpret) [] u (Source.replies (a ++ b))).result = .ok C ∧
            (Apart A.styles B.styles → Alike C.styles (A.append B).1.styles ∧
              ∀ (d : Document) (c : Cursor d) (p : PropertyId), C.query p c = (A.append B).1.query p c)) := by
  refine ⟨?_, ?_, fun hb V identify interpret s t u => ?_⟩
  · rw [Reader.ended_events, Reader.ended_events, Reader.ended_events, Reader.run_concat ha]
  · rw [Reader.run_concat ha, Reader.ended_error?_of_events, Outcome.ended_later, Outcome.error?_later]
  · obtain ⟨rs, hrs, -⟩ := Reader.sheet_of_accepted ha
    obtain ⟨ss, hss, -⟩ := Reader.sheet_of_accepted hb
    refine ⟨_, _, _, read_replies _ [] s hrs, read_replies _ [] t hss, read_replies _ [] u (sheet_append hrs hss),
      fun hapart => ?_⟩
    have halike := alike_sheets identify interpret u (apart_of_sorted hapart)
    exact ⟨halike, fun d c p => queryStyles_alike halike.same p c⟩

/-- A rule with two chains on a line. -/
def twoChains : List UInt8 := Utf8.bytes "a,b\x7bfill:1\x7d\n"

def oneId : List UInt8 := Utf8.bytes "#c\x7bfill:2\x7d"

def twoChainsRule : Rule := ⟨[⟨[], [⟨.tag, "a"⟩]⟩, ⟨[], [⟨.tag, "b"⟩]⟩], [("fill", "1")]⟩

def oneIdRule : Rule := ⟨[⟨[], [⟨.id, "c"⟩]⟩], [("fill", "2")]⟩

/-- The one name that is known has any value. -/
def fillOnly : Host (List Question) String := .answering (fun name => if name = "fill" then some 0 else none) fun _ => some

def fillName : Rendering String := ⟨fun p => if p = 0 then some "fill" else none, fun _ value => value⟩

/-- A block that has the one value. -/
def filled (number : Nat) (value : String) : Block String := ⟨number, { entries := [(0, value)], sorted := by simp }⟩

/-- The styles of the first text share a block. -/
def aStyle : Style String := Style.of ⟨[{ tag := "a" }]⟩ (filled 0 "1") 0

def bStyle : Style String := Style.of ⟨[{ tag := "b" }]⟩ (filled 0 "1") 1

def cStyle : Style String := Style.of ⟨[{ id := "c" }]⟩ (filled 1 "2") 2

theorem read_twoChains :
    (read fillOnly [] {} (Source.replies twoChains)).result = .ok ⟨[aStyle, bStyle]⟩ ∧
      (read fillOnly [] {} (Source.replies twoChains)).supply = ⟨1, 2⟩ := by
  have hrun : ({} : Reader).run twoChains = ⟨{ line := 2 }, events [twoChainsRule], none⟩ := by decide +kernel
  have hsheet : ofStyles [aStyle, bStyle] = ⟨[aStyle, bStyle]⟩ := sort_eq (s := ⟨[aStyle, bStyle]⟩) (by decide)
  rw [read_replies_of_run fillOnly [] {} hrun, ← hsheet]
  exact ⟨rfl, rfl⟩

/-- Read with the numbers that come next. -/
theorem read_oneId : (read fillOnly [] ⟨1, 2⟩ (Source.replies oneId)).result = .ok ⟨[cStyle]⟩ := by
  have hrun : ({} : Reader).run oneId = ⟨{}, events [oneIdRule], none⟩ := by decide +kernel
  rw [read_replies_of_run fillOnly [] ⟨1, 2⟩ hrun, ← ofStyles_singleton]
  rfl

/-- The id ranks first. -/
theorem read_twoChains_oneId :
    (read fillOnly [] {} (Source.replies (twoChains ++ oneId))).result = .ok ⟨[cStyle, aStyle, bStyle]⟩ := by
  have hrun : ({} : Reader).run (twoChains ++ oneId) =
      ⟨{ line := 2 }, events [twoChainsRule, oneIdRule], none⟩ := by decide +kernel
  have hsheet : ofStyles [aStyle, bStyle, cStyle] = ⟨[cStyle, aStyle, bStyle]⟩ :=
    ofStyles_eq_of_ranks (by decide) (by decide) (by decide)
  rw [read_replies_of_run fillOnly [] {} hrun, ← hsheet]
  rfl

/-- The rule with the id is written last, by its declarations. -/
theorem toText_twoChains_oneId : toText ⟨[cStyle, aStyle, bStyle]⟩ "" fillName =
    "a, b \x7b\n\tfill: 1;\n\x7d\n#c \x7b\n\tfill: 2;\n\x7d\n" := by
  have hrising : Rising [[aStyle, bStyle], [cStyle]] := ⟨by simp, by decide, by decide, by decide⟩
  rw [toText_of_rising hrising (by decide), if_pos (by decide +kernel)]
  rfl

theorem read_concat_twoRules :
    (read fillOnly [] {} (Source.replies twoChains)).result = .ok ⟨[aStyle, bStyle]⟩ ∧
      (read fillOnly [] (read fillOnly [] {} (Source.replies twoChains)).supply (Source.replies oneId)).result =
        .ok ⟨[cStyle]⟩ ∧
      (read fillOnly [] {} (Source.replies (twoChains ++ oneId))).result = .ok ⟨[cStyle, aStyle, bStyle]⟩ ∧
      Alike [cStyle, aStyle, bStyle] ((⟨[aStyle, bStyle]⟩ : Sheet String).append ⟨[cStyle]⟩).1.styles ∧
      toText ⟨[cStyle, aStyle, bStyle]⟩ "" fillName =
        "a, b \x7b\n\tfill: 1;\n\x7d\n#c \x7b\n\tfill: 2;\n\x7d\n" := by
  obtain ⟨-, -, hsheets⟩ := read_concat (a := twoChains) (by decide) oneId
  obtain ⟨A, B, C, hA, hB, hC, hall⟩ := hsheets (by decide) (fun name => if name = "fill" then some 0 else none)
    (fun _ => some) {} (read fillOnly [] {} (Source.replies twoChains)).supply {}
  obtain ⟨hfirst, hsupply⟩ := read_twoChains
  have hsecond : (read fillOnly [] (read fillOnly [] {} (Source.replies twoChains)).supply
      (Source.replies oneId)).result = .ok ⟨[cStyle]⟩ := by
    rw [hsupply]
    exact read_oneId
  obtain rfl : A = ⟨[aStyle, bStyle]⟩ := Except.ok.inj (hA.symm.trans hfirst)
  obtain rfl : B = ⟨[cStyle]⟩ := Except.ok.inj (hB.symm.trans hsecond)
  obtain rfl : C = ⟨[cStyle, aStyle, bStyle]⟩ := Except.ok.inj (hC.symm.trans read_twoChains_oneId)
  exact ⟨hfirst, hsecond, read_twoChains_oneId, (hall (apart_read hA hB (Nat.le_refl _))).1, toText_twoChains_oneId⟩

end Sheet

end Cascade
