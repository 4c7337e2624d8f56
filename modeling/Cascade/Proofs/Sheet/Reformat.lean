/-
  Cascade.Proofs.Sheet.Reformat — what a sheet answers after it was read, written and
  read again. The styles are the same, but those of one rank now stand in the order of the
  text, block by block (`reparse`).

  1. Where two styles of one rank never decide together on a node, every query there has
     the answer it had (`query_reparse`).
  2. A chain declares the same values for a property as before, each as often. The one
     that takes effect is now that of the block that was written first, so it stays as it
     was where the chain declares one value only (`declared_reparse`).

  The second is all there is: of two rules for one chain the later may take effect after
  the sheet is written and read (`a_chain_takes_another_value`).
-/

import Cascade.Proofs.Sheet.RoundTrip
import Cascade.Proofs.Sheet.Winner

namespace Cascade.Sheet

open Grammar

variable {V : Type} {x y : Style V} {c : Chain} {p : PropertyId}

/-! ## Copies -/

/-- What a query sees of the two styles is the same, apart from their rank. -/
def Copy (x y : Style V) : Prop := y.chain = x.chain ∧ y.block.declarations = x.block.declarations

theorem decides_copy {d : Document} (i : d.Place) (h : Copy x y) : decides p i y = decides p i x := by
  simp [decides, h.1, h.2]

theorem rank_copy (h : Copy x y) (hx : x.specificity = x.chain.specificity) (hy : y.specificity = y.chain.specificity) :
    y.specificity = x.specificity := by
  rw [hx, hy, h.1]

theorem copy_copies {supply : Supply} {gs : List (List (Style V))} {e : Style V × Style V}
    (h : e ∈ (copies supply gs).flatten) : Copy e.1 e.2 := by
  obtain ⟨g, hg, he⟩ := List.mem_flatten.mp h
  obtain ⟨hchain, hdeclarations, -⟩ := mem_copies hg e he
  exact ⟨hchain, hdeclarations⟩

theorem rank_copies {supply : Supply} {gs : List (List (Style V))} {e : Style V × Style V}
    (h : e ∈ (copies supply gs).flatten) : e.2.specificity = e.2.chain.specificity := by
  induction gs generalizing supply with
  | nil => cases h
  | cons g gs ih =>
    rcases List.mem_append.mp h with h | h
    · obtain ⟨f, -, rfl⟩ := List.mem_map.mp h
      rfl
    · exact ih h

/-- The originals of the copies, in order. -/
theorem originals (supply : Supply) (gs : List (List (Style V))) :
    (copies supply gs).flatten.map Prod.fst = gs.flatten := by
  rw [List.map_flatten, fst_copies]

/-! ## A sheet read again -/

/-- A sheet is sorted, and its styles rank as their chains do. -/
theorem ranked_read {σ : Type} {host : Host σ V} {memory : σ} {supply : Supply} {source : List Reply} {s : Sheet V}
    (hs : (read host memory supply source).result = .ok s) :
    (s.styles.Pairwise fun a b => b.specificity ≤ a.specificity) ∧
      ∀ x ∈ s.styles, x.specificity = x.chain.specificity := by
  obtain ⟨-, rs, -, rfl⟩ := (read_eq_ok_iff host).mp hs
  refine ⟨sorted_ofStyles _, ?_⟩
  intro x hx
  exact rank_made ((perm_ofStyles _).mem_iff.mp hx)

section

variable {σ : Type} {host : Host σ String} {r : Rendering String} {memory : σ} {supply : Supply}
  {source : List Reply} {s : Sheet String} {indent : String}

/-- The sheet that comes of the text: copies of the blocks, in the order of their entries. -/
theorem reparse (hval : ∀ m p text, host.interpret m p text = (some text, m)) (hr : ∀ p v, r.value p v = v)
    (hs : (read host memory supply source).result = .ok s)
    (hnamed : ∀ x ∈ s.styles, ∀ e ∈ x.block.declarations.entries,
      Named host (read host memory supply source).memory r e.1)
    (hi : Blank (Utf8.bytes indent)) (supply' : Supply) :
    ∃ gs, gs.Perm (byBlock s.styles) ∧ gs.map (Entry.ofStyles indent r) = s.entries indent r ∧
      (parse host (read host memory supply source).memory supply' (s.toText indent r)).result =
        .ok (ofStyles ((copies supply' gs).flatten.map Prod.snd)) := by
  obtain ⟨hshare, hchains, hvalues⟩ := legible_read hval hs
  have hecho : ∀ x ∈ s.styles, ∀ e ∈ x.block.declarations.entries,
      Echoes host (read host memory supply source).memory r e.1 e.2 := by
    intro x hx e he
    refine ⟨hnamed x hx e he, ?_, ?_⟩
    · rw [hr]
      exact hvalues x hx e he
    · rw [hr, hval]
  obtain ⟨gs, hperm, he⟩ := exists_entries s indent r
  refine ⟨gs, hperm, he, parse_entries hi he ?_ supply'⟩
  intro g hg
  exact stable_byBlock hshare hchains hecho g (hperm.mem_iff.mp hg)

end

/-! ## Queries -/

/-- Of the styles of one rank at most one decides on the node. -/
def NoTie {d : Document} (styles : List (Style V)) (p : PropertyId) (i : d.Place) : Prop :=
  ∀ x ∈ styles, ∀ y ∈ styles, decides p i x = true → decides p i y = true → x.specificity = y.specificity → x = y

instance {d : Document} [DecidableEq V] (styles : List (Style V)) (p : PropertyId) (i : d.Place) :
    Decidable (NoTie styles p i) :=
  inferInstanceAs (Decidable (∀ x ∈ styles, ∀ y ∈ styles,
    decides p i x = true → decides p i y = true → x.specificity = y.specificity → x = y))

/-- Sheets whose styles are copies of each other give one answer where there is no tie. -/
theorem query_copies {s t : Sheet V} {d : Document} {c : Cursor d}
    (hs : s.styles.Pairwise fun a b => b.specificity ≤ a.specificity)
    (ht : t.styles.Pairwise fun a b => b.specificity ≤ a.specificity)
    (hcopy : ∀ x ∈ s.styles, ∃ y ∈ t.styles, Copy x y ∧ y.specificity = x.specificity)
    (horiginal : ∀ y ∈ t.styles, ∃ x ∈ s.styles, Copy x y ∧ y.specificity = x.specificity)
    (hno : NoTie s.styles p c.home) :
    (t.query p c).value = (s.query p c).value ∧ (t.query p c).specificity = (s.query p c).specificity := by
  rcases query_cases hs c p with ⟨x, hx, hxv, hxr⟩ | ⟨hnone, hxv, hxr⟩
  · obtain ⟨x', hx', hcx, hrx⟩ := hcopy x hx.mem
    have hdx' : decides p c.home x' = true := (decides_copy _ hcx).trans hx.decides
    rcases query_cases ht c p with ⟨y, hy, hyv, hyr⟩ | ⟨hnone, -, -⟩
    · obtain ⟨y', hy', hcy, hry⟩ := horiginal y hy.mem
      have hdy' : decides p c.home y' = true := (decides_copy _ hcy).symm.trans hy.decides
      -- the winners rank alike, for each has a copy or an original that cannot outrank the other
      have hle : y'.specificity ≤ x.specificity := hx.highest y' hy' hdy'
      have hge : x'.specificity ≤ y.specificity := hy.highest x' hx' hdx'
      rw [hry, hrx] at hge
      have hrank := rank_antisymm hle hge
      have hsame : y' = x := hno y' hy' x hx.mem hdy' hx.decides hrank
      subst hsame
      exact ⟨by rw [hyv, hxv, hcy.2], by rw [hyr, hxr, hry]⟩
    · rw [hnone x' hx'] at hdx'
      cases hdx'
  · rcases query_cases ht c p with ⟨y, hy, -, -⟩ | ⟨-, hyv, hyr⟩
    · obtain ⟨y', hy', hcy, -⟩ := horiginal y hy.mem
      have hdy' := (decides_copy c.home hcy).symm.trans hy.decides
      rw [hnone y' hy'] at hdy'
      cases hdy'
    · exact ⟨hyv.trans hxv.symm, hyr.trans hxr.symm⟩

section

variable {σ : Type} {host : Host σ String} {r : Rendering String} {memory : σ} {supply : Supply}
  {source : List Reply} {s : Sheet String} {indent : String}

/-- Writing a sheet that was read and reading the text keeps the answer of every query, wherever no two styles of
    one rank match the node and declare the property. -/
theorem query_reparse (hval : ∀ m p text, host.interpret m p text = (some text, m)) (hr : ∀ p v, r.value p v = v)
    (hs : (read host memory supply source).result = .ok s)
    (hnamed : ∀ x ∈ s.styles, ∀ e ∈ x.block.declarations.entries,
      Named host (read host memory supply source).memory r e.1)
    (hi : Blank (Utf8.bytes indent)) (supply' : Supply) :
    ∃ t, (parse host (read host memory supply source).memory supply' (s.toText indent r)).result = .ok t ∧
      ∀ (d : Document) (c : Cursor d) (p : PropertyId), NoTie s.styles p c.home →
        (t.query p c).value = (s.query p c).value ∧ (t.query p c).specificity = (s.query p c).specificity := by
  obtain ⟨gs, hperm, -, hparse⟩ := reparse hval hr hs hnamed hi supply'
  obtain ⟨hfalling, hranks⟩ := ranked_read hs
  refine ⟨_, hparse, fun d c p hno => query_copies hfalling (sorted_ofStyles _) ?_ ?_ hno⟩
  · intro x hx
    have hx' : x ∈ (copies supply' gs).flatten.map Prod.fst := by
      rw [originals]
      exact (hperm.flatten.trans (perm_byBlock s.styles)).mem_iff.mpr hx
    obtain ⟨e, he, rfl⟩ := List.mem_map.mp hx'
    refine ⟨e.2, (perm_ofStyles _).mem_iff.mpr (List.mem_map_of_mem he), copy_copies he, ?_⟩
    exact rank_copy (copy_copies he) (hranks e.1 hx) (rank_copies he)
  · intro y hy
    obtain ⟨e, he, rfl⟩ := List.mem_map.mp ((perm_ofStyles _).mem_iff.mp hy)
    have hx : e.1 ∈ s.styles := by
      refine (hperm.flatten.trans (perm_byBlock s.styles)).mem_iff.mp ?_
      rw [← originals supply' gs]
      exact List.mem_map_of_mem he
    exact ⟨e.1, hx, copy_copies he, rank_copy (copy_copies he) (hranks e.1 hx) (rank_copies he)⟩

end

/-- `.b` and `.c` have one rank, and the text has them the other way round. -/
def colours : Sheet String where
  styles :=
    [Style.of ⟨[{ classes := ["b"] }]⟩ ⟨0, { entries := [(0, "2")], sorted := by decide }⟩ 0,
      Style.of ⟨[{ classes := ["c"] }]⟩ ⟨1, { entries := [(0, "1")], sorted := by decide }⟩ 1,
      Style.of ⟨[{ tag := "a" }]⟩ ⟨2, { entries := [(0, "3")], sorted := by decide }⟩ 2]

def colourReplies : List Reply :=
  [.bytes (Utf8.bytes ".b\x7bfill:2\x7d.c\x7bfill:1\x7da\x7bfill:3\x7d")]

def oneNode : Document where
  nodes := #[{ tag := "a", classes := ["b"] }]
  parents_first := by decide

def onlyPlace : oneNode.Place := ⟨0, by decide⟩

theorem query_reparse_colours :
    (read NameTable.host {} {} colourReplies).result = .ok colours ∧
      NoTie colours.styles 0 onlyPlace ∧
      ∃ t, (parse NameTable.host (read NameTable.host {} {} colourReplies).memory {}
          (colours.toText "\t" paintNames.rendering)).result = .ok t ∧
        (t.query 0 (Cursor.atHome onlyPlace)).value = some "2" ∧
        (t.query 0 (Cursor.atHome onlyPlace)).specificity = .ofCounts 0 1 0 := by
  have hsort : ofStyles colours.styles = colours := sort_eq (by decide)
  have hread : (read NameTable.host {} {} colourReplies).result = .ok colours := by
    rw [← hsort]
    rfl
  have hfill : ∀ x ∈ colours.styles, ∀ e ∈ x.block.declarations.entries, e.1 = 0 := by decide
  have hnamed : ∀ x ∈ colours.styles, ∀ e ∈ x.block.declarations.entries,
      Named NameTable.host (read NameTable.host {} {} colourReplies).memory paintNames.rendering e.1 := by
    intro x hx e he
    rw [hfill x hx e he]
    exact ⟨"fill", rfl, by decide, rfl⟩
  have htab : Blank (Utf8.bytes "\t") := by decide
  have hno : NoTie colours.styles 0 onlyPlace := by decide +kernel
  obtain ⟨t, ht, hquery⟩ := query_reparse (fun _ _ _ => rfl) (fun _ _ => rfl) hread hnamed htab {}
  obtain ⟨hvalue, hrank⟩ := hquery oneNode (Cursor.atHome onlyPlace) 0 hno
  exact ⟨hread, hno, t, ht, hvalue.trans (by decide +kernel), hrank.trans (by decide +kernel)⟩

/-! ## Declarations of a chain -/

/-- The value that the style gives the property, if it is one of the chain. -/
def valueFor (c : Chain) (p : PropertyId) (x : Style V) : Option V :=
  if x.chain = c then x.block.declarations.get? p else none

/-- The values that the styles of a chain give a property, in the order of the sheet. -/
def declared (s : Sheet V) (c : Chain) (p : PropertyId) : List V := s.styles.filterMap (valueFor c p)

/-- The value of the first style of the chain that declares the property. -/
def effective (s : Sheet V) (c : Chain) (p : PropertyId) : Option V := s.styles.findSome? (valueFor c p)

theorem effective_eq (s : Sheet V) (c : Chain) (p : PropertyId) : effective s c p = (declared s c p).head? :=
  List.head?_filterMap.symm

theorem valueFor_copy (h : Copy x y) : valueFor c p y = valueFor c p x := by
  unfold valueFor
  rw [h.1, h.2]

/-- Sorting by rank keeps the order of the styles of one chain. -/
theorem declared_ofStyles {styles : List (Style V)} (h : ∀ x ∈ styles, x.specificity = x.chain.specificity) :
    declared (ofStyles styles) c p = styles.filterMap (valueFor c p) := by
  have hpicked (l : List (Style V)) : (l.filter (·.chain = c)).filterMap (valueFor c p) = l.filterMap (valueFor c p) := by
    rw [List.filterMap_filter]
    congr 1
    funext x
    by_cases hx : x.chain = c <;> simp [valueFor, hx]
  unfold declared
  rw [← hpicked, ← hpicked styles, filter_ofStyles]
  intro x hx y hy hxc hyc
  rw [h x hx, h y hy, of_decide_eq_true hxc, of_decide_eq_true hyc]

/-- The sheet made of copies declares for a chain what the originals do, block by block. -/
theorem declared_copies (supply : Supply) (gs : List (List (Style V))) :
    declared (ofStyles ((copies supply gs).flatten.map Prod.snd)) c p = gs.flatten.filterMap (valueFor c p) := by
  have hranks : ∀ y ∈ (copies supply gs).flatten.map Prod.snd, y.specificity = y.chain.specificity := by
    intro y hy
    obtain ⟨e, he, rfl⟩ := List.mem_map.mp hy
    exact rank_copies he
  rw [declared_ofStyles hranks, ← originals supply gs, List.filterMap_map, List.filterMap_map]
  exact List.filterMap_congr fun e he => valueFor_copy (copy_copies he)

/-- The first value in groups that stand in some order is one of a group that stands before all with a value. -/
theorem first_of_groups {R : List (Style V) → List (Style V) → Prop} {gs : List (List (Style V))}
    {f : Style V → Option V} {v : V} (hrefl : ∀ g, R g g) (hs : gs.Pairwise R) (h : gs.flatten.findSome? f = some v) :
    ∃ g ∈ gs, (∃ x ∈ g, f x = some v) ∧ ∀ k ∈ gs, (∃ y ∈ k, (f y).isSome) → R g k := by
  induction gs with
  | nil => cases h
  | cons g gs ih =>
    obtain ⟨hg, hs⟩ := List.pairwise_cons.mp hs
    rw [List.flatten_cons, List.findSome?_append] at h
    cases hf : g.findSome? f with
    | some w =>
      obtain rfl : w = v := by simpa [hf] using h
      refine ⟨g, List.mem_cons_self, List.exists_of_findSome?_eq_some hf, ?_⟩
      intro k hk _
      rcases List.mem_cons.mp hk with rfl | hk
      · exact hrefl k
      · exact hg k hk
    | none =>
      rw [hf, Option.none_or] at h
      obtain ⟨k, hk, hvalue, hfirst⟩ := ih hs h
      refine ⟨k, List.mem_cons_of_mem _ hk, hvalue, ?_⟩
      intro k' hk' hy
      rcases List.mem_cons.mp hk' with rfl | hk'
      · obtain ⟨y, hy, hsome⟩ := hy
        rw [List.findSome?_eq_none_iff.mp hf y hy] at hsome
        cases hsome
      · exact hfirst k' hk' hy

theorem head?_of_perm {vs ws : List V} (h : ws.Perm vs) (hone : ∀ v ∈ vs, ∀ w ∈ vs, v = w) : ws.head? = vs.head? := by
  cases vs with
  | nil => rw [h.eq_nil]
  | cons v vs =>
    cases ws with
    | nil => cases h.symm.eq_nil
    | cons w ws =>
      have hw : w ∈ v :: vs := h.mem_iff.mp List.mem_cons_self
      rw [List.head?_cons, List.head?_cons, hone w hw v List.mem_cons_self]

section

variable {σ : Type} {host : Host σ String} {r : Rendering String} {memory : σ} {supply : Supply}
  {source : List Reply} {s : Sheet String} {indent : String}

/-- Writing a sheet that was read and reading the text keeps the values that a chain declares for a property, each as
    often. The one that takes effect is that of the block that is written first of those that declare one, and so the
    one that took effect before if the chain declares one value only. -/
theorem declared_reparse (hval : ∀ m p text, host.interpret m p text = (some text, m)) (hr : ∀ p v, r.value p v = v)
    (hs : (read host memory supply source).result = .ok s)
    (hnamed : ∀ x ∈ s.styles, ∀ e ∈ x.block.declarations.entries,
      Named host (read host memory supply source).memory r e.1)
    (hi : Blank (Utf8.bytes indent)) (supply' : Supply) :
    ∃ t, (parse host (read host memory supply source).memory supply' (s.toText indent r)).result = .ok t ∧
      ∀ c p, (declared t c p).Perm (declared s c p) ∧
        ((∀ v ∈ declared s c p, ∀ w ∈ declared s c p, v = w) → effective t c p = effective s c p) ∧
        ∀ v, effective t c p = some v → ∃ g ∈ byBlock s.styles, (∃ x ∈ g, valueFor c p x = some v) ∧
          ∀ k ∈ byBlock s.styles, (∃ y ∈ k, (valueFor c p y).isSome) →
            (Entry.ofStyles indent r g).before (Entry.ofStyles indent r k) = true := by
  obtain ⟨gs, hperm, he, hparse⟩ := reparse hval hr hs hnamed hi supply'
  refine ⟨_, hparse, fun c p => ?_⟩
  have hdeclared := declared_copies (c := c) (p := p) supply' gs
  have hsame : (declared (ofStyles ((copies supply' gs).flatten.map Prod.snd)) c p).Perm (declared s c p) := by
    rw [hdeclared]
    exact (hperm.flatten.trans (perm_byBlock s.styles)).filterMap _
  refine ⟨hsame, ?_, ?_⟩
  · intro hone
    rw [effective_eq, effective_eq]
    exact head?_of_perm hsame hone
  · intro v hv
    rw [effective_eq, hdeclared, List.head?_filterMap] at hv
    have hsorted := sorted_entries s indent r
    rw [← he, List.pairwise_map] at hsorted
    have hrefl : ∀ g, (Entry.ofStyles indent r g).before (Entry.ofStyles indent r g) = true := by
      intro g
      simpa using entry_before_total (Entry.ofStyles indent r g) (Entry.ofStyles indent r g)
    obtain ⟨g, hg, hvalue, hfirst⟩ := first_of_groups hrefl hsorted hv
    exact ⟨g, hperm.mem_iff.mp hg, hvalue, fun k hk => hfirst k (hperm.mem_iff.mpr hk)⟩

end

/-- Two rules for `a`, of which the second is written first. -/
def twoRules : Sheet String where
  styles :=
    [Style.of ⟨[{ tag := "a" }]⟩ ⟨0, { entries := [(0, "2"), (1, "x")], sorted := by decide }⟩ 0,
      Style.of ⟨[{ tag := "a" }]⟩ ⟨1, { entries := [(0, "1"), (1, "x")], sorted := by decide }⟩ 1]

def twoReplies : List Reply := [.bytes (Utf8.bytes "a\x7bfill:2;stroke:x\x7da\x7bfill:1;stroke:x\x7d")]

theorem read_twoReplies : (read NameTable.host {} {} twoReplies).result = .ok twoRules := by
  have hsort : ofStyles twoRules.styles = twoRules := sort_eq (by decide)
  rw [← hsort]
  rfl

/-- The chain has one value for the second property, and keeps it. -/
theorem declared_reparse_twoRules :
    (read NameTable.host {} {} twoReplies).result = .ok twoRules ∧
      ∃ t, (parse NameTable.host (read NameTable.host {} {} twoReplies).memory {}
          (twoRules.toText "" paintNames.rendering)).result = .ok t ∧
        (declared t ⟨[{ tag := "a" }]⟩ 0).Perm ["2", "1"] ∧ effective t ⟨[{ tag := "a" }]⟩ 1 = some "x" := by
  have hknown : ∀ x ∈ twoRules.styles, ∀ e ∈ x.block.declarations.entries, e.1 = 0 ∨ e.1 = 1 := by decide
  have hnamed : ∀ x ∈ twoRules.styles, ∀ e ∈ x.block.declarations.entries,
      Named NameTable.host (read NameTable.host {} {} twoReplies).memory paintNames.rendering e.1 := by
    intro x hx e he
    rcases hknown x hx e he with h | h
    · rw [h]
      exact ⟨"fill", rfl, by decide, rfl⟩
    · rw [h]
      exact ⟨"stroke", rfl, by decide, rfl⟩
  have hnone : Blank (Utf8.bytes "") := by decide
  obtain ⟨t, ht, hchain⟩ :=
    declared_reparse (fun _ _ _ => rfl) (fun _ _ => rfl) read_twoReplies hnamed hnone {}
  refine ⟨read_twoReplies, t, ht, (hchain _ 0).1, ?_⟩
  exact (hchain _ 1).2.1 (by decide)

/-- Written with the second rule first. -/
theorem toText_twoRules : twoRules.toText "" paintNames.rendering =
    "a \x7b\n\tfill: 1;\n\tstroke: x;\n\x7d\na \x7b\n\tfill: 2;\n\tstroke: x;\n\x7d\n" := by
  unfold twoRules
  rw [toText_pair (by decide), if_neg (by decide +kernel)]
  rfl

/-- The value that takes effect for `a` is another one after writing and reading. -/
theorem a_chain_takes_another_value :
    (read NameTable.host {} {} twoReplies).result = .ok twoRules ∧
      ∃ t, (parse NameTable.host (read NameTable.host {} {} twoReplies).memory {}
          (twoRules.toText "" paintNames.rendering)).result = .ok t ∧
        effective twoRules ⟨[{ tag := "a" }]⟩ 0 = some "2" ∧ effective t ⟨[{ tag := "a" }]⟩ 0 = some "1" := by
  let swapped : List (Style String) :=
    [Style.of ⟨[{ tag := "a" }]⟩ ⟨0, { entries := [(0, "1"), (1, "x")], sorted := by decide }⟩ 0,
      Style.of ⟨[{ tag := "a" }]⟩ ⟨1, { entries := [(0, "2"), (1, "x")], sorted := by decide }⟩ 1]
  refine ⟨read_twoReplies, ofStyles swapped, ?_, by decide, ?_⟩
  · have hrun : ({} : Reader).run (Utf8.bytes
        "a \x7b\n\tfill: 1;\n\tstroke: x;\n\x7d\na \x7b\n\tfill: 2;\n\tstroke: x;\n\x7d\n") =
          ⟨{ line := 9 }, events (["1", "2"].map fun v =>
            ⟨[⟨[], [⟨.tag, "a"⟩]⟩], [("fill", v), ("stroke", "x")]⟩), none⟩ := by
      decide +kernel
    rw [toText_twoRules, parse_eq, hrun]
    rfl
  · rw [show ofStyles swapped = ⟨swapped⟩ from sort_eq (s := ⟨swapped⟩) (by decide)]
    decide

end Cascade.Sheet
