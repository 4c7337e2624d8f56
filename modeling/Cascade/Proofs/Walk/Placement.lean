/-
  Cascade.Proofs.Walk.Placement — what a walk finds. A placement of a chain gives every
  selector a node that matches it, each standing to the node of the next selector as its
  combinator asks; `Related` says what the five combinators ask in a document.

  1. A walk that finds all has found a placement in which every node is the nearest that
     fits (`found_iff_nearest`), and it finds all whenever there is such a placement.
  2. It does not look any further: a chain may have a placement and not be found
     (`a_placed_chain_is_missed`). The nearest node that matches may be the wrong one for
     a selector further out, and it is never given up.
-/

import Cascade.Walk
import Mathlib.Data.List.Chain
import Mathlib.Logic.Relation

namespace Cascade

/-! ## Relations between nodes -/

namespace Document

variable {d : Document}

/-- `i` is the parent of `j`. -/
def Parent (i j : d.Place) : Prop := (d.node j).parent = some i.val

/-- `i` is the parent of `j`, or the parent's parent, and so on. -/
def Ancestor : d.Place → d.Place → Prop := Relation.TransGen Parent

/-- `i` is a sibling of `j` and stands before it. -/
def Precedes (i j : d.Place) : Prop := i < j ∧ (d.node i).parent = (d.node j).parent

/-- No sibling stands between `i` and `j`. -/
def JustPrecedes (i j : d.Place) : Prop := Precedes i j ∧ ∀ k, Precedes k j → k ≤ i

/-- `i` stands to `j`, the node of the next selector, as the combinator asks. -/
def Related : Combinator → d.Place → d.Place → Prop
  | .none, i, j => i = j
  | .descendant, i, j => Ancestor i j
  | .child, i, j => Parent i j
  | .next, i, j => JustPrecedes i j
  | .subsequent, i, j => Precedes i j

/-- One move in this direction leads from `j` to `i`. -/
def Toward (dir : Direction) (i j : d.Place) : Prop := d.toward dir j = some i

/-- Moves in this direction, at least one, lead from `j` to `i`. -/
def Along (dir : Direction) : d.Place → d.Place → Prop := Relation.TransGen (Toward dir)

variable {dir : Direction} {i j k : d.Place}

theorem toward_up_iff : Toward .up i j ↔ Parent i j := up_eq_some_iff

theorem toward_left_iff : Toward .left i j ↔ JustPrecedes i j := by
  unfold Toward toward JustPrecedes Precedes
  rw [left_eq_some_iff]
  constructor
  · intro hnext
    obtain ⟨hlt, hp, hk⟩ := hnext
    refine ⟨⟨hlt, hp⟩, ?_⟩
    intro k hkj
    obtain ⟨hkj, hkp⟩ := hkj
    apply Fin.not_lt.mp
    intro hik
    exact hk k hik hkj hkp
  · intro hnext
    obtain ⟨⟨hlt, hp⟩, hk⟩ := hnext
    refine ⟨hlt, hp, ?_⟩
    intro k hik hkj hkp
    exact absurd (hk k ⟨hkj, hkp⟩) (Fin.not_le.mpr hik)

theorem along_lt (h : Along dir i j) : i < j := by
  induction h with
  | single h => exact toward_lt h
  | tail _ h ih => exact Fin.lt_trans ih (toward_lt h)

/-- The nodes further on are the next one and those further on from it. -/
theorem along_iff (h : d.toward dir j = some i) : Along dir k j ↔ k = i ∨ Along dir k i := by
  have hunique : ∀ m, Toward dir m j → m = i := by
    intro m hm
    exact Option.some.inj (hm.symm.trans h)
  constructor
  · intro hk
    cases hk with
    | single hm => exact Or.inl (hunique k hm)
    | tail hk hm => exact Or.inr (hunique _ hm ▸ hk)
  · intro hk
    rcases hk with rfl | hk
    · exact .single h
    · exact .tail hk h

theorem not_along (h : d.toward dir j = none) : ¬ Along dir k j := by
  intro hk
  have hlast : ∃ m, Toward dir m j := by
    cases hk with
    | single hm => exact ⟨_, hm⟩
    | tail _ hm => exact ⟨_, hm⟩
  obtain ⟨m, hm⟩ := hlast
  exact absurd (h.symm.trans hm) (by simp)

theorem along_up_iff : Along .up i j ↔ Ancestor i j := by
  have h : Toward (d := d) .up = Parent := by
    funext i j
    exact propext toward_up_iff
  unfold Along Ancestor
  rw [h]

theorem precedes_trans (h : Precedes i j) (h' : Precedes j k) : Precedes i k :=
  ⟨Fin.lt_trans h.1 h'.1, h.2.trans h'.2⟩

theorem lastBefore_ne_none {n : Nat} {h : n ≤ d.nodes.size} (hi : i.val < n) :
    d.lastBefore (d.node i).parent n h ≠ none := by
  induction n with
  | zero => omega
  | succ n ih =>
    unfold lastBefore
    split
    · simp
    · rename_i hp
      apply ih
      have hne : i.val ≠ n := by
        rintro rfl
        exact hp rfl
      omega

theorem exists_left (h : Precedes i j) : ∃ k, d.left j = some k := by
  have hne := lastBefore_ne_none (h := Nat.le_of_lt j.isLt) h.1
  rw [h.2] at hne
  exact Option.ne_none_iff_exists'.mp hne

theorem along_of_precedes {i j : d.Place} (h : Precedes i j) : Along .left i j := by
  obtain ⟨k, hk⟩ := exists_left h
  obtain ⟨hkj, hlast⟩ := toward_left_iff.mp hk
  by_cases e : i = k
  · exact .single (e ▸ hk)
  · have hle : i.val ≤ k.val := hlast i h
    have hne : i.val ≠ k.val := Fin.val_ne_of_ne e
    have hik : Precedes i k := ⟨Fin.lt_def.mpr (by omega), h.2.trans hkj.2.symm⟩
    have hlt : k < j := hkj.1
    exact .tail (along_of_precedes hik) hk
termination_by j

/-- The siblings before a node are those that moves to the left lead to. -/
theorem along_left_iff : Along .left i j ↔ Precedes i j := by
  refine ⟨?_, along_of_precedes⟩
  intro h
  induction h with
  | single h => exact (toward_left_iff.mp h).1
  | tail _ h ih => exact precedes_trans ih (toward_left_iff.mp h).1

end Document

/-! ## Placements -/

variable {d : Document} {m n : d.Place} {s : Selector} {rest : List Selector}

/-- The node `m` will do for `s`, seen from the node `n` of the next selector. -/
def Fits (s : Selector) (m n : d.Place) : Prop := s.matches (d.node m) = true ∧ Document.Related s.combinator m n

/-- Of the nodes that will do, `m` is the last before `n`, or `n` itself. -/
def Nearest (s : Selector) (m n : d.Place) : Prop := Fits s m n ∧ ∀ k, Fits s k n → k ≤ m

theorem nearest_unique {k : d.Place} (hm : Nearest s m n) (hk : Nearest s k n) : m = k :=
  Fin.le_antisymm (hk.2 m hm.1) (hm.2 k hk.1)

/-- Every selector of the chain with its node, where the subject stands on `n` and every node is
    related by `R` to the node of the next selector. -/
structure Placement (R : Selector → d.Place → d.Place → Prop) (chain : Chain) (n : d.Place)
    (xs : List (Selector × d.Place)) : Prop where
  selectors : xs.map Prod.fst = chain.selectors
  related : xs.IsChain fun x y => R x.1 x.2 y.2
  subject : ∃ s, xs.getLast? = some (s, n) ∧ s.matches (d.node n) = true

/-- Nodes for selectors read from the subject outwards, the first of them seen from `n`. -/
def Outward (R : Selector → d.Place → d.Place → Prop) : List Selector → d.Place → Prop
  | [], _ => True
  | s :: rest, n => ∃ m, R s m n ∧ Outward R rest m

variable {R : Selector → d.Place → d.Place → Prop}

theorem outward_iff : Outward R rest n ↔
    ∃ ys, ys.map Prod.fst = rest ∧ ((s, n) :: ys).IsChain fun y x => R x.1 x.2 y.2 := by
  induction rest generalizing n s with
  | nil => simp [Outward]
  | cons t rest ih =>
    constructor
    · intro hfirst
      obtain ⟨m, hm, ho⟩ := hfirst
      obtain ⟨ys, hys, hc⟩ := (ih (s := t)).mp ho
      exact ⟨(t, m) :: ys, by simp [hys], List.isChain_cons_cons.mpr ⟨hm, hc⟩⟩
    · intro hlist
      obtain ⟨ys, hys, hc⟩ := hlist
      cases ys with
      | nil => cases hys
      | cons y ys =>
        obtain ⟨rfl, hrest⟩ := List.cons.inj hys
        obtain ⟨hm, hc⟩ := List.isChain_cons_cons.mp hc
        exact ⟨y.2, hm, ih.mpr ⟨ys, hrest, hc⟩⟩

/-- A placement, read from the subject outwards. -/
theorem exists_placement_iff {chain : Chain} (h : chain.selectors.reverse = s :: rest) :
    (∃ xs, Placement R chain n xs) ↔ s.matches (d.node n) = true ∧ Outward R rest n := by
  rw [outward_iff (s := s)]
  have hsel : chain.selectors = rest.reverse ++ [s] := by rw [← List.reverse_reverse chain.selectors, h]; simp
  constructor
  · intro hplaced
    obtain ⟨xs, hs, hr, t, ht, hm⟩ := hplaced
    obtain ⟨ys, rfl⟩ := List.getLast?_eq_some_iff.mp ht
    rw [hsel, List.map_append] at hs
    obtain ⟨hys, hts⟩ := List.append_inj' hs rfl
    cases hts
    refine ⟨hm, ys.reverse, by rw [List.map_reverse, hys, List.reverse_reverse], ?_⟩
    rw [← List.isChain_reverse]
    simpa using hr
  · intro hplaced
    obtain ⟨hm, ys, hys, hc⟩ := hplaced
    refine ⟨ys.reverse ++ [(s, n)], ?_, ?_, s, by simp, hm⟩
    · rw [hsel, ← hys]
      simp
    · rw [← List.isChain_reverse]
      simpa using hc

/-! ## What a walk finds -/

namespace Cursor

variable {c : Cursor d} {dir : Direction}

theorem hop_found_iff : (c.hop dir s).found = true ↔
    ∃ m, Document.Toward dir m c.here ∧ s.matches (d.node m) = true := by
  unfold hop Document.Toward
  split
  · rename_i i h
    simp [h]
  · rename_i h
    simp [h]

theorem hop_here (h : (c.hop dir s).found = true) :
    Document.Toward dir (c.hop dir s).cursor.here c.here ∧
      s.matches (d.node (c.hop dir s).cursor.here) = true ∧
      ∀ k, Document.Toward dir k c.here → s.matches (d.node k) = true → k ≤ (c.hop dir s).cursor.here := by
  unfold hop at h ⊢
  split at h
  · rename_i i hi
    refine ⟨hi, h, ?_⟩
    intro k hk _
    have hki : k = i := Option.some.inj (hk.symm.trans hi)
    exact hki ▸ Fin.le_refl _
  · cases h

theorem seek_found_iff : (c.seek dir s).found = true ↔
    ∃ m, Document.Along dir m c.here ∧ s.matches (d.node m) = true := by
  fun_induction seek dir s c with
  | case1 c i h hs => exact ⟨fun _ => ⟨i, .single h, hs⟩, fun _ => rfl⟩
  | case2 c i h hs ih =>
    show ((c.goTo i).seek dir s).found = true ↔ _
    rw [ih]
    constructor
    · intro hex
      obtain ⟨m, hm, hms⟩ := hex
      exact ⟨m, (Document.along_iff h).mpr (Or.inr hm), hms⟩
    · intro hex
      obtain ⟨m, hm, hms⟩ := hex
      rcases (Document.along_iff h).mp hm with rfl | hm
      · exact absurd hms hs
      · exact ⟨m, hm, hms⟩
  | case3 c h =>
    constructor
    · intro hf
      cases hf
    · intro hex
      obtain ⟨m, hm, -⟩ := hex
      exact absurd hm (Document.not_along h)

/-- The node found matches, and none that the search came by before does. -/
theorem seek_here (h : (c.seek dir s).found = true) :
    Document.Along dir (c.seek dir s).cursor.here c.here ∧
      s.matches (d.node (c.seek dir s).cursor.here) = true ∧
      ∀ k, Document.Along dir k c.here → s.matches (d.node k) = true → k ≤ (c.seek dir s).cursor.here := by
  fun_induction seek dir s c with
  | case1 c i hi hs =>
    refine ⟨.single hi, hs, ?_⟩
    intro k hk _
    rcases (Document.along_iff hi).mp hk with rfl | hk
    · exact Fin.le_refl _
    · exact Fin.le_of_lt (Document.along_lt hk)
  | case2 c i hi hs ih =>
    obtain ⟨h1, h2, h3⟩ := ih h
    refine ⟨(Document.along_iff hi).mpr (Or.inr h1), h2, ?_⟩
    intro k hk hks
    rcases (Document.along_iff hi).mp hk with rfl | hk
    · exact absurd hks hs
    · exact h3 k hk hks
  | case3 c hn => cases h

theorem relate_found_iff : (c.relate s).found = true ↔ ∃ m, Fits s m c.here := by
  unfold relate Fits
  cases hc : s.combinator with
  | none => simp [Document.Related, Cursor.node]
  | descendant => simp only [seek_found_iff, Document.Related, Document.along_up_iff, and_comm]
  | child => simp only [hop_found_iff, Document.Related, Document.toward_up_iff, and_comm]
  | next => simp only [hop_found_iff, Document.Related, Document.toward_left_iff, and_comm]
  | subsequent => simp only [seek_found_iff, Document.Related, Document.along_left_iff, and_comm]

/-- The node found is the nearest that fits. -/
theorem nearest_of {r : d.Place → d.Place → Prop} (hr : ∀ k, r k n ↔ Document.Related s.combinator k n)
    (h : r m n ∧ s.matches (d.node m) = true ∧ ∀ k, r k n → s.matches (d.node k) = true → k ≤ m) : Nearest s m n := by
  obtain ⟨h1, h2, h3⟩ := h
  refine ⟨⟨h2, (hr m).mp h1⟩, ?_⟩
  intro k hfits
  obtain ⟨hks, hk⟩ := hfits
  exact h3 k ((hr k).mpr hk) hks

theorem relate_here (h : (c.relate s).found = true) : Nearest s (c.relate s).cursor.here c.here := by
  unfold relate at h ⊢
  cases hc : s.combinator <;> simp only [hc] at h ⊢
  case none => exact nearest_of (r := Eq) (by simp [hc, Document.Related]) ⟨rfl, h, fun k hk _ => hk ▸ Fin.le_refl _⟩
  case descendant => exact nearest_of (by simp [hc, Document.Related, Document.along_up_iff]) (seek_here h)
  case child => exact nearest_of (by simp [hc, Document.Related, Document.toward_up_iff]) (hop_here h)
  case next => exact nearest_of (by simp [hc, Document.Related, Document.toward_left_iff]) (hop_here h)
  case subsequent => exact nearest_of (by simp [hc, Document.Related, Document.along_left_iff]) (seek_here h)

/-- A climb takes the nearest node that fits, again and again. -/
theorem climb_found_iff : (c.climb rest).found = true ↔ Outward Nearest rest c.here := by
  induction rest generalizing c with
  | nil => simp [climb, Outward]
  | cons s rest ih =>
    rw [climb]
    split
    · rename_i h
      show ((c.relate s).cursor.climb rest).found = true ↔ _
      rw [ih]
      constructor
      · intro ho
        exact ⟨_, relate_here h, ho⟩
      · intro hfirst
        obtain ⟨m, hm, ho⟩ := hfirst
        exact nearest_unique hm (relate_here h) ▸ ho
    · rename_i h
      refine ⟨fun hf => absurd hf h, ?_⟩
      intro hex
      obtain ⟨m, hm, -⟩ := hex
      exact absurd (relate_found_iff.mpr ⟨m, hm.1⟩) h

end Cursor

/-- Without a subject nothing is placed. -/
theorem not_placed {chain : Chain} (h : chain.selectors.reverse = []) : ¬ ∃ xs, Placement R chain n xs := by
  intro hplaced
  obtain ⟨xs, hs, -, s, hlast, -⟩ := hplaced
  rw [List.reverse_eq_nil_iff.mp h, List.map_eq_nil_iff] at hs
  cases hs
  cases hlast

theorem not_found {chain : Chain} {c : Cursor d} (h : chain.selectors.reverse = []) :
    ¬ (chain.walk c).found = true := by
  unfold Chain.walk
  rw [h]
  simp

theorem walk_found_iff {chain : Chain} {c : Cursor d} (h : chain.selectors.reverse = s :: rest) :
    (chain.walk c).found = true ↔ s.matches (d.node c.here) = true ∧ Outward Nearest rest c.here := by
  unfold Chain.walk
  rw [h]
  dsimp only
  split
  · rename_i hs
    rw [Cursor.climb_found_iff]
    exact ⟨fun ho => ⟨hs, ho⟩, And.right⟩
  · rename_i hs
    exact ⟨fun hf => (by cases hf), fun ho => absurd ho.1 hs⟩

/-- A chain is found from a node exactly when it has a placement there of which every node is the
    nearest that fits. -/
theorem found_iff_nearest (chain : Chain) (c : Cursor d) :
    (chain.walk c).found = true ↔ ∃ xs, Placement Nearest chain c.here xs := by
  cases h : chain.selectors.reverse with
  | nil => exact iff_of_false (not_found h) (not_placed h)
  | cons s rest => rw [walk_found_iff h, exists_placement_iff h]

/-! ## A chain with a placement that is not found -/

/-- Four nodes, each the parent of the next: `a`, `b`, `b`, `c`. -/
def nested : Document where
  nodes := #[{ tag := "a" }, { tag := "b", parent := some 0 }, { tag := "b", parent := some 1 },
    { tag := "c", parent := some 2 }]
  parents_first := by decide

/-- `a > b c` -/
def childThenDescendant : Chain :=
  ⟨[{ tag := "a", combinator := .child }, { tag := "b", combinator := .descendant }, { tag := "c" }]⟩

theorem a_placed_chain_is_missed :
    (childThenDescendant.walk (Cursor.atHome (d := nested) (3 : Fin 4))).found = false ∧
      ∃ xs, Placement Fits childThenDescendant (d := nested) (3 : Fin 4) xs := by
  refine ⟨by decide +kernel, ?_⟩
  have hparent : ∀ i j : Fin 4, (nested.node i).parent = some j.val → Document.Parent (d := nested) j i := by
    intro i j h
    exact h
  have ha : Fits (d := nested) { tag := "a", combinator := .child } (0 : Fin 4) (1 : Fin 4) :=
    ⟨by decide, hparent 1 0 (by decide)⟩
  have hb : Fits (d := nested) { tag := "b", combinator := .descendant } (1 : Fin 4) (3 : Fin 4) :=
    ⟨by decide, .tail (.single (hparent 2 1 (by decide))) (hparent 3 2 (by decide))⟩
  exact ⟨[(_, (0 : Fin 4)), (_, (1 : Fin 4)), ({ tag := "c" }, (3 : Fin 4))], rfl,
    .cons_cons ha (.cons_cons hb (.singleton _)), _, rfl, by decide⟩

end Cascade
