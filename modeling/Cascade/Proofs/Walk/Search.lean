/-
  Cascade.Proofs.Walk.Search — how far a walk that never turns back gets. Beside it stands a
  search that does (`Chain.search`): for each selector it tries every node that is related to
  the node of the next one, and goes back to the next such node where the rest cannot be
  found. It finds a chain exactly when the chain has a placement (`search_iff`).

  - What a walk finds has a placement, whatever the chain.
  - A walk finds all that the search finds if the chain is `Straight`: read from the subject
    outwards, only descendant steps come after a descendant step, and neither a next nor a
    none step right after a subsequent one (`walk_eq_search`).

  The reason is an exchange. Of the nodes that fit, the nearest will do for the rest whenever
  any other will: what is above a node further up is above the nearest one too
  (`outward_of_ancestor`), and siblings have the same parents and ancestors, and whatever
  comes before the one comes before the later one (`outward_of_precedes`). The other three
  combinators leave no choice.
-/

import Cascade.Proofs.Walk.Placement

namespace Cascade

/-! ## A search that turns back -/

namespace Document

variable {d : Document} {dir : Direction} {i j : d.Place}

/-- The nodes that moves in one direction lead to, the nearest first. -/
def line (d : Document) (dir : Direction) (j : d.Place) : List d.Place :=
  match _h : d.toward dir j with
  | some i => i :: d.line dir i
  | none => []
termination_by j.val
decreasing_by exact toward_lt _h

/-- All nodes that stand to `j` as the combinator asks, the nearest first. -/
def related (d : Document) (c : Combinator) (j : d.Place) : List d.Place :=
  match c with
  | .none => [j]
  | .descendant => d.line .up j
  | .child => (d.toward .up j).toList
  | .next => (d.toward .left j).toList
  | .subsequent => d.line .left j

theorem mem_line_iff : i ∈ d.line dir j ↔ Along dir i j := by
  fun_induction line d dir j with
  | case1 j k h ih => rw [List.mem_cons, ih, along_iff h]
  | case2 j h => exact iff_of_false (by simp) (not_along h)

theorem mem_related_iff {c : Combinator} : i ∈ d.related c j ↔ Related c i j := by
  cases c with
  | none => simp [related, Related]
  | descendant => rw [related, mem_line_iff, along_up_iff, Related]
  | child => rw [related, Option.mem_toList, Related, ← toward_up_iff, Toward]
  | next => rw [related, Option.mem_toList, Related, ← toward_left_iff, Toward]
  | subsequent => rw [related, mem_line_iff, along_left_iff, Related]

/-- Nodes for the selectors, the first of them seen from `n`: every way is tried. -/
def search (d : Document) : List Selector → d.Place → Bool
  | [], _ => true
  | s :: rest, n => (d.related s.combinator n).any fun m => s.matches (d.node m) && d.search rest m

end Document

/-- Match the chain at a node, and turn back wherever the rest cannot be found. -/
def Chain.search {d : Document} (chain : Chain) (n : d.Place) : Bool :=
  match chain.selectors.reverse with
  | [] => false
  | subject :: rest => subject.matches (d.node n) && d.search rest n

variable {d : Document} {chain : Chain} {m m' n : d.Place} {s : Selector} {rest : List Selector}

theorem search_outward_iff : d.search rest n = true ↔ Outward Fits rest n := by
  induction rest generalizing n with
  | nil => simp [Document.search, Outward]
  | cons s rest ih =>
    simp only [Document.search, List.any_eq_true, Bool.and_eq_true, Document.mem_related_iff, ih, Outward, Fits]
    constructor
    · intro hex
      obtain ⟨m, hm, hs, ho⟩ := hex
      exact ⟨m, ⟨hs, hm⟩, ho⟩
    · intro hex
      obtain ⟨m, ⟨hs, hm⟩, ho⟩ := hex
      exact ⟨m, hm, hs, ho⟩

/-- The search finds a chain exactly when it has a placement. -/
theorem search_iff : chain.search n = true ↔ ∃ xs, Placement Fits chain n xs := by
  unfold Chain.search
  cases h : chain.selectors.reverse with
  | nil => exact iff_of_false (by simp) (not_placed h)
  | cons s rest => rw [exists_placement_iff h, ← search_outward_iff, Bool.and_eq_true]

/-! ## Steps -/

/-- The combinators from the subject outwards, where a walk comes by them. -/
def Chain.steps (chain : Chain) : List Combinator := (chain.selectors.reverse.drop 1).map (·.combinator)

/-- The steps may be taken without turning back. -/
structure StraightSteps (ks : List Combinator) : Prop where
  /-- After a descendant step come only descendant steps. -/
  descendant : ks.Pairwise fun a b => a = .descendant → b = .descendant
  /-- Right after a subsequent step comes no next step and no none step. -/
  subsequent : ks.IsChain fun a b => a = .subsequent → b ≠ .next ∧ b ≠ .none

def Chain.Straight (chain : Chain) : Prop := StraightSteps chain.steps

instance (ks : List Combinator) : Decidable (StraightSteps ks) :=
  decidable_of_iff (_ ∧ _) ⟨fun h => ⟨h.1, h.2⟩, fun h => ⟨h.descendant, h.subsequent⟩⟩

instance (chain : Chain) : Decidable chain.Straight := inferInstanceAs (Decidable (StraightSteps _))

/-! ## Any node and the nearest -/

theorem exists_nearest (h : Fits s m n) : ∃ k, Nearest s k n :=
  ⟨_, Cursor.relate_here (c := .atHome n) (Cursor.relate_found_iff.mpr ⟨m, h⟩)⟩

theorem outward_mono {R Q : Selector → d.Place → d.Place → Prop} (hR : ∀ s m n, R s m n → Q s m n)
    (h : Outward R rest n) : Outward Q rest n := by
  induction rest generalizing n with
  | nil => trivial
  | cons s rest ih =>
    obtain ⟨m, hm, ho⟩ := h
    exact ⟨m, hR s m n hm, ih ho⟩

namespace Document

/-- A node has one parent. -/
theorem parent_unique {i j k : d.Place} (hi : Parent i k) (hj : Parent j k) : i = j :=
  Fin.ext (Option.some.inj (hi.symm.trans hj))

/-- Of two ancestors of a node the earlier one is above the later one. -/
theorem ancestor_of_lt {i j k : d.Place} (hi : Ancestor i k) (hj : Ancestor j k) (hlt : i < j) : Ancestor i j := by
  have hunique : Relator.RightUnique (Function.swap (Parent (d := d))) := fun _ _ _ h h' => parent_unique h h'
  have hki : Relation.ReflTransGen (Function.swap Parent) k i := (Relation.transGen_swap.mpr hi).to_reflTransGen
  have hkj : Relation.ReflTransGen (Function.swap Parent) k j := (Relation.transGen_swap.mpr hj).to_reflTransGen
  rcases Relation.ReflTransGen.total_of_right_unique hunique hki hkj with h | h
  · rcases Relation.reflTransGen_iff_eq_or_transGen.mp (Relation.reflTransGen_swap.mp h) with rfl | h
    · exact absurd hlt (Fin.lt_irrefl _)
    · exact absurd (along_lt (along_up_iff.mpr h)) (Fin.not_lt.mpr (Fin.le_of_lt hlt))
  · rcases Relation.reflTransGen_iff_eq_or_transGen.mp (Relation.reflTransGen_swap.mp h) with rfl | h
    · exact absurd hlt (Fin.lt_irrefl _)
    · exact h

/-- Siblings have the same ancestors. -/
theorem ancestor_of_precedes {i j k : d.Place} (h : Precedes i j) (hk : Ancestor k i) : Ancestor k j := by
  obtain ⟨p, hkp, hp⟩ := Relation.TransGen.tail'_iff.mp hk
  have hpj : Parent p j := h.2.symm.trans hp
  exact Relation.TransGen.tail'_iff.mpr ⟨p, hkp, hpj⟩

/-- What a sibling further left is related to, the later one is, but for the steps that look at itself. -/
theorem related_of_precedes {c : Combinator} {i j k : d.Place} (h : Precedes i j) (hc : c ≠ .next ∧ c ≠ .none)
    (hk : Related c k i) : Related c k j := by
  cases c with
  | none => exact absurd rfl hc.2
  | next => exact absurd rfl hc.1
  | descendant => exact ancestor_of_precedes h hk
  | child => exact h.2.symm.trans hk
  | subsequent => exact precedes_trans hk h

/-- The other steps leave no choice. -/
theorem related_unique {c : Combinator} {i j k : d.Place} (hc : c ≠ .descendant ∧ c ≠ .subsequent)
    (hi : Related c i k) (hj : Related c j k) : i = j := by
  cases c with
  | none => exact hi.trans hj.symm
  | descendant => exact absurd rfl hc.1
  | child => exact parent_unique hi hj
  | next => exact Fin.le_antisymm (hj.2 i hi.1) (hi.2 j hj.1)
  | subsequent => exact absurd rfl hc.2

end Document

theorem outward_of_ancestor (h : Document.Ancestor m' m) (hall : ∀ t ∈ rest, t.combinator = .descendant)
    (ho : Outward Fits rest m') : Outward Fits rest m := by
  cases rest with
  | nil => trivial
  | cons t rest =>
    obtain ⟨k, ⟨hs, hk⟩, ho⟩ := ho
    have ht : t.combinator = .descendant := hall t List.mem_cons_self
    rw [ht] at hk
    have hkm : Document.Ancestor k m := Relation.TransGen.trans hk h
    exact ⟨k, ⟨hs, by rw [ht]; exact hkm⟩, ho⟩

theorem outward_of_precedes (h : Document.Precedes m' m)
    (hfirst : ∀ t ∈ rest.head?, t.combinator ≠ .next ∧ t.combinator ≠ .none) (ho : Outward Fits rest m') :
    Outward Fits rest m := by
  cases rest with
  | nil => trivial
  | cons t rest =>
    obtain ⟨k, ⟨hs, hk⟩, ho⟩ := ho
    exact ⟨k, ⟨hs, Document.related_of_precedes h (hfirst t rfl) hk⟩, ho⟩

/-- If any node that fits will do for the rest, the nearest one will. -/
theorem outward_of_nearest (h : StraightSteps ((s :: rest).map (·.combinator))) (hm : Nearest s m n)
    (hm' : Fits s m' n) (ho : Outward Fits rest m') : Outward Fits rest m := by
  obtain ⟨hdescendant, hsubsequent⟩ := h
  have hle : m' ≤ m := hm.2 m' hm'
  obtain ⟨⟨-, hrelated⟩, -⟩ := hm
  obtain ⟨-, hrelated'⟩ := hm'
  rcases Fin.lt_or_eq_of_le hle with hlt | rfl
  case inr => exact ho
  cases hc : s.combinator with
  | none | child | next =>
    rw [hc] at hrelated hrelated'
    exact absurd (Document.related_unique (by simp) hrelated' hrelated) (Fin.ne_of_lt hlt)
  | descendant =>
    rw [hc] at hrelated hrelated'
    refine outward_of_ancestor (Document.ancestor_of_lt hrelated' hrelated hlt) (fun t ht => ?_) ho
    rw [List.map_cons, List.pairwise_cons] at hdescendant
    exact hdescendant.1 t.combinator (List.mem_map_of_mem ht) hc
  | subsequent =>
    rw [hc] at hrelated hrelated'
    refine outward_of_precedes ⟨hlt, hrelated'.2.trans hrelated.2.symm⟩ (fun t ht => ?_) ho
    rw [List.map_cons, List.isChain_cons] at hsubsequent
    exact hsubsequent.1 t.combinator (by rw [List.head?_map, ht]; rfl) hc

theorem StraightSteps.tail {k : Combinator} {ks : List Combinator} (h : StraightSteps (k :: ks)) : StraightSteps ks :=
  ⟨(List.pairwise_cons.mp h.descendant).2, (List.isChain_cons.mp h.subsequent).2⟩

/-- On straight steps the nearest nodes are found if any are. -/
theorem outward_nearest_iff (h : StraightSteps (rest.map (·.combinator))) :
    Outward Nearest rest n ↔ Outward Fits rest n := by
  refine ⟨outward_mono fun _ _ _ => And.left, ?_⟩
  induction rest generalizing n with
  | nil => exact id
  | cons s rest ih =>
    intro hfits
    obtain ⟨m', hm', ho⟩ := hfits
    obtain ⟨m, hm⟩ := exists_nearest hm'
    exact ⟨m, hm, ih h.tail (outward_of_nearest h hm hm' ho)⟩

/-! ## The walk and the search -/

theorem placed_of_found {c : Cursor d} (h : (chain.walk c).found = true) : ∃ xs, Placement Fits chain c.here xs := by
  cases hc : chain.selectors.reverse with
  | nil => exact absurd h (not_found hc)
  | cons s rest =>
    obtain ⟨hs, ho⟩ := (walk_found_iff hc).mp h
    exact (exists_placement_iff hc).mpr ⟨hs, outward_mono (fun _ _ _ => And.left) ho⟩

theorem found_of_placed {c : Cursor d} (hstraight : chain.Straight) (h : ∃ xs, Placement Fits chain c.here xs) :
    (chain.walk c).found = true := by
  cases hc : chain.selectors.reverse with
  | nil => exact absurd h (not_placed hc)
  | cons s rest =>
    obtain ⟨hs, ho⟩ := (exists_placement_iff hc).mp h
    have hsteps : StraightSteps (rest.map (·.combinator)) := by
      have htail : chain.steps = rest.map (·.combinator) := by simp [Chain.steps, hc]
      exact htail ▸ hstraight
    exact (walk_found_iff hc).mpr ⟨hs, (outward_nearest_iff hsteps).mpr ho⟩

/-- What a walk finds can be placed, and of a straight chain it finds what the search finds. -/
theorem walk_eq_search (chain : Chain) (c : Cursor d) :
    ((chain.walk c).found = true → ∃ xs, Placement Fits chain c.here xs) ∧
      (chain.search c.here = true ↔ ∃ xs, Placement Fits chain c.here xs) ∧
      (chain.Straight → (chain.walk c).found = chain.search c.here) := by
  refine ⟨placed_of_found, search_iff, fun hstraight => ?_⟩
  rw [Bool.eq_iff_iff, search_iff]
  exact ⟨placed_of_found, found_of_placed hstraight⟩

/-- `r` holds `a`, which holds `a`, which holds three `b`; the last of these holds `a` and `c`. -/
def branched : Document where
  nodes := #[{ tag := "r" }, { tag := "a", parent := some 0 }, { tag := "a", parent := some 1 },
    { tag := "b", parent := some 2 }, { tag := "b", parent := some 2 }, { tag := "b", parent := some 2 },
    { tag := "a", parent := some 5 }, { tag := "c", parent := some 5 }]
  parents_first := by decide

/-- `r a > b ~ b > a + c` -/
def straightChain : Chain :=
  ⟨[{ tag := "r", combinator := .descendant }, { tag := "a", combinator := .child },
    { tag := "b", combinator := .subsequent }, { tag := "b", combinator := .child },
    { tag := "a", combinator := .next }, { tag := "c" }]⟩

theorem walk_eq_search_branched :
    straightChain.Straight ∧
      (straightChain.walk (Cursor.atHome (d := branched) (7 : Fin 8))).found =
        straightChain.search (d := branched) (7 : Fin 8) ∧
      straightChain.search (d := branched) (7 : Fin 8) = true := by
  have hstraight : straightChain.Straight := by decide
  exact ⟨hstraight, (walk_eq_search straightChain (Cursor.atHome (d := branched) (7 : Fin 8))).2.2 hstraight,
    by decide +kernel⟩

/-- `a`, `b`, `b` and `c`, none of them in another node. -/
def siblings : Document where
  nodes := #[{ tag := "a" }, { tag := "b" }, { tag := "b" }, { tag := "c" }]
  parents_first := by decide

-- `a + b ~ c` is not straight: the walk takes the later `b`, and no `a` stands right before that one
example :
    let chain : Chain := ⟨[{ tag := "a", combinator := .next }, { tag := "b", combinator := .subsequent }, { tag := "c" }]⟩
    (chain.walk (Cursor.atHome (d := siblings) (3 : Fin 4))).found = false ∧
      chain.search (d := siblings) (3 : Fin 4) = true := by
  decide +kernel

end Cascade
