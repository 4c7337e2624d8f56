/-
  Cascade.Proofs.Sheet.Order — the order of the styles of a sheet. `Ranked styles sorted`
  says what a stable sort by rank does: the styles are the same, a higher rank stands
  before a lower one, and the styles of one rank stand as they stood before.

  `ofStyles` ranks (`ranked_ofStyles`), and no other list does (`ranked_iff`), so that what it
  comes to can be checked rank by rank (`ofStyles_eq_of_ranks`). It also keeps the order of
  any styles that are picked out and have one rank, such as those of one chain
  (`filter_ofStyles`).

  So sorting parts of a list first makes no difference to the sorted whole
  (`ofStyles_append`), and styles that are added one by one stand where they would if all
  were sorted at once (`foldl_insert`).
-/

import Cascade.Sheet.Basic
import Cascade.Proofs.Stable
import Mathlib.Data.List.Induction

namespace Cascade.Sheet

variable {V : Type} {styles : List (Style V)}

/-- `sorted` are the styles by rank, the highest first, and those of one rank as they stood. -/
structure Ranked (styles sorted : List (Style V)) : Prop where
  perm : sorted.Perm styles
  falling : sorted.Pairwise fun a b => b.specificity ≤ a.specificity
  stable : ∀ rank, sorted.filter (·.specificity = rank) = styles.filter (·.specificity = rank)

theorem rank_antisymm {a b : Specificity} (hab : a ≤ b) (hba : b ≤ a) : a = b := by
  cases a; cases b
  exact congrArg Specificity.mk (UInt32.le_antisymm hab hba)

theorem before_of_eq {a b : Style V} (h : a.specificity = b.specificity) : before a b = true := by
  simp only [before, decide_eq_true_eq, h]
  exact UInt32.le_refl _

/-- Sorting does not move styles of one rank past each other. -/
theorem filter_ofStyles (pick : Style V → Bool)
    (h : ∀ x ∈ styles, ∀ y ∈ styles, pick x → pick y → x.specificity = y.specificity) :
    (ofStyles styles).styles.filter pick = styles.filter pick :=
  filter_mergeSort before_trans before_total fun x hx y hy hpx hpy => before_of_eq (h x hx y hy hpx hpy)

theorem ranked_ofStyles (styles : List (Style V)) : Ranked styles (ofStyles styles).styles where
  perm := perm_ofStyles styles
  falling := sorted_ofStyles styles
  stable := by
    intro rank
    apply filter_ofStyles
    intro x _ y _ hx hy
    rw [of_decide_eq_true hx, of_decide_eq_true hy]

/-! ## The only order by rank -/

theorem level_before (a : Style V) : level before a = fun b => decide (b.specificity = a.specificity) := by
  funext b
  rw [Bool.eq_iff_iff, decide_eq_true_eq, level, Bool.and_eq_true]
  constructor
  · intro h
    simp only [before, decide_eq_true_eq] at h
    exact rank_antisymm h.1 h.2
  · intro h
    exact ⟨before_of_eq h.symm, before_of_eq h⟩

/-- Lists by rank that have the same styles of each rank, in the same order, are the same. -/
theorem eq_of_falling {xs ys : List (Style V)} (hx : xs.Pairwise fun a b => b.specificity ≤ a.specificity)
    (hy : ys.Pairwise fun a b => b.specificity ≤ a.specificity)
    (h : ∀ rank, xs.filter (·.specificity = rank) = ys.filter (·.specificity = rank)) : xs = ys := by
  have hbefore {a b : Style V} (h : b.specificity ≤ a.specificity) : before a b = true := by simpa [before] using h
  have hlevel (a : Style V) : xs.filter (level before a) = ys.filter (level before a) := by
    rw [level_before]
    exact h a.specificity
  exact eq_of_sorted (fun a => before_of_eq rfl) (hx.imp hbefore) (hy.imp hbefore) hlevel

/-- A sheet's list is the only one that ranks its styles. -/
theorem ranked_iff {sorted : List (Style V)} : Ranked styles sorted ↔ sorted = (ofStyles styles).styles := by
  constructor
  · intro h
    apply eq_of_falling h.falling (sorted_ofStyles styles)
    intro rank
    rw [h.stable, (ranked_ofStyles styles).stable]
  · rintro rfl
    exact ranked_ofStyles styles

theorem ofStyles_eq_of_ranked {xs ys : List (Style V)} (h : Ranked xs (ofStyles ys).styles) :
    ofStyles ys = ofStyles xs :=
  congrArg Sheet.mk (ranked_iff.mp h)

/-- Whether a list is that of a sheet can be told from the ranks that are there. -/
theorem ofStyles_eq_of_ranks {sorted : List (Style V)} (hperm : sorted.Perm styles)
    (hfalling : sorted.Pairwise fun a b => b.specificity ≤ a.specificity)
    (hstable : ∀ x ∈ styles, sorted.filter (·.specificity = x.specificity) = styles.filter (·.specificity = x.specificity)) :
    ofStyles styles = ⟨sorted⟩ := by
  refine congrArg Sheet.mk (ranked_iff.mp ⟨hperm, hfalling, fun rank => ?_⟩).symm
  by_cases h : ∃ x ∈ styles, x.specificity = rank
  · obtain ⟨x, hx, rfl⟩ := h
    exact hstable x hx
  · have hnone {xs : List (Style V)} (hp : xs.Perm styles) : xs.filter (·.specificity = rank) = [] := by
      rw [List.filter_eq_nil_iff]
      intro x hx hrank
      exact h ⟨x, hp.mem_iff.mp hx, of_decide_eq_true hrank⟩
    rw [hnone hperm, hnone (List.Perm.refl _)]

/-- Parts may be sorted before the whole is. -/
theorem ofStyles_append (xs ys : List (Style V)) :
    ofStyles ((ofStyles xs).styles ++ (ofStyles ys).styles) = ofStyles (xs ++ ys) := by
  apply ofStyles_eq_of_ranked
  refine ⟨?_, sorted_ofStyles _, ?_⟩
  · exact (perm_ofStyles _).trans ((perm_ofStyles xs).append (perm_ofStyles ys))
  · intro rank
    rw [(ranked_ofStyles _).stable, List.filter_append, List.filter_append, (ranked_ofStyles xs).stable,
      (ranked_ofStyles ys).stable]

/-- A change that keeps the ranks keeps the order. -/
theorem ofStyles_map (φ : Style V → Style V) (h : ∀ x, (φ x).specificity = x.specificity) (xs : List (Style V)) :
    ofStyles (xs.map φ) = ⟨(ofStyles xs).styles.map φ⟩ := by
  have hmap : (xs.mergeSort before).map φ = (xs.map φ).mergeSort before :=
    List.map_mergeSort fun x _ y _ => by simp [before, h]
  rw [ofStyles, ← hmap]
  rfl

theorem ofStyles_singleton (x : Style V) : ofStyles [x] = ⟨[x]⟩ := by
  simp [ofStyles]

theorem ofStyles_ofStyles (xs : List (Style V)) : ofStyles (ofStyles xs).styles = ofStyles xs :=
  sort_eq (sorted_ofStyles xs)

theorem insert_ofStyles (xs : List (Style V)) (x : Style V) : (ofStyles xs).insert x = ofStyles (xs ++ [x]) := by
  rw [← ofStyles_append, ofStyles_singleton]
  rfl

/-- Styles inserted one after the other come to the sheet of all of them. -/
theorem foldl_insert (xs : List (Style V)) : xs.foldl insert empty = ofStyles xs := by
  induction xs using List.reverseRecOn with
  | nil => simp [ofStyles, empty]
  | append_singleton xs x ih => rw [List.foldl_append, ih, List.foldl_cons, List.foldl_nil, insert_ofStyles]

end Cascade.Sheet
