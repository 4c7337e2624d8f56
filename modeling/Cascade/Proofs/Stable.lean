/-
  Cascade.Proofs.Stable — what a stable sort leaves of the order of a list. Elements of
  which each may stand before the other stay as they stood (`filter_mergeSort`), and that
  with the order decides the sorted list (`eq_of_sorted`). So it makes no difference
  whether elements are picked out before or after the sort (`mergeSort_filter`). Where
  no two elements are level, nothing is left of the order before (`mergeSort_of_perm`).
-/

import Mathlib.Data.List.Basic

namespace Cascade

variable {α : Type} {le : α → α → Bool} {l xs ys : List α}

/-- Each may stand before the other. -/
def level (le : α → α → Bool) (a b : α) : Bool := le a b && le b a

/-- Sorting does not move elements that are level past each other. -/
theorem filter_mergeSort (trans : ∀ a b c, le a b → le b c → le a c) (total : ∀ a b, le a b || le b a)
    {pick : α → Bool} (h : ∀ x ∈ l, ∀ y ∈ l, pick x → pick y → le x y) :
    (l.mergeSort le).filter pick = l.filter pick := by
  have hsub : (l.filter pick).Sublist (l.mergeSort le) := by
    refine List.sublist_mergeSort trans total ?_ List.filter_sublist
    refine List.pairwise_of_forall_mem_list fun x hx y hy => ?_
    obtain ⟨hxl, hpx⟩ := List.mem_filter.mp hx
    obtain ⟨hyl, hpy⟩ := List.mem_filter.mp hy
    exact h x hxl y hyl hpx hpy
  have hpicked := hsub.filter pick
  simp only [List.filter_filter, Bool.and_self] at hpicked
  have hlength := ((List.mergeSort_perm l le).filter pick).length_eq
  exact (hpicked.eq_of_length hlength.symm).symm

theorem le_first (refl : ∀ a, le a a) {x : α} (h : (x :: xs).Pairwise (le · ·)) : ∀ y ∈ x :: xs, le x y := by
  intro y hy
  rcases List.mem_cons.mp hy with rfl | hy
  · exact refl y
  · exact (List.pairwise_cons.mp h).1 y hy

/-- Sorted lists that have the same elements level with each element, in the same order, are the same. -/
theorem eq_of_sorted (refl : ∀ a, le a a) (hx : xs.Pairwise (le · ·)) (hy : ys.Pairwise (le · ·))
    (h : ∀ a, xs.filter (level le a) = ys.filter (level le a)) : xs = ys := by
  have hmem : ∀ a, a ∈ xs ↔ a ∈ ys := by
    intro a
    simpa [level, refl] using congrArg (a ∈ ·) (h a)
  induction xs generalizing ys with
  | nil =>
    cases ys with
    | nil => rfl
    | cons y ys => exact absurd ((hmem y).mpr List.mem_cons_self) List.not_mem_nil
  | cons x xs ih =>
    cases ys with
    | nil => exact absurd ((hmem x).mp List.mem_cons_self) List.not_mem_nil
    | cons y ys =>
      -- each of the first two may stand before the other, so both are the first that is level with `x`
      have hxy := le_first refl hx y ((hmem y).mpr List.mem_cons_self)
      have hyx := le_first refl hy x ((hmem x).mp List.mem_cons_self)
      have hfirst := h x
      rw [List.filter_cons_of_pos (by simp [level, refl]), List.filter_cons_of_pos (by simp [level, hxy, hyx])] at hfirst
      obtain rfl : x = y := (List.cons.inj hfirst).1
      have hrest : ∀ a, xs.filter (level le a) = ys.filter (level le a) := by
        intro a
        have ha := h a
        by_cases hax : level le a x
        · rw [List.filter_cons_of_pos hax, List.filter_cons_of_pos hax] at ha
          exact (List.cons.inj ha).2
        · rwa [List.filter_cons_of_neg hax, List.filter_cons_of_neg hax] at ha
      have hmem' : ∀ a, a ∈ xs ↔ a ∈ ys := by
        intro a
        simpa [level, refl] using congrArg (a ∈ ·) (hrest a)
      rw [ih (List.pairwise_cons.mp hx).2 (List.pairwise_cons.mp hy).2 hrest hmem']

theorem mergeSort_filter (trans : ∀ a b c, le a b → le b c → le a c) (total : ∀ a b, le a b || le b a)
    (pick : α → Bool) : (l.filter pick).mergeSort le = (l.mergeSort le).filter pick := by
  have refl : ∀ a, le a a := by
    intro a
    simpa using total a a
  have hlevel : ∀ a x y, level le a x → level le a y → le x y := by
    intro a x y hx hy
    simp only [level, Bool.and_eq_true] at hx hy
    exact trans x a y hx.2 hy.1
  apply eq_of_sorted refl (List.pairwise_mergeSort trans total _) ((List.pairwise_mergeSort trans total l).filter pick)
  intro a
  calc ((l.filter pick).mergeSort le).filter (level le a)
      = (l.filter pick).filter (level le a) := filter_mergeSort trans total fun x _ y _ => hlevel a x y
    _ = (l.filter (level le a)).filter pick := List.filter_comm ..
    _ = ((l.mergeSort le).filter (level le a)).filter pick := by
      rw [filter_mergeSort trans total fun x _ y _ => hlevel a x y]
    _ = ((l.mergeSort le).filter pick).filter (level le a) := List.filter_comm ..

theorem mergeSort_of_perm (trans : ∀ a b c, le a b → le b c → le a c) (total : ∀ a b, le a b || le b a)
    (h : ∀ a ∈ xs, ∀ b ∈ xs, le a b → le b a → a = b) (hp : xs.Perm ys) : xs.mergeSort le = ys.mergeSort le := by
  refine List.Perm.eq_of_pairwise ?_ (List.pairwise_mergeSort trans total xs) (List.pairwise_mergeSort trans total ys)
    (((List.mergeSort_perm xs le).trans hp).trans (List.mergeSort_perm ys le).symm)
  intro a b ha hb
  exact h a (List.mem_mergeSort.mp ha) b (hp.mem_iff.mpr (List.mem_mergeSort.mp hb))

end Cascade
