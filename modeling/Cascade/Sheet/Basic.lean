/-
  Cascade.Sheet.Basic — a sheet is a list of styles, the highest rank first and equal
  ranks in the order in which they were added. Every way to change a sheet sorts it
  again, and the sort is stable, so the list is the one that a single stable sort of
  all the styles added would give.
-/

import Cascade.Style

namespace Cascade

structure Sheet (V : Type) where
  styles : List (Style V) := []
  deriving DecidableEq, Repr

namespace Sheet

variable {V : Type}

/-- `a` may stand before `b`. -/
def before (a b : Style V) : Bool := b.specificity ≤ a.specificity

def empty : Sheet V := {}

def size (s : Sheet V) : Nat := s.styles.length

def isEmpty (s : Sheet V) : Bool := s.styles.isEmpty

def ofStyles (styles : List (Style V)) : Sheet V := ⟨styles.mergeSort before⟩

def sort (s : Sheet V) : Sheet V := ofStyles s.styles

def insert (s : Sheet V) (style : Style V) : Sheet V := ofStyles (s.styles ++ [style])

/-- The styles of `t` are added to `s`, which leaves `t` empty. -/
def append (s t : Sheet V) : Sheet V × Sheet V := (ofStyles (s.styles ++ t.styles), empty)

/-! ## The order -/

theorem before_trans (a b c : Style V) (hab : before a b) (hbc : before b c) : before a c := by
  simp only [before, decide_eq_true_eq] at *
  exact UInt32.le_trans hbc hab

theorem before_total (a b : Style V) : before a b || before b a := by
  simp only [before, Bool.or_eq_true, decide_eq_true_eq]
  exact (UInt32.le_total a.specificity.word b.specificity.word).symm

theorem sorted_ofStyles (styles : List (Style V)) :
    (ofStyles styles).styles.Pairwise fun a b => b.specificity ≤ a.specificity :=
  (List.pairwise_mergeSort before_trans before_total styles).imp fun h => by simpa [before] using h

theorem perm_ofStyles (styles : List (Style V)) : (ofStyles styles).styles.Perm styles :=
  List.mergeSort_perm styles before

/-- A sheet that is sorted stays as it is. -/
theorem sort_eq {s : Sheet V} (h : s.styles.Pairwise fun a b => b.specificity ≤ a.specificity) : s.sort = s := by
  have := List.mergeSort_of_pairwise (h.imp fun {a b} (h' : b.specificity ≤ a.specificity) =>
    show before a b = true by simpa [before] using h')
  simp [sort, ofStyles, this]

end Sheet

end Cascade
