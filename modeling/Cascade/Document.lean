/-
  Cascade.Document — the tree that selectors are matched against. Nodes stand in one
  array, a parent before its children and siblings in order; a node is named by its
  place. The nodes without a parent are siblings of each other.

  A cursor knows the node it was made for (`home`) and where it is (`here`). It goes
  up to the parent and left to the sibling just before, so every move leads to an
  earlier place (`toward_lt`) and every walk ends.
-/

namespace Cascade

structure Node where
  tag : String := ""
  id : Option String := none
  classes : List String := []
  /-- The place of the parent. -/
  parent : Option Nat := none
  deriving DecidableEq, Repr, Inhabited

structure Document where
  nodes : Array Node
  parents_first : ∀ i : Fin nodes.size, nodes[i].parent.all (· < i.val)

inductive Direction where
  /-- To the parent. -/
  | up
  /-- To the sibling just before. -/
  | left
  deriving DecidableEq, Repr

namespace Document

/-- The document of these nodes, if every parent comes before its children. -/
def ofNodes? (nodes : Array Node) : Option Document :=
  if h : ∀ i : Fin nodes.size, nodes[i].parent.all (· < i.val) then some ⟨nodes, h⟩ else none

abbrev Place (d : Document) := Fin d.nodes.size

def node (d : Document) (i : d.Place) : Node := d.nodes[i]

theorem parent_lt (d : Document) {i : d.Place} {p : Nat} (h : (d.node i).parent = some p) : p < i.val := by
  have ha := d.parents_first i
  have h' : d.nodes[i].parent = some p := h
  rw [h'] at ha
  simpa using ha

def up (d : Document) (i : d.Place) : Option d.Place :=
  match h : (d.node i).parent with
  | some p => some ⟨p, Nat.lt_trans (d.parent_lt h) i.isLt⟩
  | none => none

/-- The last place before `n` whose parent is `parent`. -/
def lastBefore (d : Document) (parent : Option Nat) : (n : Nat) → n ≤ d.nodes.size → Option d.Place
  | 0, _ => none
  | n + 1, h => if (d.node ⟨n, h⟩).parent = parent then some ⟨n, h⟩ else lastBefore d parent n (Nat.le_of_lt h)

def left (d : Document) (i : d.Place) : Option d.Place := d.lastBefore (d.node i).parent i (Nat.le_of_lt i.isLt)

def toward (d : Document) : Direction → d.Place → Option d.Place
  | .up => d.up
  | .left => d.left

theorem up_eq_some_iff {d : Document} {i j : d.Place} : d.up i = some j ↔ (d.node i).parent = some j.val := by
  unfold up
  split
  · rename_i p h
    simp [h, Fin.ext_iff]
  · rename_i h
    simp [h]

theorem up_lt {d : Document} {i j : d.Place} (h : d.up i = some j) : j < i :=
  d.parent_lt (up_eq_some_iff.mp h)

theorem lastBefore_eq_some_iff {d : Document} {parent : Option Nat} {n : Nat} {h : n ≤ d.nodes.size} {j : d.Place} :
    d.lastBefore parent n h = some j ↔
      j.val < n ∧ (d.node j).parent = parent ∧
        ∀ k : d.Place, j < k → k.val < n → (d.node k).parent ≠ parent := by
  induction n with
  | zero => simp [lastBefore]
  | succ n ih =>
    unfold lastBefore
    split
    · rename_i hp
      simp only [Option.some.injEq]
      constructor
      · rintro rfl
        exact ⟨Nat.lt_succ_self n, hp, fun k h1 h2 => absurd (show n < k.val from h1) (by omega)⟩
      · rintro ⟨hj, -, hk⟩
        apply Fin.ext
        show n = j.val
        by_cases e : j.val < n
        · exact absurd hp (hk ⟨n, h⟩ e (Nat.lt_succ_self n))
        · omega
    · rename_i hp
      rw [ih]
      constructor
      · rintro ⟨h1, h2, h3⟩
        refine ⟨by omega, h2, fun k hk hk' => ?_⟩
        by_cases e : k.val = n
        · have : k = ⟨n, h⟩ := Fin.ext e
          exact this ▸ hp
        · exact h3 k hk (by omega)
      · rintro ⟨h1, h2, h3⟩
        refine ⟨?_, h2, fun k hk hk' => h3 k hk (by omega)⟩
        by_cases e : j.val = n
        · have : j = ⟨n, h⟩ := Fin.ext e
          exact absurd (this ▸ h2) hp
        · omega

/-- The left neighbour is the nearest earlier node with the same parent. -/
theorem left_eq_some_iff {d : Document} {i j : d.Place} :
    d.left i = some j ↔ j < i ∧ (d.node j).parent = (d.node i).parent ∧
      ∀ k : d.Place, j < k → k < i → (d.node k).parent ≠ (d.node i).parent :=
  lastBefore_eq_some_iff

theorem left_lt {d : Document} {i j : d.Place} (h : d.left i = some j) : j < i := (left_eq_some_iff.mp h).1

theorem toward_lt {d : Document} {dir : Direction} {i j : d.Place} (h : d.toward dir i = some j) : j < i := by
  cases dir with
  | up => exact up_lt h
  | left => exact left_lt h

end Document

/-- One call on a cursor: a move made, a move refused for lack of a node, or the way back home. -/
inductive Move where
  | made (dir : Direction)
  | refused (dir : Direction)
  | reset
  deriving DecidableEq, Repr

structure Cursor (d : Document) where
  home : d.Place
  here : d.Place
  deriving DecidableEq

namespace Cursor

variable {d : Document}

/-- A new cursor for a node stands on it. -/
def atHome (i : d.Place) : Cursor d := ⟨i, i⟩

def node (c : Cursor d) : Node := d.node c.here

def goTo (c : Cursor d) (i : d.Place) : Cursor d := { c with here := i }

def reset (c : Cursor d) : Cursor d := { c with here := c.home }

end Cursor

end Cascade
