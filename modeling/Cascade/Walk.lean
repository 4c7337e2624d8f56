/-
  Cascade.Walk — which nodes a chain picks out. The subject is matched where the
  cursor is; each selector further out is then looked for from the node found last:

  - `descendant` above it, however far; `child` just above it;
  - `subsequent` to its left, however far; `next` just to its left;
  - `none` on the node itself.

  The first node that matches is taken and never given up. The cursor stays where the
  walk ends, whether or not it found all.
-/

import Cascade.Document
import Cascade.Selector

namespace Cascade

/-- The node is what the selector asks for; its combinator plays no part. -/
def Selector.matches (s : Selector) (n : Node) : Bool :=
  (s.anyTag || s.tag == n.tag) && (s.id.isEmpty || n.id == some s.id) && s.classes.all n.classes.contains

/-- How a walk went: what it was for is found or not, where the cursor is now, and the moves in order. -/
structure Walk (d : Document) where
  found : Bool
  cursor : Cursor d
  moves : List Move := []

namespace Walk

variable {d : Document}

/-- The walk `w` after the moves `ms`. -/
def after (ms : List Move) (w : Walk d) : Walk d := { w with moves := ms ++ w.moves }

end Walk

namespace Cursor

variable {d : Document}

/-- One move, to a node that has to match. -/
def hop (dir : Direction) (s : Selector) (c : Cursor d) : Walk d :=
  match d.toward dir c.here with
  | some i => ⟨s.matches (d.node i), c.goTo i, [.made dir]⟩
  | none => ⟨false, c, [.refused dir]⟩

/-- Moves in one direction up to the first node that matches. -/
def seek (dir : Direction) (s : Selector) (c : Cursor d) : Walk d :=
  match _h : d.toward dir c.here with
  | some i =>
    if s.matches (d.node i) then ⟨true, c.goTo i, [.made dir]⟩
    else ((c.goTo i).seek dir s).after [.made dir]
  | none => ⟨false, c, [.refused dir]⟩
termination_by c.here.val
decreasing_by exact Document.toward_lt _h

section

variable {dir : Direction} {s : Selector} {c : Cursor d} {i : d.Place}

theorem hop_of_some (h : d.toward dir c.here = some i) :
    c.hop dir s = ⟨s.matches (d.node i), c.goTo i, [.made dir]⟩ := by
  simp only [hop, h]

theorem hop_of_none (h : d.toward dir c.here = none) : c.hop dir s = ⟨false, c, [.refused dir]⟩ := by
  simp only [hop, h]

theorem seek_of_some (h : d.toward dir c.here = some i) :
    c.seek dir s =
      if s.matches (d.node i) then ⟨true, c.goTo i, [.made dir]⟩ else ((c.goTo i).seek dir s).after [.made dir] := by
  rw [seek]
  split
  · rename_i j hj
    rw [Option.some.inj (h.symm.trans hj)]
  · rename_i hn
    cases h.symm.trans hn

end

/-- From the node of the next selector to the node of `s`. -/
def relate (s : Selector) (c : Cursor d) : Walk d :=
  match s.combinator with
  | .descendant => c.seek .up s
  | .child => c.hop .up s
  | .next => c.hop .left s
  | .subsequent => c.seek .left s
  | .none => ⟨s.matches c.node, c, []⟩

/-- From the subject's node outwards through the other selectors, the nearest first. -/
def climb : List Selector → Cursor d → Walk d
  | [], c => ⟨true, c, []⟩
  | s :: rest, c =>
    let w := c.relate s
    if w.found then (w.cursor.climb rest).after w.moves else w

end Cursor

/-- Match the chain at the node under the cursor. An empty chain matches nothing. -/
def Chain.walk {d : Document} (chain : Chain) (c : Cursor d) : Walk d :=
  match chain.selectors.reverse with
  | [] => ⟨false, c, []⟩
  | subject :: rest => if subject.matches c.node then c.climb rest else ⟨false, c, []⟩

end Cascade
