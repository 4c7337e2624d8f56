/-
  Cascade.Sheet.Gather — the groups of a sheet in one pass over its styles, in the order
  of the sheet. The pass keeps a list of groups, in which the group of a block stands where
  the block first came, and an index from the block's number to that place. When all
  styles are in, the members of each group are put in the order in which they were made.

  `gatheredText` is the text of the entries of these groups.
-/

import Cascade.Sheet.Canonical
import Std.Data.HashMap

namespace Cascade

/-- The groups of the styles that have been passed. -/
structure Gathering (V : Type) where
  /-- The place of the group of a block, by the block's number. -/
  index : Std.HashMap Nat Nat := {}
  groups : List (List (Style V)) := []

namespace Gathering

variable {V : Type}

def add (g : Gathering V) (x : Style V) : Gathering V :=
  match g.index[x.block.number]? with
  | some i => { g with groups := g.groups.modify i (· ++ [x]) }
  | none => ⟨g.index.insert x.block.number g.groups.length, g.groups ++ [[x]]⟩

def ofStyles (styles : List (Style V)) : Gathering V := styles.foldl add {}

end Gathering

namespace Sheet

variable {V : Type}

def serialBefore (a b : Style V) : Bool := a.serial ≤ b.serial

/-- The styles of each block, the blocks as they first come in the sheet. -/
def groups (s : Sheet V) : List (List (Style V)) :=
  (Gathering.ofStyles s.styles).groups.map (·.mergeSort serialBefore)

def gatheredText (s : Sheet V) (indent : String) (r : Rendering V) : String :=
  String.join (((s.groups.map (Entry.ofStyles indent r)).mergeSort Entry.before).map (·.text indent))

end Sheet

end Cascade
