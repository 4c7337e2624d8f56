/-
  Cascade.NameTable — names of properties. A table gives every name a number when the
  name first comes, the next that is free; a list of names is fixed, and the first
  entry that fits counts.
-/

import Cascade.Builder
import Cascade.Sheet.Canonical

namespace Cascade

/-- Names by number, in the order in which they came. -/
structure NameTable where
  names : List String := []
  deriving DecidableEq, Repr

namespace NameTable

/-- The number of a name, new or known. -/
def number (t : NameTable) (name : String) : PropertyId × NameTable :=
  match t.names.idxOf? name with
  | some i => (.ofNat i, t)
  | none => (.ofNat t.names.length, ⟨t.names ++ [name]⟩)

def name? (t : NameTable) (p : PropertyId) : Option String := t.names[p.toNat]?

/-- Knows every name and takes every value as it is. -/
def host : Host NameTable String where
  identify t name := let (p, t) := t.number name; (some p, t)
  interpret t _ text := (some text, t)

def rendering (t : NameTable) : Rendering String := ⟨t.name?, fun _ text => text⟩

end NameTable

/-- A fixed list of names and their numbers. -/
structure NameList where
  pairs : List (String × PropertyId)
  deriving DecidableEq, Repr

namespace NameList

def number? (l : NameList) (name : String) : Option PropertyId := (l.pairs.find? (·.1 == name)).map (·.2)

def name? (l : NameList) (p : PropertyId) : Option String := (l.pairs.find? (·.2 == p)).map (·.1)

end NameList

end Cascade
