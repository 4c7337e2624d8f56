/-
  Cascade.Tool.Workspace — the files that the formatter works on, as a value. A path is
  followed name by name, from the root if it starts with a slash and else from the
  directory that the formatter works in, which may lie far below the root. The root has
  nothing above it. Each name on the way has to be a directory. A directory can be opened
  but not read.

  Writing makes the file or replaces it; it makes no directory.

  There are files and directories and nothing else. Links, devices and permissions are left
  out: a file is at one place, and can be read and written there.
-/

import Cascade.Source

namespace Cascade

/-- The names on the way down from the root. -/
abbrev Path := List String

/-- Where a name leads from a directory. -/
def Path.step (p : Path) (name : String) : Path :=
  if name = "" ∨ name = "." then p else if name = ".." then p.dropLast else p ++ [name]

inductive Item where
  | file (bytes : List UInt8)
  | directory
  deriving DecidableEq, Repr

/-- The directory to work in, and the items by their paths, each path at most once. No item is a link or a device,
    and none has permissions. -/
structure Workspace where
  home : Path := []
  items : List (Path × Item) := []
  deriving DecidableEq, Repr

namespace Workspace

/-- The longest name, and the longest path, in bytes. -/
def longestName : Nat := 255
def longestPath : Nat := 4095

/-- What is at a path; a path to the home or to anything goes through directories. -/
def item? (w : Workspace) (p : Path) : Option Item :=
  match w.items.lookup p with
  | some item => some item
  | none =>
    if p.isPrefixOf w.home || w.items.any fun e => p.isPrefixOf e.1 then some .directory else none

/-- Follow names from a path. Only the last of them need not be there. -/
def follow (w : Workspace) (p : Path) : List String → Except IoFault Path
  | [] => .ok p
  | name :: rest =>
    match w.item? p with
    | none => .error .notFound
    | some (.file _) => .error .notADirectory
    | some .directory =>
      if longestName < name.utf8ByteSize then .error .nameTooLong else w.follow (p.step name) rest

/-- The names of a path. -/
def names (path : String) : Except IoFault (List String) :=
  if path = "" then .error .notFound
  else if longestPath < path.utf8ByteSize then .error .nameTooLong
  else .ok (path.splitOn "/")

/-- Where the names of a path start; before a leading slash the name is empty. -/
def start (w : Workspace) (names : List String) : Path :=
  if names.head? = some "" then [] else w.home

/-- Open what is at a path for reading. -/
def openFile (w : Workspace) (path : String) : Except IoFault (List Reply) := do
  let all ← names path
  let p ← w.follow (w.start all) all
  match w.item? p with
  | none => .error .notFound
  | some .directory => .ok [.failed .isADirectory]
  | some (.file bytes) => .ok (Source.replies bytes)

/-- Put an item at a path, in place of what is there. -/
def set (w : Workspace) (p : Path) (item : Item) : Workspace :=
  { w with items := (p, item) :: w.items.filter (·.1 != p) }

theorem lookup_set (w : Workspace) (p q : Path) (item : Item) :
    (w.set p item).items.lookup q = if q = p then some item else w.items.lookup q := by
  have hf (es : List (Path × Item)) (h : q ≠ p) : (es.filter (·.1 != p)).lookup q = es.lookup q := by
    induction es with
    | nil => rfl
    | cons e es ih =>
      obtain ⟨k, v⟩ := e
      by_cases he : k = p
      · simp [he, List.lookup_cons, ih, beq_false_of_ne h]
      · by_cases hq : q = k <;> simp [he, List.lookup_cons, ih, hq]
  by_cases h : q = p
  · simp [set, h]
  · simp [set, List.lookup_cons, h, hf _ h, beq_false_of_ne h]

/-- Where a file of this name would be made; a path that ends in a slash names a directory. -/
def place (w : Workspace) (path : String) : Except IoFault Path := do
  let all ← names path
  let named := (all.reverse.dropWhile (· == "")).reverse
  let p ← w.follow (w.start all) (named.dropLast ++ [""])
  let last := named.getLast?.getD "."
  if last = "." ∨ last = ".." ∨ named.length < all.length then .error .isADirectory
  else w.follow p [last]

/-- Write a file at a path. -/
def write (w : Workspace) (path : String) (bytes : List UInt8) : Except IoFault Workspace := do
  let p ← w.place path
  match w.item? p with
  | some .directory => .error .isADirectory
  | _ => .ok (w.set p (.file bytes))

end Workspace

end Cascade
