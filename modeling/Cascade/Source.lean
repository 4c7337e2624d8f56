/-
  Cascade.Source — where the bytes of a sheet come from: what the source replies to one
  read after another. A reply of no bytes is the end, and so is the end of the replies;
  what comes after an end is not asked for.
-/

import Cascade.Error

namespace Cascade

/-- What a source replies to one read. -/
inductive Reply where
  | bytes (bs : List UInt8)
  /-- Nothing was read, and the read is worth trying again. -/
  | interrupted
  | failed (fault : IoFault)
  deriving DecidableEq, Repr

namespace Source

/-- The most bytes that one read asks for. -/
def readSize : Nat := 4096

theorem readSize_pos : 0 < readSize := by decide

/-- Bytes in the pieces in which they are read. -/
def cut (bs : List UInt8) : List (List UInt8) :=
  match bs with
  | [] => []
  | b :: rest => (b :: rest).take readSize :: cut ((b :: rest).drop readSize)
termination_by bs.length
decreasing_by
  have := readSize_pos
  simp only [List.length_drop, List.length_cons]
  omega

theorem flatten_cut (bs : List UInt8) : (cut bs).flatten = bs := by
  fun_induction cut bs with
  | case1 => rfl
  | case2 b rest ih =>
    rw [List.flatten_cons, ih, List.take_append_drop]

/-- The replies of a source that holds these bytes; none at all is a reply too. -/
def replies (bs : List UInt8) : List Reply :=
  match bs with
  | [] => [.bytes []]
  | _ => (cut bs).map .bytes

end Source

end Cascade
