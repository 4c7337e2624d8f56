/-
  Cascade.Sink — where the text of a sheet goes. A sink of text takes it in one piece
  or refuses it. A sink of bytes replies to one write after another, each time offered
  what is left, and may take any part of that.

  1. An interrupted write is tried again; a write of which nothing is taken fails.
  2. A failed write ends the writing, and then nothing is flushed.
  3. When all is taken, however little that is, the sink is flushed once.
-/

import Cascade.Error
import Cascade.Sheet.Canonical

namespace Cascade

/-- What a sink of bytes replies to one write. -/
inductive WriteReply where
  /-- So many bytes were taken, or all that were offered if those were fewer. -/
  | took (n : Nat)
  | interrupted
  | failed (fault : IoFault)
  deriving DecidableEq, Repr

/-- A sink of bytes by its replies; after the last it takes whatever is offered. -/
structure ByteSink where
  replies : List WriteReply := []
  /-- Why a flush fails, if it does. -/
  flush : Option IoFault := none
  deriving DecidableEq, Repr

/-- What has reached a sink of bytes, whether it was flushed, and what failed. -/
structure Delivery where
  bytes : List UInt8
  flushed : Bool
  fault? : Option IoFault
  deriving DecidableEq, Repr

namespace ByteSink

/-- Write until all is taken or a write fails; `sent` is what went before, the newest first. -/
def writeAll (sent : List UInt8) : List UInt8 → List WriteReply → List UInt8 × Option IoFault
  | [], _ => (sent.reverse, none)
  | bs, [] => (sent.reverse ++ bs, none)
  | bs, .interrupted :: rest => writeAll sent bs rest
  | _, .failed fault :: _ => (sent.reverse, some fault)
  | _, .took 0 :: _ => (sent.reverse, some .nothingWritten)
  | bs, .took (n + 1) :: rest => writeAll ((bs.take (n + 1)).reverse ++ sent) (bs.drop (n + 1)) rest

def deliver (sink : ByteSink) (bs : List UInt8) : Delivery :=
  match writeAll [] bs sink.replies with
  | (sent, some fault) => ⟨sent, false, some fault⟩
  | (sent, none) => ⟨sent, true, sink.flush⟩

/-- The sink that takes at most `most` bytes a write and `limit` in all, and replies `full` to a
    write after that; offered no more than `size` bytes. -/
def limited (most limit : Nat) (full : WriteReply) (flush : Option IoFault) (size : Nat) : ByteSink :=
  let room := min limit size
  let whole := List.replicate (room / most) (.took most)
  let rest := if room % most = 0 then [] else [.took (min most (room % most))]
  ⟨whole ++ rest ++ [full], flush⟩

end ByteSink

/-- A sink of text: whether it accepts a piece, and its state after that. -/
abbrev TextSink (τ : Type) := τ → String → Bool × τ

/-- The sink that holds at most `limit` bytes of text. -/
def TextSink.limited (limit : Nat) : TextSink String := fun held text =>
  if held.utf8ByteSize + text.utf8ByteSize ≤ limit then (true, held ++ text) else (false, held)

namespace Sheet

variable {V : Type}

/-- Write the sheet to a sink of text, which is asked once. -/
def writeText {τ : Type} (s : Sheet V) (sink : TextSink τ) (state : τ) (indent : String) (r : Rendering V) :
    Option Error × τ :=
  let (accepted, state) := sink state (s.toText indent r)
  (if accepted then none else some .format, state)

/-- Write the sheet to a sink of bytes. -/
def writeBytes (s : Sheet V) (sink : ByteSink) (indent : String) (r : Rendering V) : Delivery :=
  sink.deliver (Utf8.bytes (s.toText indent r))

end Sheet

end Cascade
