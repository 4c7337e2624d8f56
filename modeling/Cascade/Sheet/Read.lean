/-
  Cascade.Sheet.Read — a sheet out of bytes. Each piece is read as it comes, and what
  it reports goes to the builder at once, so the embedder is asked in the order of the
  text, and asked about everything before a fault.

  1. Interrupted reads change nothing.
  2. Another failure of the source ends the reading with that failure.
  3. A fault in the text ends it with that fault, and nothing more is read.
  4. The text may end only where the reader is idle.
-/

import Cascade.Builder
import Cascade.Reader
import Cascade.Sheet.Basic
import Cascade.Source

namespace Cascade

namespace Sheet

variable {σ V : Type}

/-- A sheet or why there is none, with what the embedder remembers and the numbers left. -/
structure Reading (σ V : Type) where
  result : Except Error (Sheet V)
  memory : σ
  supply : Supply

/-- The text has ended. -/
def endReading (r : Reader) (b : Builder σ V) (supply : Supply) : Reading σ V :=
  match r.endError? with
  | some e => ⟨.error (.syntactic e), b.memory, supply⟩
  | none => ⟨.ok (ofStyles b.finished), b.memory, supply⟩

def readFrom (host : Host σ V) (r : Reader) (b : Builder σ V) (supply : Supply) : List Reply → Reading σ V
  | [] => endReading r b supply
  | .bytes [] :: _ => endReading r b supply
  | .interrupted :: rest => readFrom host r b supply rest
  | .failed fault :: _ => ⟨.error (.io fault), b.memory, supply⟩
  | .bytes (x :: xs) :: rest =>
    let o := r.run (x :: xs)
    let (b, supply) := b.addAll host supply o.events
    match o.error? with
    | some e => ⟨.error (.syntactic e), b.memory, supply⟩
    | none => readFrom host o.reader b supply rest

def read (host : Host σ V) (memory : σ) (supply : Supply) (source : List Reply) : Reading σ V :=
  readFrom host {} { memory } supply source

/-- Read a text that is at hand. -/
def parse (host : Host σ V) (memory : σ) (supply : Supply) (css : String) : Reading σ V :=
  read host memory supply (Source.replies (Utf8.bytes css))

end Sheet

end Cascade
