/-
  Cascade.Sheet.Guarded — a build that checks itself. It does what a build does, byte by
  byte and event by event, and stops for good where something is not as it has to be:

  1. Before a byte is read there is no token, unless the mode collects one.
  2. Before a builder is told of a combinator, or of the end of a chain, the selector before
     it has been put into the chain, and the next one has not been begun.
-/

import Cascade.Sheet.Bench

namespace Cascade

variable {σ V : Type}

/-- The bytes of a token are collected in this mode. -/
def Mode.collects : Mode → Bool
  | .idle | .block | .colon | .terminator => false
  | .selector _ | .combinator | .name | .value => true

/-- The next byte may be read. -/
def Reader.ready (r : Reader) : Bool := r.mode.collects || r.pending.isEmpty

namespace Builder

/-- The event may be added. -/
def ready (b : Builder σ V) : Event → Bool
  | .combinator _ | .chainEnd => b.selector.isEmpty
  | _ => true

/-- Add events up to the first that may not be added. -/
def addAllGuarded (host : Host σ V) (b : Builder σ V) (supply : Supply) : List Event → Option (Builder σ V × Supply)
  | [] => some (b, supply)
  | e :: es =>
    let (next, rest) := b.add host supply e
    if b.ready e then next.addAllGuarded host rest es else none

end Builder

namespace Build

/-- Feed a chunk byte by byte; the builder gets what a byte reports before the next byte is read. -/
def feedGuarded (host : Host σ V) (b : Build σ V) (supply : Supply) : List UInt8 → Option (Build σ V × Supply)
  | [] => some (b, supply)
  | x :: xs =>
    let o := b.reader.step x
    if b.reader.ready then
      match b.builder.addAllGuarded host supply o.events with
      | none => none
      | some (builder, supply) =>
        match o.fault? with
        | none => feedGuarded host ⟨o.reader, builder⟩ supply xs
        | some _ => some (⟨o.reader, builder⟩, supply)
    else none

/-- Chunk after chunk, whether or not one is refused. -/
def feedAllGuarded (host : Host σ V) (b : Build σ V) (supply : Supply) :
    List (List UInt8) → Option (Build σ V × Supply)
  | [] => some (b, supply)
  | chunk :: chunks =>
    match b.feedGuarded host supply chunk with
    | none => none
    | some (b, supply) => b.feedAllGuarded host supply chunks

end Build

end Cascade
