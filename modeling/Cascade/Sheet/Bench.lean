/-
  Cascade.Sheet.Bench — builds in flight. A build is a reader with the builder that it
  reports to. It is fed chunk after chunk, and its sheet is what the builder has made by
  then, whether or not a chunk was refused.

  On a bench there are any number of builds, each with a host and a memory of its own, and
  beside them a program that makes and changes sheets. They take turns, and all of them
  draw their numbers from one supply.
-/

import Cascade.Sheet.Store
import Mathlib.Logic.Function.Basic

namespace Cascade

structure Build (σ V : Type) where
  reader : Reader := {}
  builder : Builder σ V

namespace Build

variable {σ V : Type}

def new (memory : σ) : Build σ V := { builder := { memory } }

/-- What is refused of a chunk is dropped with the rest of it; the next chunk may be fed all the same. -/
def feed (host : Host σ V) (b : Build σ V) (supply : Supply) (chunk : List UInt8) : Build σ V × Supply :=
  let o := b.reader.run chunk
  let (builder, supply) := b.builder.addAll host supply o.events
  (⟨o.reader, builder⟩, supply)

/-- Chunk after chunk, with nothing in between. -/
def feedAll (host : Host σ V) (b : Build σ V) (supply : Supply) (chunks : List (List UInt8)) : Build σ V × Supply :=
  chunks.foldl (fun (b, supply) chunk => b.feed host supply chunk) (b, supply)

theorem feedAll_cons (host : Host σ V) (b : Build σ V) (supply : Supply) (chunk : List UInt8)
    (chunks : List (List UInt8)) :
    b.feedAll host supply (chunk :: chunks) =
      (b.feed host supply chunk).1.feedAll host (b.feed host supply chunk).2 chunks := rfl

def sheet (b : Build σ V) : Sheet V := .ofStyles b.builder.finished

end Build

/-- A chunk for one build, or something that the program beside them does. -/
inductive Turn (ι W : Type) : Type 1 where
  | feed (i : ι) (chunk : List UInt8)
  | other (action : Action W)

/-- The chunks for the build `i`, in order. -/
def Turn.chunksFor {ι W : Type} [DecidableEq ι] (i : ι) : List (Turn ι W) → List (List UInt8)
  | [] => []
  | .feed k chunk :: turns => if k = i then chunk :: chunksFor i turns else chunksFor i turns
  | .other _ :: turns => chunksFor i turns

structure Bench {ι : Type} (σ V : ι → Type) (W : Type) where
  build : ∀ i, Build (σ i) (V i)
  /-- The program, with the supply for all. -/
  store : Store W

namespace Bench

variable {ι : Type} [DecidableEq ι] {σ V : ι → Type} {W : Type}

/-- New builds, and a program that may have done anything before. -/
def new (memories : ∀ i, σ i) (store : Store W) : Bench σ V W := ⟨fun i => .new (memories i), store⟩

def turn (hosts : ∀ i, Host (σ i) (V i)) (bench : Bench σ V W) : Turn ι W → Bench σ V W
  | .feed i chunk =>
    let (build, supply) := (bench.build i).feed (hosts i) bench.store.supply chunk
    ⟨Function.update bench.build i build, { bench.store with supply }⟩
  | .other action => { bench with store := bench.store.step action }

def run (hosts : ∀ i, Host (σ i) (V i)) (bench : Bench σ V W) (turns : List (Turn ι W)) : Bench σ V W :=
  turns.foldl (turn hosts) bench

@[simp] theorem run_cons (hosts : ∀ i, Host (σ i) (V i)) (bench : Bench σ V W) (t : Turn ι W) (turns : List (Turn ι W)) :
    bench.run hosts (t :: turns) = (bench.turn hosts t).run hosts turns := rfl

end Bench

end Cascade
