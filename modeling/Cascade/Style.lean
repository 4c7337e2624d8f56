/-
  Cascade.Style — one chain with the declarations that it brings. The chains of a rule
  share one block; two blocks that declare the same are still two, so a block has a
  number that no other block has. A style also has a serial number, which orders the
  styles of a block as they were made.

  Both numbers come from a `Supply`, which hands out each only once; a copy of a style
  keeps its own.
-/

import Cascade.Declarations
import Cascade.Specificity

namespace Cascade

variable {V : Type}

/-- Declarations that several styles may share. -/
structure Block (V : Type) where
  number : Nat
  declarations : Declarations V
  deriving DecidableEq, Repr

structure Style (V : Type) where
  chain : Chain
  block : Block V
  specificity : Specificity
  serial : Nat
  deriving DecidableEq, Repr

/-- A style ranks as its chain does. -/
def Style.of (chain : Chain) (block : Block V) (serial : Nat) : Style V :=
  ⟨chain, block, chain.specificity, serial⟩

/-- The numbers that come next. -/
structure Supply where
  block : Nat := 0
  serial : Nat := 0
  deriving DecidableEq, Repr

namespace Supply

/-- A new block, shared with nothing yet. -/
def newBlock (s : Supply) (d : Declarations V) : Block V × Supply :=
  (⟨s.block, d⟩, { s with block := s.block + 1 })

def newStyle (s : Supply) (chain : Chain) (block : Block V) : Style V × Supply :=
  (Style.of chain block s.serial, { s with serial := s.serial + 1 })

/-- A style for each chain, in order, all on one block. -/
def newStyles (s : Supply) (chains : List Chain) (block : Block V) : List (Style V) × Supply :=
  ((chains.zipIdx s.serial).map fun c => Style.of c.1 block c.2, { s with serial := s.serial + chains.length })

theorem newStyles_cons (s : Supply) (c : Chain) (cs : List Chain) (b : Block V) :
    s.newStyles (c :: cs) b =
      ((s.newStyle c b).1 :: ((s.newStyle c b).2.newStyles cs b).1, ((s.newStyle c b).2.newStyles cs b).2) := by
  simp [newStyles, newStyle, List.zipIdx_cons, Nat.add_comm, Nat.add_left_comm]

end Supply

end Cascade
