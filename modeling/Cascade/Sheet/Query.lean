/-
  Cascade.Sheet.Query — the value of a property on a node. Styles are tried from the
  highest rank down, each from the cursor's home; the first that matches and declares
  the property decides, and the cursor stays where its walk ended. If none does, the
  cursor goes home.
-/

import Cascade.Walk
import Cascade.Sheet.Basic

namespace Cascade

/-- The value of a property, if a style gives one, and the rank of that style. -/
structure Answer (d : Document) (V : Type) where
  value : Option V
  specificity : Specificity
  cursor : Cursor d
  moves : List Move

namespace Sheet

variable {V : Type} {d : Document}

/-- The answer `a` after the moves `ms`. -/
def afterMoves (ms : List Move) (a : Answer d V) : Answer d V := { a with moves := ms ++ a.moves }

def queryStyles (p : PropertyId) : List (Style V) → Cursor d → Answer d V
  | [], c => ⟨none, .zero, c.reset, [.reset]⟩
  | s :: rest, c =>
    let w := s.chain.walk c.reset
    match w.found, s.block.declarations.get? p with
    | true, some v => ⟨some v, s.specificity, w.cursor, .reset :: w.moves⟩
    | _, _ => afterMoves (.reset :: w.moves) (queryStyles p rest w.cursor)

def query (s : Sheet V) (p : PropertyId) (c : Cursor d) : Answer d V := queryStyles p s.styles c

/-- The places in the sheet of the styles that match a node. -/
def stylesAt (s : Sheet V) (d : Document) (i : d.Place) : List Nat :=
  (s.styles.zipIdx.filter fun e => (e.1.chain.walk (Cursor.atHome i)).found).map (·.2)

end Sheet

end Cascade
