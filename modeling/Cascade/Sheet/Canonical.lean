/-
  Cascade.Sheet.Canonical — a sheet as text. Styles that share a block are written as
  one entry: their chains, joined by commas, then the block.

  1. The chains of an entry stand in the order in which their styles were made.
  2. The declarations stand in the order of the properties' numbers; one whose property
     has no name is left out.
  3. The entries stand in the order of their declarations' text, then of their chains'.
  4. Every line starts with the indent.

  The ranks of the styles and their order in the sheet play no part.
-/

import Cascade.Sheet.Basic

namespace Cascade

/-- How the embedder names properties and writes values. -/
structure Rendering (V : Type) where
  name : PropertyId → Option String
  value : PropertyId → V → String

/-- One entry of the text, before it is put into place. -/
structure Entry where
  selectors : String
  declarations : String
  deriving DecidableEq, Repr

namespace Entry

variable {V : Type}

/-- `a` may stand before `b`. -/
def before (a b : Entry) : Bool :=
  a.declarations < b.declarations || (a.declarations == b.declarations && a.selectors ≤ b.selectors)

def declarationText (indent : String) (r : Rendering V) (p : PropertyId) (v : V) : String :=
  match r.name p with
  | none => ""
  | some name => if name.isEmpty then "" else indent ++ "\t" ++ name ++ ": " ++ r.value p v ++ ";\n"

def declarationsText (indent : String) (r : Rendering V) (d : Declarations V) : String :=
  String.join (d.entries.map fun e => declarationText indent r e.1 e.2)

/-- The entry of styles that share a block, in the order in which they were made. -/
def ofStyles (indent : String) (r : Rendering V) (styles : List (Style V)) : Entry :=
  { selectors := ", ".intercalate (styles.map (·.chain.text))
    declarations := (styles.head?.map fun s => declarationsText indent r s.block.declarations).getD "" }

def text (indent : String) (e : Entry) : String :=
  indent ++ e.selectors ++ " \x7b\n" ++ e.declarations ++ indent ++ "\x7d\n"

end Entry

namespace Sheet

variable {V : Type}

/-- `a` may stand before `b` when the styles of a block stand together, as they were made. -/
def madeBefore (a b : Style V) : Bool :=
  a.block.number < b.block.number || (a.block.number == b.block.number && a.serial ≤ b.serial)

/-- The styles of each block. -/
def byBlock (styles : List (Style V)) : List (List (Style V)) :=
  (styles.mergeSort madeBefore).splitBy fun a b => a.block.number == b.block.number

theorem madeBefore_trans (a b c : Style V) (hab : madeBefore a b) (hbc : madeBefore b c) : madeBefore a c := by
  simp only [madeBefore, Bool.or_eq_true, Bool.and_eq_true, decide_eq_true_eq, beq_iff_eq] at *
  omega

theorem madeBefore_total (a b : Style V) : madeBefore a b || madeBefore b a := by
  simp only [madeBefore, Bool.or_eq_true, Bool.and_eq_true, decide_eq_true_eq, beq_iff_eq]
  omega

def entries (s : Sheet V) (indent : String) (r : Rendering V) : List Entry :=
  ((byBlock s.styles).map (Entry.ofStyles indent r)).mergeSort Entry.before

def toText (s : Sheet V) (indent : String) (r : Rendering V) : String :=
  String.join ((s.entries indent r).map (·.text indent))

end Sheet

end Cascade
