/-
  Cascade.Selector — what a rule applies to. A selector asks for a tag, an id and
  classes; a chain is a list of selectors from the outermost to the subject, each with
  the relation in which the next one stands to it.

  - A tag that is empty or `*` asks for nothing; so do an empty id and no classes.
  - The text of a selector is its tag, `#id`, then `.class` for each class; the text of
    a chain puts each selector's combinator after it.
-/

namespace Cascade

/-- Where the node of the next selector of a chain stands, seen from the node of this one. -/
inductive Combinator where
  /-- No next selector: this one is the subject. -/
  | none
  | descendant
  | child
  /-- The sibling right after it. -/
  | next
  /-- Any sibling after it. -/
  | subsequent
  deriving DecidableEq, Repr, Inhabited

namespace Combinator

/-- The combinator that a token between two selectors stands for; blanks alone leave no token. -/
def ofToken? : String → Option Combinator
  | "" => some .descendant
  | ">" => some .child
  | "+" => some .next
  | "~" => some .subsequent
  | _ => Option.none

/-- The text between two selectors. -/
def text : Combinator → String
  | .none => ""
  | .descendant => " "
  | .child => " > "
  | .next => " + "
  | .subsequent => " ~ "

end Combinator

structure Selector where
  tag : String := ""
  id : String := ""
  classes : List String := []
  /-- The relation to the next selector of the chain. -/
  combinator : Combinator := .none
  deriving DecidableEq, Repr, Inhabited

namespace Selector

/-- Any tag will do. -/
def anyTag (s : Selector) : Bool := s.tag.isEmpty || s.tag == "*"

/-- Nothing is asked for. -/
def isEmpty (s : Selector) : Bool := s.tag.isEmpty && s.id.isEmpty && s.classes.isEmpty

def text (s : Selector) : String :=
  s.tag ++ (if s.id.isEmpty then "" else "#" ++ s.id) ++ String.join (s.classes.map ("." ++ ·))

end Selector

/-- Selectors from the outermost to the subject. -/
structure Chain where
  selectors : List Selector
  deriving DecidableEq, Repr, Inhabited

namespace Chain

def length (c : Chain) : Nat := c.selectors.length

def isEmpty (c : Chain) : Bool := c.selectors.isEmpty

/-- The selector that the node itself has to match. -/
def subject? (c : Chain) : Option Selector := c.selectors.getLast?

def text (c : Chain) : String := String.join (c.selectors.map fun s => s.text ++ s.combinator.text)

end Chain

end Cascade
