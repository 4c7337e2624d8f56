/-
  Cascade.Event — what a reader reports, in the order in which it finds it. A rule is
  reported as its chains, then its declarations, then `blockEnd`; a chain as its
  selectors with the combinators between them, then `chainEnd`; a selector as its
  parts, then `selectorEnd`; a declaration as its name, then its value.
-/

import Cascade.Selector

namespace Cascade

inductive Event where
  | tag (text : String)
  | id (text : String)
  | className (text : String)
  /-- The relation between the last selector reported and the next. -/
  | combinator (c : Combinator)
  | selectorEnd
  | chainEnd
  | name (text : String)
  | value (text : String)
  | blockEnd
  deriving DecidableEq, Repr

end Cascade
