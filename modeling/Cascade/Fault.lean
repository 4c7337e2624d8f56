/-
  Cascade.Fault — why a sheet cannot be read on, and on which line. A fault is
  `unsupported` where the text asks for a feature of style sheets that is not read
  here, and otherwise the text is malformed.

  Messages quote the byte found, and some the token before it.
-/

import Cascade.Text.Sign
import Cascade.Text.Utf8

namespace Cascade

/-- Features of style sheets that are not read. -/
inductive Feature where
  | attributes
  | pseudo
  deriving DecidableEq, Repr

def Feature.text : Feature → String
  | .attributes => "attribute selectors"
  | .pseudo => "pseudo-classes and pseudo-elements"

inductive Fault where
  | unsupported (feature : Feature)
  /-- A combinator stands where a selector has to start. -/
  | leadingCombinator (found : UInt8)
  | noSelector (found : UInt8)
  | inSelector (found : UInt8)
  /-- An id directly after an id. -/
  | idAfterId
  | emptyId
  | emptyClass
  | unknownCombinator (token : List UInt8)
  /-- A combinator with no selector after it. -/
  | danglingCombinator (token : List UInt8) (found : UInt8)
  | noName (found : UInt8)
  | noColon (name : List UInt8) (found : UInt8)
  | afterName (found : UInt8)
  | blockInValue
  | afterValue (found : UInt8)
  /-- The bytes of a token are no text. -/
  | notText
  | endInBlock
  | endInSelector
  deriving DecidableEq, Repr

def Fault.isUnsupported : Fault → Bool
  | .unsupported _ => true
  | _ => false

def Fault.message : Fault → String
  | .unsupported feature => feature.text
  | .leadingCombinator b => "unexpected combinator " ++ byteText b ++ ", expected a selector"
  | .noSelector b => "unexpected " ++ byteText b ++ ", expected a selector"
  | .inSelector b => "unexpected " ++ byteText b ++ " in selector"
  | .idAfterId => "unexpected '#' inside an id selector"
  | .emptyId => "empty id selector"
  | .emptyClass => "empty class selector"
  | .unknownCombinator token => "unknown combinator '" ++ Utf8.lossy token ++ "'"
  | .danglingCombinator token b =>
    "unexpected combinator '" ++ Utf8.lossy token ++ "' before " ++ byteText b
  | .noName b => "unexpected " ++ byteText b ++ ", expected a property name"
  | .noColon name b =>
    "expected ':' after property name '" ++ Utf8.lossy name ++ "', found " ++ byteText b
  | .afterName b => "unexpected " ++ byteText b ++ " after property name"
  | .blockInValue => "unexpected '\x7b' in property value"
  | .afterValue b => "unexpected " ++ byteText b ++ " after property value"
  | .notText => "invalid UTF-8 in token"
  | .endInBlock => "unexpected end of input inside a declaration block"
  | .endInSelector => "unexpected end of input inside a selector"

/-- A fault and the line on which it was found. -/
structure SyntaxError where
  line : UInt32
  fault : Fault
  deriving DecidableEq, Repr

def SyntaxError.message (e : SyntaxError) : String :=
  (if e.fault.isUnsupported then "Unsupported CSS feature at line " else "Malformed CSS at line ")
    ++ toString e.line.toNat ++ ": " ++ e.fault.message

end Cascade
