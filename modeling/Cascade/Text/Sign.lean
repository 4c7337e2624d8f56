/-
  Cascade.Text.Sign — what a byte means to the reader of a sheet. Every byte of a
  character outside ASCII is `plain`, so no sign is ever found inside a character.

  `byteText` names a byte in a message: a visible ASCII character in quotes, any other
  byte by its number.
-/

namespace Cascade

inductive Sign where
  /-- A blank, a tab or a line end. -/
  | space
  | dot
  | hash
  | bracket
  | colon
  /-- A symbol that joins two selectors: `>`, `+` or `~`. -/
  | joiner
  | opening
  | closing
  | comma
  | semicolon
  | plain
  deriving DecidableEq, Repr

def Sign.of (b : UInt8) : Sign :=
  match b with
  | 0x20 | 0x09 | 0x0D | 0x0A => .space
  | 0x2E => .dot
  | 0x23 => .hash
  | 0x5B => .bracket
  | 0x3A => .colon
  | 0x3E | 0x2B | 0x7E => .joiner
  | 0x7B => .opening
  | 0x7D => .closing
  | 0x2C => .comma
  | 0x3B => .semicolon
  | _ => .plain

/-- The byte that ends a line. -/
def lineEnd : UInt8 := 0x0A

theorem Sign.of_lineEnd : Sign.of lineEnd = .space := rfl

theorem Sign.of_high {b : UInt8} (h : 0x80 ≤ b) : Sign.of b = .plain := by
  unfold Sign.of
  split
  case h_16 => rfl
  all_goals exact absurd h (by decide)

/-- Two hexadecimal digits. -/
def hexPair (b : UInt8) : String :=
  String.ofList [Nat.digitChar (b.toNat / 16), Nat.digitChar (b.toNat % 16)]

def byteText (b : UInt8) : String :=
  if 0x21 ≤ b ∧ b ≤ 0x7E then "'" ++ String.singleton (Char.ofUInt8 b) ++ "'"
  else "byte 0x" ++ hexPair b

end Cascade
