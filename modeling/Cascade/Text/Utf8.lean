/-
  Cascade.Text.Utf8 — bytes as text. A token is cut out of the input as bytes and
  becomes text only as a whole, so a character may be spread over several reads.

  - `decode?` accepts exactly the bytes of a string (`decode?_eq_some_iff`).
  - `lossy` is for messages, which quote bytes that may be no text: the input is cut
    into `pieces`, each a character or the longest start of one, and a piece that is
    no character is shown as U+FFFD. Nothing is lost in the cutting (`flatten_pieces`).
-/

namespace Cascade.Utf8

def bytes (s : String) : List UInt8 := s.toByteArray.data.toList

def decode? (bs : List UInt8) : Option String := String.fromUTF8? ⟨bs.toArray⟩

@[simp] theorem bytes_empty : bytes "" = [] := rfl

@[simp] theorem bytes_append (s t : String) : bytes (s ++ t) = bytes s ++ bytes t := by
  simp [bytes]

theorem bytes_join (l : List String) : bytes (String.join l) = (l.map bytes).flatten := by
  induction l with
  | nil => rfl
  | cons s l ih => simp [ih]

theorem bytes_inj {s t : String} : bytes s = bytes t ↔ s = t := by
  refine ⟨fun h => ?_, fun h => h ▸ rfl⟩
  have h' : s.toByteArray.data = t.toByteArray.data := Array.toList_inj.mp h
  exact String.toByteArray_inj.mp (ByteArray.ext h')

theorem decode?_eq_some_iff {bs : List UInt8} {s : String} : decode? bs = some s ↔ bs = bytes s := by
  unfold decode? String.fromUTF8? bytes
  constructor
  · intro h
    split at h
    · cases h; rfl
    · cases h
  · rintro rfl
    have hv : (⟨s.toByteArray.data.toList.toArray⟩ : ByteArray).IsValidUTF8 := s.isValidUTF8
    rw [dif_pos hv]
    rfl

@[simp] theorem decode?_bytes (s : String) : decode? (bytes s) = some s := decode?_eq_some_iff.mpr rfl

@[simp] theorem decode?_nil : decode? [] = some "" := decode?_bytes ""

/-! ## Text for messages -/

/-- The ranges that the bytes after `b` come from, when `b` starts a character. -/
def followers (b : UInt8) : List (UInt8 × UInt8) :=
  if b < 0xC2 then []
  else if b < 0xE0 then [(0x80, 0xBF)]
  else if b = 0xE0 then [(0xA0, 0xBF), (0x80, 0xBF)]
  else if b = 0xED then [(0x80, 0x9F), (0x80, 0xBF)]
  else if b < 0xF0 then [(0x80, 0xBF), (0x80, 0xBF)]
  else if b = 0xF0 then [(0x90, 0xBF), (0x80, 0xBF), (0x80, 0xBF)]
  else if b < 0xF4 then [(0x80, 0xBF), (0x80, 0xBF), (0x80, 0xBF)]
  else if b = 0xF4 then [(0x80, 0x8F), (0x80, 0xBF), (0x80, 0xBF)]
  else []

/-- How many bytes follow the ranges, one each, before the first that does not. -/
def runLength : List (UInt8 × UInt8) → List UInt8 → Nat
  | (lo, hi) :: ranges, b :: bs => if lo ≤ b ∧ b ≤ hi then runLength ranges bs + 1 else 0
  | _, _ => 0

/-- The input cut into characters and, where there is none, the longest starts of one. -/
def pieces : List UInt8 → List (List UInt8)
  | [] => []
  | b :: bs =>
    let n := runLength (followers b) bs
    (b :: bs.take n) :: pieces (bs.drop n)
termination_by bs => bs.length
decreasing_by simp only [List.length_drop, List.length_cons]; omega

theorem flatten_pieces (bs : List UInt8) : (pieces bs).flatten = bs := by
  fun_induction pieces bs with
  | case1 => rfl
  | case2 b bs n ih => simp [ih, List.take_append_drop]

/-- The text of a piece: its character, or U+FFFD. -/
def glyph (piece : List UInt8) : String := (decode? piece).getD "\uFFFD"

def lossy (bs : List UInt8) : String := String.join ((pieces bs).map glyph)

end Cascade.Utf8
