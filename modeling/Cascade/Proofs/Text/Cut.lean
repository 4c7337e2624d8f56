/-
  Cascade.Proofs.Text.Cut — where bytes that are text may be cut. `IsText bs` says that
  they are the bytes of some text.

  - What follows a text in a text is a text (`isText_append_iff`).
  - What stands before a byte of ASCII is a text (`isText_of_cut`): such a byte is a
    character of its own, and no part of another one. The signs are such bytes, so a text
    may be cut at any of them (`ascii_of_sign`).
  - What is missing of a character at the end is no byte of ASCII (`exists_boundary`).
-/

import Cascade.Text.Sign
import Cascade.Text.Utf8

namespace Cascade

namespace Utf8

variable {s : String} {xs ys : List UInt8} {b : UInt8}

def IsText (bs : List UInt8) : Prop := ∃ s, bs = bytes s

theorem isText_bytes (s : String) : IsText (bytes s) := ⟨s, rfl⟩

theorem isText_append (hx : IsText xs) (hy : IsText ys) : IsText (xs ++ ys) := by
  obtain ⟨s, rfl⟩ := hx
  obtain ⟨t, rfl⟩ := hy
  exact ⟨s ++ t, (bytes_append s t).symm⟩

theorem isText_iff_valid {a : ByteArray} : IsText a.data.toList ↔ a.IsValidUTF8 := by
  constructor
  · intro h
    obtain ⟨s, hs⟩ := h
    have ha : a = s.toByteArray := ByteArray.ext (Array.toList_inj.mp hs)
    exact ha ▸ s.isValidUTF8
  · intro h
    exact ⟨⟨a, h⟩, rfl⟩

theorem decode?_of_isText (h : IsText xs) : ∃ text, decode? xs = some text := by
  obtain ⟨s, rfl⟩ := h
  exact ⟨s, decode?_bytes s⟩

/-! ## Positions -/

theorem length_bytes (s : String) : (bytes s).length = s.utf8ByteSize := by
  simp [bytes]

theorem isText_before_iff (h : bytes s = xs ++ ys) : (⟨xs.length⟩ : String.Pos.Raw).IsValid s ↔ IsText xs := by
  have hlength : xs.length + ys.length = s.utf8ByteSize := by rw [← length_bytes, h, List.length_append]
  have hx : (s.toByteArray.extract 0 xs.length).data.toList = xs := by
    have h' : s.toByteArray.data.toList = xs ++ ys := h
    simp [h']
  rw [String.Pos.Raw.isValid_iff_isValidUTF8_extract_zero, ← isText_iff_valid, hx, String.Pos.Raw.le_iff]
  simp [← hlength]

theorem isText_after_iff (h : bytes s = xs ++ ys) : (⟨xs.length⟩ : String.Pos.Raw).IsValid s ↔ IsText ys := by
  have hlength : xs.length + ys.length = s.utf8ByteSize := by rw [← length_bytes, h, List.length_append]
  have hy : (s.toByteArray.extract xs.length s.utf8ByteSize).data.toList = ys := by
    have h' : s.toByteArray.data.toList = xs ++ ys := h
    simp [h', ← hlength]
  rw [String.Pos.Raw.isValid_iff_isValidUTF8_extract_utf8ByteSize, ← isText_iff_valid, hy, String.Pos.Raw.le_iff]
  simp [← hlength]

theorem isText_append_iff (hx : IsText xs) : IsText (xs ++ ys) ↔ IsText ys := by
  refine ⟨fun h => ?_, isText_append hx⟩
  obtain ⟨s, hs⟩ := h
  exact (isText_after_iff hs.symm).mp ((isText_before_iff hs.symm).mpr hx)

/-! ## Bytes of ASCII -/

theorem isFirstByte_of_ascii (hb : b < 0x80) : b.IsUTF8FirstByte := by
  have hall : ∀ n < 0x80, UInt8.ofNat n &&& 0x80 = 0 := by decide
  have h := hall b.toNat hb
  rw [UInt8.ofNat_toNat] at h
  exact Or.inl h

/-- A text may be cut before the first byte of a character. -/
theorem isText_of_firstByte (hb : b.IsUTF8FirstByte) (h : IsText (xs ++ b :: ys)) : IsText xs := by
  obtain ⟨s, hs⟩ := h
  have hlt : (⟨xs.length⟩ : String.Pos.Raw) < s.rawEndPos := by
    rw [String.Pos.Raw.lt_iff, String.byteIdx_rawEndPos, ← length_bytes, ← hs]
    simp
  have hbyte : s.getUTF8Byte ⟨xs.length⟩ hlt = b := by
    have h' : s.toByteArray.data.toList = xs ++ b :: ys := hs.symm
    simp [String.getUTF8Byte, ByteArray.getElem_eq_getElem_data, ← Array.getElem_toList, h']
  refine (isText_before_iff hs.symm).mp (String.Pos.Raw.isValid_iff_isUTF8FirstByte.mpr (Or.inr ⟨hlt, ?_⟩))
  rw [hbyte]
  exact hb

theorem isText_of_cut (hb : b < 0x80) (h : IsText (xs ++ b :: ys)) : IsText xs :=
  isText_of_firstByte (isFirstByte_of_ascii hb) h

/-- The start of a text is a text once its last character is whole, and what that takes is no ASCII. -/
theorem exists_boundary (h : IsText (xs ++ ys)) : ∃ zs, IsText (xs ++ zs) ∧ ∀ z ∈ zs, 0x80 ≤ z := by
  induction ys generalizing xs with
  | nil => exact ⟨[], h, by simp⟩
  | cons y ys ih =>
    by_cases hy : y.IsUTF8FirstByte
    · have hwhole : IsText xs := isText_of_firstByte hy h
      exact ⟨[], by simpa using hwhole, by simp⟩
    · have hhigh : 0x80 ≤ y := UInt8.not_lt.mp fun hlt => hy (isFirstByte_of_ascii hlt)
      have hnext : IsText (xs ++ [y] ++ ys) := by simpa using h
      obtain ⟨zs, htext, hzs⟩ := ih hnext
      exact ⟨y :: zs, by simpa using htext, List.forall_mem_cons.mpr ⟨hhigh, hzs⟩⟩

/-- A byte of ASCII is the one byte of its character. -/
theorem bytes_singleton (hb : b < 0x80) : bytes (String.singleton (Char.ofUInt8 b)) = [b] := by
  have hval : (Char.ofUInt8 b).val = b.toUInt32 := rfl
  have hsize : (Char.ofUInt8 b).utf8Size = 1 := by
    rw [Char.utf8Size_eq_one_iff, hval, UInt32.le_iff_toNat_le]
    exact Nat.le_of_lt_succ (by simpa using UInt8.lt_iff_toNat_lt.mp hb)
  have hbytes : (String.singleton (Char.ofUInt8 b)).toByteArray = [Char.ofUInt8 b].utf8Encode := by simp
  rw [bytes, hbytes, List.utf8Encode_singleton, String.utf8EncodeChar_eq_singleton hsize, hval, UInt8.toUInt8_toUInt32]
  rfl

theorem isText_singleton (hb : b < 0x80) : IsText [b] := ⟨_, (bytes_singleton hb).symm⟩

theorem isText_of_ascii (h : ∀ b ∈ xs, b < 0x80) : IsText xs := by
  induction xs with
  | nil => exact ⟨"", rfl⟩
  | cons b xs ih =>
    exact isText_append (isText_singleton (h b List.mem_cons_self)) (ih fun x hx => h x (List.mem_cons_of_mem _ hx))

end Utf8

/-- A byte that has a meaning to the reader is a byte of ASCII. -/
theorem ascii_of_sign {b : UInt8} (h : Sign.of b ≠ .plain) : b < 0x80 :=
  UInt8.not_le.mp fun hb => h (Sign.of_high hb)

end Cascade
