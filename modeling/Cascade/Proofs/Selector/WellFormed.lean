/-
  Cascade.Proofs.Selector.WellFormed — what the chains of a sheet look like. A chain is
  `WellFormed` when it has a subject, every selector asks for something, no text in it holds
  a blank or a sign of the grammar of selectors, and every selector but the last has a
  combinator. The texts are looked at character by character and not as bytes.

  - Whatever the bytes, the host and its memory: every style of a sheet that was read has
    such a chain (`wellFormed_of_read`).
  - No more can be said of these chains: each one that is well formed is read back from its
    text (`chains_built` in Proofs.Selector.Readback).

  The grammar says the same of bytes (`Chain.Writable`). A sign is a byte of ASCII, so it is
  a character of its own, and both come to the same (`wellFormed_iff_writable`).
-/

import Cascade.NameTable
import Cascade.Proofs.Selector.Text
import Cascade.Proofs.Sheet.Reading
import Cascade.Proofs.Text.Cut

namespace Cascade

open Grammar

/-- The four blanks and the signs that are no part of an identifier. -/
def reserved : List Char :=
  [' ', '\t', '\r', '\n', '\x7b', '\x7d', ',', ';', ':', '.', '#', '[', '>', '+', '~']

/-- No character of the text is reserved. -/
def Unreserved (text : String) : Prop := ∀ c ∈ text.toList, c ∉ reserved

/-- Asks for something, and for nothing that could not be written. -/
structure Selector.WellFormed (s : Selector) : Prop where
  asks : s.tag ≠ "" ∨ s.id ≠ "" ∨ s.classes ≠ []
  named : ∀ c ∈ s.classes, c ≠ ""
  tag : Unreserved s.tag
  id : Unreserved s.id
  classes : ∀ c ∈ s.classes, Unreserved c

structure Chain.WellFormed (c : Chain) : Prop where
  nonempty : c.selectors ≠ []
  selectors : ∀ s ∈ c.selectors, s.WellFormed
  subject : ∀ s, c.subject? = some s → s.combinator = .none
  joined : ∀ s ∈ c.selectors.dropLast, s.combinator ∈ [.descendant, .child, .next, .subsequent]

/-! ## Characters and bytes -/

/-- A byte with a meaning is the byte of a reserved character. -/
theorem reserved_of_sign {b : UInt8} (h : Sign.of b ≠ .plain) : Char.ofUInt8 b ∈ reserved := by
  unfold Sign.of at h
  split at h
  case h_16 => exact absurd rfl h
  all_goals decide

theorem sign_of_reserved {c : Char} (h : c ∈ reserved) : ∃ b, c = Char.ofUInt8 b ∧ Sign.of b ≠ .plain := by
  have hall : (reserved.all fun c => c = Char.ofUInt8 c.toUInt8 ∧ Sign.of c.toUInt8 ≠ .plain) = true := by decide
  exact ⟨c.toUInt8, of_decide_eq_true (List.all_eq_true.mp hall c h)⟩

/-- The bytes of a text, cut around one of its characters. -/
theorem bytes_around {text : String} {c : Char} (h : c ∈ text.toList) :
    ∃ before after, Utf8.bytes text = before ++ Utf8.bytes (String.singleton c) ++ after := by
  obtain ⟨xs, ys, hcut⟩ := List.append_of_mem h
  have htext : text = String.ofList xs ++ String.singleton c ++ String.ofList ys := by
    apply String.toList_inj.mp
    simp [hcut]
  refine ⟨Utf8.bytes (String.ofList xs), Utf8.bytes (String.ofList ys), ?_⟩
  rw [htext, Utf8.bytes_append, Utf8.bytes_append]

/-- A byte of ASCII in a text is a character of it. -/
theorem mem_of_ascii {text : String} {b : UInt8} (hb : b < 0x80) (h : b ∈ Utf8.bytes text) :
    Char.ofUInt8 b ∈ text.toList := by
  obtain ⟨xs, ys, hcut⟩ := List.append_of_mem h
  have htext : Utf8.IsText (xs ++ b :: ys) := ⟨text, hcut.symm⟩
  have hbefore : Utf8.IsText xs := Utf8.isText_of_cut hb htext
  have hfrom : Utf8.IsText ([b] ++ ys) := (Utf8.isText_append_iff hbefore).mp htext
  have hafter : Utf8.IsText ys := (Utf8.isText_append_iff (Utf8.isText_singleton hb)).mp hfrom
  obtain ⟨s, rfl⟩ := hbefore
  obtain ⟨t, rfl⟩ := hafter
  have heq : text = s ++ String.singleton (Char.ofUInt8 b) ++ t := by
    apply Utf8.bytes_inj.mp
    rw [hcut, Utf8.bytes_append, Utf8.bytes_append, Utf8.bytes_singleton hb, List.append_assoc]
    rfl
  rw [heq]
  simp

/-- A text without reserved characters is one whose bytes are all plain. -/
theorem unreserved_iff {text : String} : Unreserved text ↔ ∀ b ∈ Utf8.bytes text, Sign.of b = .plain := by
  constructor
  · intro h b hb
    by_contra hsign
    exact h _ (mem_of_ascii (ascii_of_sign hsign) hb) (reserved_of_sign hsign)
  · intro h c hc hreserved
    obtain ⟨b, rfl, hsign⟩ := sign_of_reserved hreserved
    obtain ⟨before, after, hbytes⟩ := bytes_around hc
    rw [Utf8.bytes_singleton (ascii_of_sign hsign)] at hbytes
    exact hsign (h b (by simp [hbytes]))

theorem unreserved_empty : Unreserved "" := by intro c hc; cases hc

theorem ident_iff {text : String} : Ident text ↔ text ≠ "" ∧ Unreserved text := by
  rw [unreserved_iff]
  rfl

/-- A text that may be left out is an identifier where it is not. -/
theorem empty_or_ident_iff {text : String} : text = "" ∨ Ident text ↔ Unreserved text := by
  rw [ident_iff]
  constructor
  · intro h
    rcases h with rfl | ⟨-, h⟩
    · exact unreserved_empty
    · exact h
  · intro h
    by_cases hempty : text = ""
    · exact Or.inl hempty
    · exact Or.inr ⟨hempty, h⟩

/-! ## Well formed and writable -/

variable {s : Selector} {c : Chain}

theorem asks_iff : (s.tag ≠ "" ∨ s.id ≠ "" ∨ s.classes ≠ []) ↔ s.isEmpty = false := by
  simp only [Selector.isEmpty, Bool.and_eq_false_iff, String.isEmpty_eq_false_iff, List.isEmpty_eq_false_iff, or_assoc]

theorem Selector.wellFormed_iff_writable : s.WellFormed ↔ s.Writable := by
  constructor
  · intro h
    exact ⟨asks_iff.mp h.asks, empty_or_ident_iff.mpr h.tag, empty_or_ident_iff.mpr h.id,
      fun x hx => ident_iff.mpr ⟨h.named x hx, h.classes x hx⟩⟩
  · intro h
    exact ⟨asks_iff.mpr h.nonempty, fun x hx => (h.classes x hx).1, empty_or_ident_iff.mp h.tag,
      empty_or_ident_iff.mp h.id, fun x hx => (ident_iff.mp (h.classes x hx)).2⟩

/-- A combinator that is not `none` is one of the four others. -/
theorem ne_none_iff {k : Combinator} : k ≠ .none ↔ k ∈ [.descendant, .child, .next, .subsequent] := by
  cases k <;> decide

theorem Chain.wellFormed_iff_writable : c.WellFormed ↔ c.Writable := by
  constructor
  · intro h
    obtain ⟨outer, subject, hc⟩ : ∃ outer subject, c.selectors = outer ++ [subject] :=
      ⟨_, _, (List.dropLast_append_getLast h.nonempty).symm⟩
    have hselectors := h.selectors
    have hsubject := h.subject
    have hjoined := h.joined
    rw [Chain.subject?, hc, List.getLast?_concat] at hsubject
    rw [hc, List.dropLast_concat] at hjoined
    rw [hc] at hselectors
    refine ⟨outer, subject, hc, fun s hs => ⟨?_, ne_none_iff.mpr (hjoined s hs)⟩, ?_, hsubject subject rfl⟩
    · exact Selector.wellFormed_iff_writable.mp (hselectors s (List.mem_append_left _ hs))
    · exact Selector.wellFormed_iff_writable.mp (hselectors subject (by simp))
  · intro h
    obtain ⟨outer, subject, hc, houter, hsubject, hnone⟩ := h
    refine ⟨by simp [hc], fun s hs => Selector.wellFormed_iff_writable.mpr ?_, fun s hs => ?_, fun s hs => ?_⟩
    · rw [hc] at hs
      rcases List.mem_append.mp hs with hs | hs
      · exact (houter s hs).1
      · rw [List.mem_singleton.mp hs]
        exact hsubject
    · rw [Chain.subject?, hc, List.getLast?_concat] at hs
      rw [← Option.some.inj hs]
      exact hnone
    · rw [hc, List.dropLast_concat] at hs
      exact ne_none_iff.mp (houter s hs).2

instance (s : Selector) : Decidable s.WellFormed :=
  decidable_of_iff (s.isEmpty = false ∧ (s.tag = "" ∨ Ident s.tag) ∧ (s.id = "" ∨ Ident s.id) ∧ ∀ c ∈ s.classes, Ident c) <|
    .trans ⟨fun h => ⟨h.1, h.2.1, h.2.2.1, h.2.2.2⟩, fun h => ⟨h.1, h.2, h.3, h.4⟩⟩ Selector.wellFormed_iff_writable.symm

instance (c : Chain) : Decidable c.WellFormed :=
  decidable_of_iff (c.selectors ≠ [] ∧ (∀ s ∈ c.selectors, s.WellFormed) ∧ (∀ s ∈ c.subject?, s.combinator = .none) ∧
      ∀ s ∈ c.selectors.dropLast, s.combinator ∈ [.descendant, .child, .next, .subsequent])
    ⟨fun h => ⟨h.1, h.2.1, h.2.2.1, h.2.2.2⟩, fun h => ⟨h.1, h.2, h.3, h.4⟩⟩

/-! ## The chains of a sheet -/

namespace Sheet

variable {σ V : Type} {host : Host σ V} {memory : σ} {supply : Supply} {source : List Reply} {S : Sheet V}

/-- Every chain of a sheet that was read is the chain of a rule in its text. -/
theorem writable_of_read (h : (read host memory supply source).result = .ok S) : ∀ x ∈ S.styles, x.chain.Writable := by
  obtain ⟨-, rs, htext, rfl⟩ := (read_eq_ok_iff host).mp h
  intro x hx
  obtain ⟨-, rule, hrule, ⟨c, hc, hchain⟩, -⟩ := mem_made ((perm_ofStyles _).mem_iff.mp hx)
  obtain ⟨q, hq⟩ := (parts_of_sheet htext rule hrule).1 c hc
  rw [hchain]
  exact writable_chain hq

/-- Every chain of a sheet that was read is well formed. -/
theorem wellFormed_of_read (h : (read host memory supply source).result = .ok S) :
    ∀ x ∈ S.styles, x.chain.WellFormed :=
  fun x hx => Chain.wellFormed_iff_writable.mpr (writable_of_read h x hx)

/-- Two chains of one rule, of which the second is cut inside a character. -/
def cutReplies : List Reply :=
  [.bytes (Utf8.bytes "a#b.c ~d ,\n.x."), .bytes [0xC3], .interrupted, .bytes [0xBC], .bytes (Utf8.bytes ">*\x7b\x7d")]

def cutChains : Sheet String where
  styles :=
    [Style.of ⟨[{ tag := "a", id := "b", classes := ["c"], combinator := .subsequent }, { tag := "d" }]⟩ ⟨0, .empty⟩ 0,
      Style.of ⟨[{ classes := ["x", "ü"], combinator := .child }, { tag := "*" }]⟩ ⟨0, .empty⟩ 1]

theorem wellFormed_of_read_cutReplies :
    (read NameTable.host {} {} cutReplies).result = .ok cutChains ∧ ∀ x ∈ cutChains.styles, x.chain.WellFormed := by
  have hread : (read NameTable.host {} {} cutReplies).result = .ok cutChains := by
    have hsort : ofStyles cutChains.styles = cutChains := sort_eq (by decide)
    rw [← hsort]
    rfl
  exact ⟨hread, wellFormed_of_read hread⟩

end Sheet

end Cascade
