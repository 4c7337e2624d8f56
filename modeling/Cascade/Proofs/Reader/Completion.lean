/-
  Cascade.Proofs.Reader.Completion — a reader finds a fault as early as it can be found.
  Bytes are `Live` when some bytes after them make an input that is accepted. A reader that
  has got to the end of the start of a text can always be given what is missing
  (`sheet_of_stands_text`), whatever it is in the middle of:

      before or inside a selector   the rest of a character, `a` and an empty block
      after a selector              an empty block
      in a block                    the closing brace
      in a name                     the rest of a character, a colon and the closing brace
      in a value                    the rest of a character and the closing brace

  The `a` makes an id or a class of a mark that has no text yet. So of a text exactly the
  starts that are live are read without a fault, and the byte refused is the first after
  which nothing could be accepted any more (`stops_at_first_dead`). Bytes that are no text
  are another matter: they are found only when their token is taken.
-/

import Cascade.Proofs.Reader.Pieces

namespace Cascade.Reader

open Grammar

variable {r : Reader} {b : UInt8} {bs p rest w : List UInt8} {es : List Event} {text : String}

/-! ## What ends a rule -/

/-- After a selector an empty block ends the rule. -/
theorem sheet_of_selector {pl : Place} {s : List Component} (h : pl.Spells bs) (hs : IsSelector s) (hw : Blank w) :
    ∃ rs, SheetText (bs ++ selectorBytes s ++ w ++ [0x7B, 0x7D]) rs := by
  obtain ⟨p, q, hp, hq, e⟩ := Place.head_of_spells h hs hw
  have hspot : Spot.Spells ⟨pl.rules, (pl.next s).chains, []⟩ (p ++ q ++ [0x7B]) := .mk hp hq (.first blank_nil)
  have hsheet := Spot.sheet_of_closing (Spot.ends_of_spells hspot)
  rw [e]
  exact ⟨_, by simpa using hsheet⟩

/-- Before a selector it is enough to write one. -/
theorem sheet_of_place {pl : Place} (h : pl.Spells bs) : ∃ rs, SheetText (bs ++ [0x61, 0x7B, 0x7D]) rs := by
  have hsel : IsSelector [⟨.tag, "a"⟩] := ⟨by simp, by decide, List.isChain_singleton _⟩
  obtain ⟨rs, hsheet⟩ := sheet_of_selector h hsel blank_nil
  have hbytes : selectorBytes [⟨.tag, "a"⟩] = [0x61] := rfl
  rw [hbytes] at hsheet
  exact ⟨rs, by simpa using hsheet⟩

theorem sheet_of_spot {sp : Spot} (h : sp.Ends bs) : ∃ rs, SheetText (bs ++ [0x7D]) rs :=
  ⟨_, Spot.sheet_of_closing h⟩

/-! ## What ends a token -/

/-- A token that is the start of a text is a text once its last character is whole, and its bytes are then of
    the kind that they were. -/
theorem exists_token {P : UInt8 → Prop} (hP : ∀ x, Sign.of x = .plain → P x) (hp : ∀ x ∈ p, P x)
    (h : Utf8.IsText (p.reverse ++ rest)) :
    ∃ tail word, p.reverse ++ tail = Utf8.bytes word ∧ ∀ x ∈ Utf8.bytes word, P x := by
  obtain ⟨tail, htext, htail⟩ := Utf8.exists_boundary h
  obtain ⟨word, hword⟩ := htext
  refine ⟨tail, word, hword, fun x hx => ?_⟩
  rw [← hword] at hx
  rcases List.mem_append.mp hx with hx | hx
  · exact hp x (List.mem_reverse.mp hx)
  · exact hP x (Sign.of_high (htail x hx))

theorem nameByte_of_plain (h : Sign.of b = .plain) : NameByte b := by simp [NameByte, h]

theorem valueByte_of_plain (h : Sign.of b = .plain) : ValueByte b := by simp [ValueByte, h]

/-- With one more letter every text of plain bytes is an identifier. -/
theorem ident_letter {word : String} (h : ∀ x ∈ Utf8.bytes word, Sign.of x = .plain) : Ident (word ++ "a") := by
  have hletter : Utf8.bytes (word ++ "a") = Utf8.bytes word ++ [0x61] := Utf8.bytes_append word "a"
  refine ⟨fun e => ?_, fun x hx => ?_⟩
  · rw [e] at hletter
    simp at hletter
  · rw [hletter] at hx
    rcases List.mem_append.mp hx with hx | hx
    · exact h x hx
    · rw [List.mem_singleton.mp hx]
      rfl

/-! ## What is missing -/

/-- Wherever a reader stands in the start of a text, some bytes end the sheet. -/
theorem sheet_of_stands_text (h : Stands r bs es) (ht : Utf8.IsText (r.token ++ rest)) :
    ∃ missing rs, SheetText (bs ++ missing) rs := by
  cases h with
  | idle hidle => exact ⟨_, sheet_of_place (spells_of_atIdle hidle)⟩
  | @part pl part _ bs p s hpl hs hf hp _ =>
    obtain ⟨tail, word, hword, hplain⟩ := exists_token (fun _ => id) hp ht
    have hident : Ident (word ++ "a") := ident_letter hplain
    have hsel : IsSelector (s ++ [⟨part, word ++ "a"⟩]) := by
      refine ⟨by simp, fun c hc => ?_, by simpa using hf⟩
      rcases List.mem_append.mp hc with hc | hc
      · exact hs c hc
      · rw [List.mem_singleton.mp hc]
        exact hident
    obtain ⟨rs, hsheet⟩ := sheet_of_selector hpl hsel blank_nil
    have hletter : Utf8.bytes "a" = [0x61] := rfl
    exact ⟨tail ++ [0x61, 0x7B, 0x7D], rs, by simpa [Component.bytes, ← hword, hletter] using hsheet⟩
  | after hpl hs hw _ => exact ⟨_, sheet_of_selector hpl hs hw⟩
  | symbol hpl hs hv hsym => exact ⟨_, sheet_of_place (Place.spells_join hpl hs (.symbol hv hsym blank_nil))⟩
  | block hsp => exact ⟨_, sheet_of_spot (Spot.ends_of_spells hsp)⟩
  | @name sp _ bs p hsp hne hp =>
    obtain ⟨tail, word, hword, hbytes⟩ := exists_token (fun _ => nameByte_of_plain) hp ht
    have hname : Name word := by
      refine ⟨fun e => ?_, hbytes⟩
      rw [e] at hword
      exact hne (by simpa using (List.append_eq_nil_iff.mp hword).1)
    have hvalue : Value "" := by intro x hx; cases hx
    obtain ⟨rs, hsheet⟩ := sheet_of_spot (Spot.ends_declare hsp hname blank_nil blank_nil hvalue blank_nil)
    exact ⟨tail ++ [0x3A, 0x7D], rs, by simpa [← hword] using hsheet⟩
  | @colon sp _ bs v name hsp hn hv =>
    have hvalue : Value "" := by intro x hx; cases hx
    obtain ⟨rs, hsheet⟩ := sheet_of_spot (Spot.ends_declare hsp hn hv blank_nil hvalue blank_nil)
    exact ⟨[0x3A, 0x7D], rs, by simpa using hsheet⟩
  | @value sp _ bs v w p name hsp hn hv hw hp =>
    obtain ⟨tail, word, hword, hbytes⟩ := exists_token (fun _ => valueByte_of_plain) hp ht
    obtain ⟨rs, hsheet⟩ := sheet_of_spot (Spot.ends_declare hsp hn hv hw hbytes blank_nil)
    exact ⟨tail ++ [0x7D], rs, by simpa [← hword] using hsheet⟩
  | terminator hsp hn hv hw hval hx => exact ⟨_, sheet_of_spot (Spot.ends_declare hsp hn hv hw hval hx)⟩

/-! ## Live and dead -/

/-- Some bytes after these make an input that is accepted. -/
def Live (bs : List UInt8) : Prop := ∃ missing, (({} : Reader).run (bs ++ missing)).ended.fault? = none

/-- What is live is read without a fault. -/
theorem run_of_live (h : Live bs) : (({} : Reader).run bs).fault? = none := by
  obtain ⟨missing, haccepted⟩ := h
  exact fault_of_append (ended_fault?_eq_none_iff.mp haccepted).1

/-- The token of a reader in a text goes on to a text. -/
theorem token_of_quotes (h : Quotes r bs es) (hs : bs ++ rest = Utf8.bytes text) : Utf8.IsText (r.token ++ rest) := by
  obtain ⟨-, before, rfl, -⟩ := h
  rw [List.append_assoc] at hs
  exact (Utf8.isText_append_iff (Utf8.isText_bytes before)).mp ⟨text, hs⟩

/-- The start of a text that is read without a fault is live. -/
theorem live_of_run (hs : bs ++ rest = Utf8.bytes text) (h : (({} : Reader).run bs).fault? = none) : Live bs := by
  obtain ⟨missing, rs, hsheet⟩ := sheet_of_stands_text (stands_of_run h) (token_of_quotes (quotes_run h) hs)
  exact ⟨missing, (accepted_of_sheet hsheet).1⟩

theorem live_iff (hs : bs ++ rest = Utf8.bytes text) : (({} : Reader).run bs).fault? = none ↔ Live bs :=
  ⟨live_of_run hs, run_of_live⟩

/-- Of a text exactly the starts that are live are read, and a run is stopped by the first byte after which
    nothing could be accepted. -/
theorem stops_at_first_dead (hs : bs ++ rest = Utf8.bytes text) :
    ((({} : Reader).run bs).fault? = none ↔ Live bs) ∧
      ∀ before b after, bs = before ++ b :: after →
        ((({} : Reader).run bs).fault? ≠ none ∧ ({} : Reader).taken bs = before ++ [b] ↔
          Live before ∧ ¬ Live (before ++ [b])) := by
  refine ⟨live_iff hs, ?_⟩
  rintro before b after rfl
  have hbefore : before ++ (b :: after ++ rest) = Utf8.bytes text := by simpa using hs
  have hbyte : before ++ [b] ++ (after ++ rest) = Utf8.bytes text := by simpa using hs
  rw [stops_at_iff, live_iff hbefore, ← live_iff hbyte]

/-- A text that is dead from its second joiner on. -/
def twoJoiners : List UInt8 := [0x2E, 0xC3, 0xBC, 0x3E, 0x3E, 0x62]

/-- Cut inside a character it is live. -/
theorem stops_at_first_dead_twoJoiners :
    twoJoiners = Utf8.bytes ".ü>>b" ∧ Live [0x2E, 0xC3] ∧ Live [0x2E, 0xC3, 0xBC, 0x3E] ∧
      ¬ Live [0x2E, 0xC3, 0xBC, 0x3E, 0x3E] := by
  have htext : twoJoiners = Utf8.bytes ".ü>>b" := by decide
  have hstart : [0x2E, 0xC3] ++ [0xBC, 0x3E, 0x3E, 0x62] = Utf8.bytes ".ü>>b" := htext
  have hwhole : twoJoiners ++ [] = Utf8.bytes ".ü>>b" := htext
  obtain ⟨-, hdead⟩ := stops_at_first_dead hwhole
  have hstop := (hdead [0x2E, 0xC3, 0xBC, 0x3E] 0x3E [0x62] rfl).mp ⟨by decide, by decide⟩
  exact ⟨htext, (stops_at_first_dead hstart).1.mp (by decide), hstop⟩

end Cascade.Reader
