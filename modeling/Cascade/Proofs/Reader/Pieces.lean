/-
  Cascade.Proofs.Reader.Pieces — what a reader quotes of a text. The input is bytes and may
  be cut anywhere, also inside a character, and a token becomes text only when it is taken.
  If the input as a whole is a text, no token is refused as bytes that are none, and the
  strings reported stand in the text, each after the one before it (`quotes_text`).

  - `Pieces ts s` says that `s` is made of the strings `ts`, in order, and of what stands
    before, between and after them. As all of these are strings, each piece begins and ends
    between two characters.
  - `Cut bs p es` is what every accepted byte keeps: up to the token the bytes are a text of
    which the strings reported are pieces. Nothing is asked of the token: where it is taken
    it has been decoded, and else it only grows.
  - The bytes after the token are asked for where one is refused: what takes a token is a
    sign, and a text may be cut before a sign. Only a combinator is also taken by a byte
    that is none, the first one of a tag, but then the token is made of signs (`Holds`).
-/

import Cascade.Proofs.Reader.Language
import Cascade.Proofs.Reader.Token
import Cascade.Proofs.Text.Cut

namespace Cascade.Reader

open Grammar

/-- The text that an event quotes. -/
def quote? : Event → Option String
  | .tag text | .id text | .className text | .name text | .value text => some text
  | .combinator _ | .selectorEnd | .chainEnd | .blockEnd => none

def quoted (es : List Event) : List String := es.filterMap quote?

/-- The strings stand in the text, one after the other. -/
inductive Pieces : List String → String → Prop
  | nil (rest : String) : Pieces [] rest
  | cons {ts : List String} {rest : String} (gap t : String) : Pieces ts rest → Pieces (t :: ts) (gap ++ t ++ rest)

def Cut (bs p : List UInt8) (es : List Event) : Prop :=
  ∃ before, bs = Utf8.bytes before ++ p.reverse ∧ Pieces (quoted es) before

variable {r r' : Reader} {b : UInt8} {bs p rest : List UInt8} {es fs : List Event} {s t text : String} {ts : List String}

/-! ## Pieces -/

@[simp] theorem quoted_append (es fs : List Event) : quoted (es ++ fs) = quoted es ++ quoted fs := by
  simp [quoted]

theorem quoted_component (c : Component) (fs : List Event) : quoted (c.event :: fs) = c.text :: quoted fs := by
  obtain ⟨part, text⟩ := c
  cases part <;> rfl

theorem pieces_append (h : Pieces ts s) (t : String) : Pieces ts (s ++ t) := by
  induction h with
  | nil rest => exact .nil _
  | cons gap u _ ih => simpa [String.append_assoc] using Pieces.cons gap u ih

theorem pieces_snoc (h : Pieces ts s) (t : String) : Pieces (ts ++ [t]) (s ++ t) := by
  induction h with
  | nil rest => simpa using Pieces.cons rest t (.nil "")
  | cons gap u _ ih => simpa [String.append_assoc] using Pieces.cons gap u ih

/-! ## One byte further -/

theorem cut_start : Cut [] [] [] := ⟨"", rfl, .nil ""⟩

/-- A byte that is added to the token. -/
theorem cut_push (h : Cut bs p es) (b : UInt8) : Cut (bs ++ [b]) (b :: p) es := by
  obtain ⟨before, rfl, hpieces⟩ := h
  exact ⟨before, by simp, hpieces⟩

/-- A byte that stands between two tokens. -/
theorem cut_pass (h : Cut bs [] es) (hb : b < 0x80) : Cut (bs ++ [b]) [] es := by
  obtain ⟨before, rfl, hpieces⟩ := h
  obtain ⟨t, ht⟩ := Utf8.isText_singleton hb
  exact ⟨before ++ t, by simp [ht], pieces_append hpieces t⟩

/-- The token is taken and reported. -/
theorem cut_quote (h : Cut bs p es) (ht : Utf8.decode? p.reverse = some text) (hf : quoted fs = [text]) :
    Cut bs [] (es ++ fs) := by
  obtain ⟨before, rfl, hpieces⟩ := h
  refine ⟨before ++ text, by simp [Utf8.decode?_eq_some_iff.mp ht], ?_⟩
  rw [quoted_append, hf]
  exact pieces_snoc hpieces text

/-- The token is taken, and not quoted. -/
theorem cut_drop (h : Cut bs p es) (ht : Utf8.decode? p.reverse = some text) : Cut bs [] es := by
  obtain ⟨before, rfl, hpieces⟩ := h
  exact ⟨before ++ text, by simp [Utf8.decode?_eq_some_iff.mp ht], pieces_append hpieces text⟩

/-- Events that quote nothing. -/
theorem cut_report (h : Cut bs p es) (hf : quoted fs = []) : Cut bs p (es ++ fs) := by
  obtain ⟨before, hbytes, hpieces⟩ := h
  exact ⟨before, hbytes, by rwa [quoted_append, hf, List.append_nil]⟩

theorem ascii_of_eq {sign : Sign} (h : Sign.of b = sign) (hs : sign ≠ .plain) : b < 0x80 :=
  ascii_of_sign (h ▸ hs)

theorem ascii_of_marks {part : Part} (h : Marks b part) : b < 0x80 := by
  cases h with
  | id h | className h => exact ascii_of_eq h (by simp)

theorem cut_accepts (hh : Holds r.mode r.pending) (h : Cut bs r.pending es) (ha : Accepts r b fs r') :
    Cut (bs ++ [b]) r'.pending (es ++ fs) := by
  cases ha with
  | idleSpace hb | blockSpace hb | blockSemicolon hb | blockClosing hb | colonSpace hb | colonColon hb
  | terminatorSpace hb | terminatorSemicolon hb | terminatorClosing hb =>
    -- the token is empty in these modes
    cases hh
    exact cut_report (cut_pass h (ascii_of_eq hb (by simp))) rfl
  | idleMark hm =>
    cases hh
    exact cut_report (cut_pass h (ascii_of_marks hm)) rfl
  | combinatorSpace hb | combinatorComma hb | combinatorOpening hb | valueSpace hb =>
    exact cut_report (cut_pass h (ascii_of_eq hb (by simp))) rfl
  | idleTag | partPlain | combinatorJoiner | blockName | nameByte | valueByte =>
    exact cut_report (cut_push h b) rfl
  | partMark hm _ ht _ => exact cut_pass (cut_quote h ht (quoted_component _ _)) (ascii_of_marks hm)
  | partSpace hb ht _ | partComma hb ht _ | partOpening hb ht _ =>
    exact cut_pass (cut_quote h ht (quoted_component _ _)) (ascii_of_eq hb (by simp))
  | partJoiner _ ht _ => exact cut_push (cut_quote h ht (quoted_component _ _)) b
  | combinatorEnd hb _ ht _ => exact cut_report (cut_pass (cut_drop h ht) (ascii_of_eq hb (by simp))) rfl
  | combinatorMark hm ht _ => exact cut_report (cut_pass (cut_drop h ht) (ascii_of_marks hm)) rfl
  | combinatorTag _ ht _ => exact cut_report (cut_push (cut_drop h ht) b) rfl
  | nameSpace hb ht | nameColon hb ht | valueSemicolon hb ht | valueClosing hb ht | valueEnd hb _ ht =>
    exact cut_pass (cut_quote h ht rfl) (ascii_of_eq hb (by simp))

/-! ## Runs -/

/-- What a reader keeps of the text that it reads. -/
def Quotes (r : Reader) (bs : List UInt8) (es : List Event) : Prop := Holds r.mode r.pending ∧ Cut bs r.pending es

theorem quotes_start : Quotes {} [] [] := ⟨holds_nil _, cut_start⟩

theorem quotes_count (h : Quotes r bs es) (b : UInt8) : Quotes (r.count b) bs es := by
  rw [count_eq]
  exact h

theorem quotes_step (h : Quotes r bs es) (ha : Accepts (r.count b) b fs r') : Quotes r' (bs ++ [b]) (es ++ fs) := by
  obtain ⟨hholds, hcut⟩ := quotes_count h b
  exact ⟨holds_accepts hholds ha, cut_accepts hholds hcut ha⟩

theorem quotes_run (h : (({} : Reader).run bs).fault? = none) :
    Quotes (({} : Reader).run bs).reader bs (({} : Reader).run bs).events :=
  keeps_run quotes_step quotes_start (by rw [← h])

/-- What has been quoted of the start of a text stands in the text. -/
theorem pieces_of_cut (h : Cut bs p es) (hs : Utf8.bytes s = bs ++ rest) : Pieces (quoted es) s := by
  obtain ⟨before, rfl, hpieces⟩ := h
  rw [List.append_assoc] at hs
  obtain ⟨after, ha⟩ := (Utf8.isText_append_iff (Utf8.isText_bytes before)).mp ⟨s, hs.symm⟩
  have he : s = before ++ after := Utf8.bytes_inj.mp (by rw [hs, ha, Utf8.bytes_append])
  exact he ▸ pieces_append hpieces after

/-- A token that is taken inside a text is a text. -/
theorem isText_of_takes (h : Quotes r bs es) (hs : Utf8.bytes s = bs ++ b :: rest) (ht : Takes r b) :
    Utf8.IsText r.token := by
  obtain ⟨hholds, before, rfl, -⟩ := h
  have hcut : b < 0x80 → Utf8.IsText r.token := by
    intro hb
    rw [List.append_assoc] at hs
    exact Utf8.isText_of_cut hb ((Utf8.isText_append_iff (Utf8.isText_bytes before)).mp ⟨s, hs.symm⟩)
  have hsign : ∀ signs : List Sign, .plain ∉ signs → Sign.of b ∈ signs → Utf8.IsText r.token :=
    fun signs hp hb => hcut (ascii_of_sign fun e => hp (e ▸ hb))
  unfold Takes at ht
  cases hm : r.mode with
  | idle | block | colon | terminator => simp [hm] at ht
  | combinator =>
    rw [hm] at hholds
    refine Utf8.isText_of_ascii fun x hx => ?_
    exact ascii_of_eq (hholds x (List.mem_reverse.mp hx)) (by simp)
  | selector part =>
    simp only [hm] at ht
    rcases ht with hb | ⟨hb, -⟩
    · exact hsign _ (by decide) hb
    · exact hcut (ascii_of_eq hb (by simp))
  | name =>
    simp only [hm] at ht
    exact hsign _ (by decide) ht
  | value =>
    simp only [hm] at ht
    rcases ht with ⟨hb, -⟩ | hb
    · exact hcut (ascii_of_eq hb (by simp))
    · exact hsign _ (by decide) hb

theorem notText_of_refuses (h : Refuses r b .notText r') : Takes r b ∧ Utf8.decode? r.token = none := by
  cases h with
  | byte hb => cases hb
  | token ht hb =>
    cases hb with
    | notText hnone => exact ⟨ht, hnone⟩

theorem endFault?_ne_notText (r : Reader) : r.endFault? ≠ some .notText := by
  unfold endFault?
  split
  · simp
  · split <;> simp

theorem ended_fault?_ne_notText {o : Outcome} (h : o.fault? ≠ some .notText) : o.ended.fault? ≠ some .notText := by
  unfold Outcome.ended Outcome.andThen
  cases hf : o.fault? with
  | none => exact endFault?_ne_notText o.reader
  | some f => simpa [hf] using h

theorem run_quotes_text (h : bs = Utf8.bytes s) :
    (({} : Reader).run bs).fault? ≠ some .notText ∧ Pieces (quoted (({} : Reader).run bs).events) s := by
  rcases run_cases {} bs with hnone | ⟨before, b, after, f, rfl, hbefore, hfault, hevents, hrefuses⟩
  · have hs : Utf8.bytes s = bs ++ [] := by rw [List.append_nil, h]
    exact ⟨by simp [hnone], pieces_of_cut (quotes_run hnone).2 hs⟩
  · have hquotes := quotes_run hbefore
    refine ⟨fun hnot => ?_, hevents ▸ pieces_of_cut hquotes.2 h.symm⟩
    obtain rfl : f = .notText := by simpa [hfault] using hnot
    obtain ⟨htakes, hnone⟩ := notText_of_refuses hrefuses
    have htext := isText_of_takes (quotes_count hquotes b) h.symm htakes
    obtain ⟨text, ht⟩ := Utf8.decode?_of_isText htext
    rw [ht] at hnone
    cases hnone

/-- No cut of a text into chunks makes a reader take it for bytes that are no text, and what the reader
    reports is pieces of the text, from left to right. -/
theorem quotes_text {chunks : List (List UInt8)} (h : chunks.flatten = Utf8.bytes s) :
    (({} : Reader).runAll chunks).ended.fault? ≠ some .notText ∧
      Pieces (quoted (({} : Reader).runAll chunks).ended.events) s := by
  rw [ended_events, runAll_eq]
  obtain ⟨hfault, hpieces⟩ := run_quotes_text h
  exact ⟨ended_fault?_ne_notText hfault, hpieces⟩

/-- A sheet in two chunks that cut a character. -/
def cutInside : List (List UInt8) := [[0x67, 0x2E, 0xC3], [0xBC, 0x7B, 0x7D]]

theorem quotes_text_cutInside :
    cutInside.flatten = Utf8.bytes "g.ü\x7b\x7d" ∧
      (({} : Reader).runAll cutInside).ended.fault? ≠ some .notText ∧
      Pieces (quoted (({} : Reader).runAll cutInside).ended.events) "g.ü\x7b\x7d" ∧
      quoted (({} : Reader).runAll cutInside).ended.events = ["g", "ü"] := by
  have hbytes : cutInside.flatten = Utf8.bytes "g.ü\x7b\x7d" := by decide
  obtain ⟨hfault, hpieces⟩ := quotes_text hbytes
  exact ⟨hbytes, hfault, hpieces, by decide⟩

end Cascade.Reader
