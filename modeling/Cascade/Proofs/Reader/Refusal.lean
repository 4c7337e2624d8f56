/-
  Cascade.Proofs.Reader.Refusal — what a refused byte may do to a reader, said once. It
  reports nothing (`refused_read`), and it leaves the mode and the rule as they were
  (`kept_of_refuses`):

  - a byte that is refused for itself (`RefusesByte`) leaves the token too;
  - a byte that takes the token (`Takes`) may find that it is none (`RefusesToken`), and
    the token is gone;
  - a second symbol of a combinator stays with the first.

  `step_cases` is the whole of a step: the list of what is accepted, or this list. A run
  is stopped by one refused byte, after which nothing is read (`run_cases`); a reader that
  is fed more goes on from there (`feedAll`), and keeps what every byte keeps, accepted or
  refused (`keeps_feedAll`).
-/

import Cascade.Proofs.Reader.Lines
import Cascade.Proofs.Reader.Step

namespace Cascade.Reader

open Grammar

/-- Selectors are read here, or about to be. -/
def Mode.OfSelectors (m : Mode) : Prop := m = .idle ∨ (∃ part, m = .selector part) ∨ m = .combinator

/-- The byte ends the token, which then becomes text. -/
def Takes (r : Reader) (b : UInt8) : Prop :=
  match r.mode with
  | .selector part => Sign.of b ∈ [.space, .opening, .comma, .joiner, .dot] ∨ (Sign.of b = .hash ∧ part ≠ .id)
  | .combinator => (Sign.of b = .space ∧ r.pending ≠ []) ∨ Sign.of b ∈ [.dot, .hash, .plain]
  | .name => Sign.of b ∈ [.space, .colon]
  | .value => (Sign.of b = .space ∧ r.pending ≠ []) ∨ Sign.of b ∈ [.semicolon, .closing]
  | .idle | .block | .colon | .terminator => False

/-- The byte may not stand here. -/
inductive RefusesByte (r : Reader) (b : UInt8) : Fault → Prop
  | attribute : Mode.OfSelectors r.mode → Sign.of b = .bracket → RefusesByte r b (.unsupported .attributes)
  | pseudo : Mode.OfSelectors r.mode → Sign.of b = .colon → RefusesByte r b (.unsupported .pseudo)
  | leading : r.mode = .idle → Sign.of b = .joiner → RefusesByte r b (.leadingCombinator b)
  | noSelector : r.mode = .idle → Sign.of b ∈ [.opening, .closing, .comma, .semicolon] → RefusesByte r b (.noSelector b)
  | inSelector : Mode.OfSelectors r.mode → r.mode ≠ .idle → Sign.of b ∈ [.closing, .semicolon] →
      RefusesByte r b (.inSelector b)
  | idAfterId : r.mode = .selector .id → Sign.of b = .hash → RefusesByte r b .idAfterId
  | dangling : r.mode = .combinator → r.pending ≠ [] → Sign.of b ∈ [.opening, .comma] →
      RefusesByte r b (.danglingCombinator r.token b)
  | noName : r.mode = .block → Sign.of b ∈ [.opening, .colon] → RefusesByte r b (.noName b)
  | noColon : r.mode = .name → Sign.of b ∈ [.opening, .closing, .semicolon] → RefusesByte r b (.noColon r.token b)
  | afterName : r.mode = .colon → Sign.of b ∉ [.space, .colon] → RefusesByte r b (.afterName b)
  | blockInValue : r.mode = .value → Sign.of b = .opening → RefusesByte r b .blockInValue
  | afterValue : r.mode = .terminator → Sign.of b ∉ [.space, .semicolon, .closing] → RefusesByte r b (.afterValue b)

/-- The token that the byte takes is none. -/
inductive RefusesToken (r : Reader) : Fault → Prop
  | notText : Utf8.decode? r.token = none → RefusesToken r .notText
  | emptyId : r.mode = .selector .id → Utf8.decode? r.token = some "" → RefusesToken r .emptyId
  | emptyClass : r.mode = .selector .className → Utf8.decode? r.token = some "" → RefusesToken r .emptyClass
  | unknownCombinator {text : String} : r.mode = .combinator → Utf8.decode? r.token = some text →
      Combinator.ofToken? text = none → RefusesToken r (.unknownCombinator (Utf8.bytes text))

inductive Refuses (r : Reader) (b : UInt8) : Fault → Reader → Prop
  | byte {f : Fault} : RefusesByte r b f → Refuses r b f r
  | token {f : Fault} : Takes r b → RefusesToken r f → Refuses r b f { r with pending := [] }
  | symbol : r.mode = .combinator → r.pending ≠ [] → Sign.of b = .joiner →
      Refuses r b (.unknownCombinator (r.push b).token) (r.push b)

/-- If the outcome is a fault then nothing was reported, and the byte was refused in one of these ways. -/
def Refused (r : Reader) (b : UInt8) (o : Outcome) : Prop :=
  ∀ f, o.fault? = some f → o.events = [] ∧ Refuses r b f o.reader

variable {r : Reader} {b : UInt8} {part : Part}

/-! ## Moves -/

theorem refused_of_none {o : Outcome} (h : o.fault? = none) : Refused r b o := by
  intro f hf
  rw [h] at hf
  cases hf

theorem refused_byte {f : Fault} (h : RefusesByte r b f) : Refused r b (r.refuse f) := by
  intro g hg
  cases hg
  exact ⟨rfl, .byte h⟩

theorem refused_token {f : Fault} (ht : Takes r b) (h : RefusesToken r f) :
    Refused r b (refuse { r with pending := [] } f) := by
  intro g hg
  cases hg
  exact ⟨rfl, .token ht h⟩

theorem refused_take {next : String → Reader → Outcome} (ht : Takes r b)
    (h : ∀ text, Utf8.decode? r.token = some text → Refused r b (next text { r with pending := [] })) :
    Refused r b (r.take next) := by
  unfold take
  split
  · rename_i text htext
    exact h text htext
  · rename_i hnone
    exact refused_token ht (.notText hnone)

theorem refused_endPart {next : Event → Reader → Outcome} (hm : r.mode = .selector part) (ht : Takes r b)
    (h : ∀ e r, (next e r).fault? = none) : Refused r b (r.endPart part next) := by
  refine refused_take ht fun text htext => ?_
  cases part with
  | tag => exact refused_of_none (h _ _)
  | id =>
    dsimp only
    split
    · rename_i hempty
      rw [String.isEmpty_iff.mp hempty] at htext
      exact refused_token ht (.emptyId hm htext)
    · exact refused_of_none (h _ _)
  | className =>
    dsimp only
    split
    · rename_i hempty
      rw [String.isEmpty_iff.mp hempty] at htext
      exact refused_token ht (.emptyClass hm htext)
    · exact refused_of_none (h _ _)

theorem refused_endCombinator {mode : Mode} {next : Reader → Reader} (hm : r.mode = .combinator) (ht : Takes r b) :
    Refused r b (r.endCombinator mode next) := by
  refine refused_take ht fun text htext => ?_
  split
  · exact refused_of_none rfl
  · rename_i hnone
    exact refused_token ht (.unknownCombinator hm htext hnone)

theorem refused_unsupported (hm : Mode.OfSelectors r.mode) (hs : Sign.of b ∈ [.bracket, .colon]) :
    Refused r b (r.unsupported b) := by
  unfold unsupported
  split
  · rename_i hb
    exact refused_byte (.attribute hm hb)
  · rename_i hb
    exact refused_byte (.pseudo hm (by simpa [hb] using hs))

/-! ## One byte in each mode -/

theorem refused_atIdle (hm : r.mode = .idle) : Refused r b (r.atIdle b) := by
  have hselectors : Mode.OfSelectors r.mode := Or.inl hm
  unfold atIdle
  cases hs : Sign.of b with
  | space | dot | hash | plain => exact refused_of_none rfl
  | bracket | colon => exact refused_unsupported hselectors (by simp [hs])
  | joiner => exact refused_byte (.leading hm hs)
  | opening | closing | comma | semicolon => exact refused_byte (.noSelector hm (by simp [hs]))

theorem refused_atSelector (hm : r.mode = .selector part) : Refused r b (r.atSelector part b) := by
  have hselectors : Mode.OfSelectors r.mode := Or.inr (Or.inl ⟨part, hm⟩)
  unfold atSelector
  cases hs : Sign.of b with
  | space | opening | comma | joiner | dot =>
    exact refused_endPart hm (by simp [Takes, hm, hs]) fun _ _ => rfl
  | hash =>
    dsimp only
    split
    · rename_i hid
      exact refused_byte (.idAfterId (hid ▸ hm) hs)
    · rename_i hid
      exact refused_endPart hm (by simp [Takes, hm, hs, hid]) fun _ _ => rfl
  | bracket | colon => exact refused_unsupported hselectors (by simp [hs])
  | closing | semicolon => exact refused_byte (.inSelector hselectors (by simp [hm]) (by simp [hs]))
  | plain => exact refused_of_none rfl

theorem refused_atCombinator (hm : r.mode = .combinator) : Refused r b (r.atCombinator b) := by
  have hselectors : Mode.OfSelectors r.mode := Or.inr (Or.inr hm)
  unfold atCombinator
  cases hs : Sign.of b with
  | space =>
    dsimp only
    split
    · exact refused_of_none rfl
    · rename_i hp
      exact refused_endCombinator hm (by simpa [Takes, hm, hs] using hp)
  | joiner =>
    dsimp only
    split
    · exact refused_of_none rfl
    · rename_i hp
      intro f hf
      cases hf
      exact ⟨rfl, .symbol hm (by simpa using hp) hs⟩
  | opening | comma =>
    dsimp only
    split
    · exact refused_of_none rfl
    · rename_i hp
      exact refused_byte (.dangling hm (by simpa using hp) (by simp [hs]))
  | dot | hash | plain => exact refused_endCombinator hm (by simp [Takes, hm, hs])
  | bracket | colon => exact refused_unsupported hselectors (by simp [hs])
  | closing | semicolon => exact refused_byte (.inSelector hselectors (by simp [hm]) (by simp [hs]))

theorem refused_atBlock (hm : r.mode = .block) : Refused r b (r.atBlock b) := by
  unfold atBlock
  cases hs : Sign.of b with
  | opening | colon => exact refused_byte (.noName hm (by simp [hs]))
  | _ => exact refused_of_none rfl

theorem refused_atName (hm : r.mode = .name) : Refused r b (r.atName b) := by
  unfold atName
  cases hs : Sign.of b with
  | space | colon => exact refused_take (by simp [Takes, hm, hs]) fun _ _ => refused_of_none rfl
  | opening | closing | semicolon => exact refused_byte (.noColon hm (by simp [hs]))
  | _ => exact refused_of_none rfl

theorem refused_atColon (hm : r.mode = .colon) : Refused r b (r.atColon b) := by
  unfold atColon
  cases hs : Sign.of b with
  | space | colon => exact refused_of_none rfl
  | _ => exact refused_byte (.afterName hm (by simp [hs]))

theorem refused_atValue (hm : r.mode = .value) : Refused r b (r.atValue b) := by
  unfold atValue
  cases hs : Sign.of b with
  | space =>
    dsimp only
    split
    · exact refused_of_none rfl
    · rename_i hp
      exact refused_take (by simpa [Takes, hm, hs] using hp) fun _ _ => refused_of_none rfl
  | semicolon | closing => exact refused_take (by simp [Takes, hm, hs]) fun _ _ => refused_of_none rfl
  | opening => exact refused_byte (.blockInValue hm hs)
  | _ => exact refused_of_none rfl

theorem refused_atTerminator (hm : r.mode = .terminator) : Refused r b (r.atTerminator b) := by
  unfold atTerminator
  cases hs : Sign.of b with
  | space | semicolon | closing => exact refused_of_none rfl
  | _ => exact refused_byte (.afterValue hm (by simp [hs]))

theorem refused_read (r : Reader) (b : UInt8) : Refused r b (r.read b) := by
  unfold read
  cases hm : r.mode with
  | idle => exact refused_atIdle hm
  | selector part => exact refused_atSelector hm
  | combinator => exact refused_atCombinator hm
  | block => exact refused_atBlock hm
  | name => exact refused_atName hm
  | colon => exact refused_atColon hm
  | value => exact refused_atValue hm
  | terminator => exact refused_atTerminator hm

/-- A byte is accepted in one of the ways of the one list, or refused in one of the ways of the other. -/
theorem step_cases (r : Reader) (b : UInt8) :
    ((r.step b).fault? = none ∧ Accepts (r.count b) b (r.step b).events (r.step b).reader) ∨
      ∃ f, (r.step b).fault? = some f ∧ (r.step b).events = [] ∧ Refuses (r.count b) b f (r.step b).reader := by
  cases hf : (r.step b).fault? with
  | none => exact Or.inl ⟨rfl, step_eq_iff.mp (by rw [← hf])⟩
  | some f => exact Or.inr ⟨f, rfl, refused_read (r.count b) b f hf⟩

/-- A refused byte leaves the reader in its mode, and in the rule it was in. -/
theorem kept_of_refuses {r' : Reader} {f : Fault} (h : Refuses r b f r') :
    r'.mode = r.mode ∧ r'.openRule = r.openRule := by
  cases h <;> exact ⟨rfl, rfl⟩

/-- A refused byte stops a run: nothing is reported for it, and what follows has no effect. -/
theorem run_of_refused {before : List UInt8} {f : Fault} (hbefore : (r.run before).fault? = none)
    (h : ((r.run before).reader.step b).fault? = some f) (after : List UInt8) :
    r.run (before ++ b :: after) = ⟨((r.run before).reader.step b).reader, (r.run before).events, some f⟩ := by
  have hevents : ((r.run before).reader.step b).events = [] := (refused_read _ b f h).1
  have hstep : ((r.run before).reader.step b).fault? ≠ none := by simp [h]
  rw [run_append, Outcome.andThen_of_none hbefore, run_cons, Outcome.andThen_of_fault hstep, hevents, List.append_nil,
    ← h]

/-- A run gets to the end of its bytes, or one of them is refused; it has then reported what was read before it. -/
theorem run_cases (r : Reader) (bs : List UInt8) :
    (r.run bs).fault? = none ∨
      ∃ before b after f, bs = before ++ b :: after ∧ (r.run before).fault? = none ∧ (r.run bs).fault? = some f ∧
        (r.run bs).events = (r.run before).events ∧
        Refuses ((r.run before).reader.count b) b f (r.run bs).reader := by
  cases hf : (r.run bs).fault? with
  | none => exact Or.inl rfl
  | some f =>
    have herror : (r.run bs).error? = some ⟨(r.run bs).reader.line, f⟩ := by simp [Outcome.error?, hf]
    obtain ⟨before, b, after, rfl, hbefore, he⟩ := error_run_iff.mp herror
    cases hg : ((r.run before).reader.step b).fault? with
    | none => simp [Outcome.error?, hg] at he
    | some g =>
      rw [run_of_refused hbefore hg] at hf ⊢
      obtain rfl : g = f := Option.some.inj hf
      exact Or.inr ⟨before, b, after, g, rfl, hbefore, rfl, rfl, (refused_read _ b g hg).2⟩

/-! ## Feeds -/

/-- Read chunk after chunk, whether or not one is refused. -/
def feedAll (r : Reader) (chunks : List (List UInt8)) : Reader × List Event :=
  match chunks with
  | [] => (r, [])
  | c :: rest => (((r.run c).reader.feedAll rest).1, (r.run c).events ++ ((r.run c).reader.feedAll rest).2)

section

variable {P : Reader → List Event → Prop} {es : List Event}

theorem keeps_chunk (hstep : ∀ {r es} b, P r es → P (r.step b).reader (es ++ (r.step b).events)) (h : P r es)
    (bs : List UInt8) : P (r.run bs).reader (es ++ (r.run bs).events) := by
  induction bs generalizing r es with
  | nil => simpa using h
  | cons b bs ih =>
    rw [run_cons]
    by_cases hb : (r.step b).fault? = none
    · rw [Outcome.andThen_of_none hb]
      simpa using ih (hstep b h)
    · rw [Outcome.andThen_of_fault hb]
      exact hstep b h

/-- What every byte keeps, accepted or refused, a reader keeps through all that it is fed. -/
theorem keeps_feedAll (hstep : ∀ {r es} b, P r es → P (r.step b).reader (es ++ (r.step b).events)) (h : P r es)
    (chunks : List (List UInt8)) : P (r.feedAll chunks).1 (es ++ (r.feedAll chunks).2) := by
  induction chunks generalizing r es with
  | nil => simpa [feedAll] using h
  | cons c rest ih => simpa [feedAll] using ih (keeps_chunk hstep h c)

end

end Cascade.Reader
