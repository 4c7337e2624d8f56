/-
  Cascade.Proofs.Reader.Step — what one byte may do to a reader, said once. `Accepts`
  lists every way in which a byte is not refused, one constructor for each; a line end
  has already been counted. `step_eq_iff` says that there are no others, so what a
  reader keeps is proved by going through the list and never by opening a mode.
-/

import Cascade.Proofs.Grammar

namespace Cascade.Reader

open Grammar

/-- A part of this kind may end with this text. -/
def MayEnd (part : Part) (text : String) : Prop := part ≠ .tag → text ≠ ""

/-- The byte that starts an id or a class. -/
inductive Marks (b : UInt8) : Part → Prop
  | id : Sign.of b = .hash → Marks b .id
  | className : Sign.of b = .dot → Marks b .className

inductive Accepts : Reader → UInt8 → List Event → Reader → Prop
  | idleSpace {p l o b} : Sign.of b = .space → Accepts ⟨.idle, p, l, o⟩ b [] ⟨.idle, p, l, o⟩
  | idleMark {p l o b part} : Marks b part → Accepts ⟨.idle, p, l, o⟩ b [] ⟨.selector part, p, l, true⟩
  | idleTag {p l o b} : Sign.of b = .plain → Accepts ⟨.idle, p, l, o⟩ b [] ⟨.selector .tag, b :: p, l, true⟩
  | partPlain {p l o b part} : Sign.of b = .plain →
      Accepts ⟨.selector part, p, l, o⟩ b [] ⟨.selector part, b :: p, l, o⟩
  | partMark {p l o b part next text} : Marks b next → (next = .id → part ≠ .id) →
      Utf8.decode? p.reverse = some text → MayEnd part text →
      Accepts ⟨.selector part, p, l, o⟩ b [(Component.mk part text).event] ⟨.selector next, [], l, o⟩
  | partSpace {p l o b part text} : Sign.of b = .space → Utf8.decode? p.reverse = some text → MayEnd part text →
      Accepts ⟨.selector part, p, l, o⟩ b [(Component.mk part text).event, .selectorEnd] ⟨.combinator, [], l, o⟩
  | partJoiner {p l o b part text} : Sign.of b = .joiner → Utf8.decode? p.reverse = some text → MayEnd part text →
      Accepts ⟨.selector part, p, l, o⟩ b [(Component.mk part text).event, .selectorEnd] ⟨.combinator, [b], l, o⟩
  | partComma {p l o b part text} : Sign.of b = .comma → Utf8.decode? p.reverse = some text → MayEnd part text →
      Accepts ⟨.selector part, p, l, o⟩ b [(Component.mk part text).event, .selectorEnd, .chainEnd]
        ⟨.idle, [], l, o⟩
  | partOpening {p l o b part text} : Sign.of b = .opening → Utf8.decode? p.reverse = some text → MayEnd part text →
      Accepts ⟨.selector part, p, l, o⟩ b [(Component.mk part text).event, .selectorEnd, .chainEnd]
        ⟨.block, [], l, o⟩
  | combinatorSpace {l o b} : Sign.of b = .space → Accepts ⟨.combinator, [], l, o⟩ b [] ⟨.combinator, [], l, o⟩
  | combinatorEnd {p l o b text c} : Sign.of b = .space → p ≠ [] → Utf8.decode? p.reverse = some text →
      Combinator.ofToken? text = some c → Accepts ⟨.combinator, p, l, o⟩ b [.combinator c] ⟨.idle, [], l, o⟩
  | combinatorJoiner {l o b} : Sign.of b = .joiner → Accepts ⟨.combinator, [], l, o⟩ b [] ⟨.combinator, [b], l, o⟩
  | combinatorComma {l o b} : Sign.of b = .comma → Accepts ⟨.combinator, [], l, o⟩ b [.chainEnd] ⟨.idle, [], l, o⟩
  | combinatorOpening {l o b} : Sign.of b = .opening →
      Accepts ⟨.combinator, [], l, o⟩ b [.chainEnd] ⟨.block, [], l, o⟩
  | combinatorMark {p l o b part text c} : Marks b part → Utf8.decode? p.reverse = some text →
      Combinator.ofToken? text = some c → Accepts ⟨.combinator, p, l, o⟩ b [.combinator c] ⟨.selector part, [], l, o⟩
  | combinatorTag {p l o b text c} : Sign.of b = .plain → Utf8.decode? p.reverse = some text →
      Combinator.ofToken? text = some c → Accepts ⟨.combinator, p, l, o⟩ b [.combinator c] ⟨.selector .tag, [b], l, o⟩
  | blockSpace {p l o b} : Sign.of b = .space → Accepts ⟨.block, p, l, o⟩ b [] ⟨.block, p, l, o⟩
  | blockSemicolon {p l o b} : Sign.of b = .semicolon → Accepts ⟨.block, p, l, o⟩ b [] ⟨.block, p, l, o⟩
  | blockClosing {p l o b} : Sign.of b = .closing → Accepts ⟨.block, p, l, o⟩ b [.blockEnd] ⟨.idle, p, l, false⟩
  | blockName {p l o b} : NameByte b → Accepts ⟨.block, p, l, o⟩ b [] ⟨.name, b :: p, l, o⟩
  | nameByte {p l o b} : NameByte b → Accepts ⟨.name, p, l, o⟩ b [] ⟨.name, b :: p, l, o⟩
  | nameSpace {p l o b text} : Sign.of b = .space → Utf8.decode? p.reverse = some text →
      Accepts ⟨.name, p, l, o⟩ b [.name text] ⟨.colon, [], l, o⟩
  | nameColon {p l o b text} : Sign.of b = .colon → Utf8.decode? p.reverse = some text →
      Accepts ⟨.name, p, l, o⟩ b [.name text] ⟨.value, [], l, o⟩
  | colonSpace {p l o b} : Sign.of b = .space → Accepts ⟨.colon, p, l, o⟩ b [] ⟨.colon, p, l, o⟩
  | colonColon {p l o b} : Sign.of b = .colon → Accepts ⟨.colon, p, l, o⟩ b [] ⟨.value, p, l, o⟩
  | valueByte {p l o b} : ValueByte b → Accepts ⟨.value, p, l, o⟩ b [] ⟨.value, b :: p, l, o⟩
  | valueSpace {l o b} : Sign.of b = .space → Accepts ⟨.value, [], l, o⟩ b [] ⟨.value, [], l, o⟩
  | valueEnd {p l o b text} : Sign.of b = .space → p ≠ [] → Utf8.decode? p.reverse = some text →
      Accepts ⟨.value, p, l, o⟩ b [.value text] ⟨.terminator, [], l, o⟩
  | valueSemicolon {p l o b text} : Sign.of b = .semicolon → Utf8.decode? p.reverse = some text →
      Accepts ⟨.value, p, l, o⟩ b [.value text] ⟨.block, [], l, o⟩
  | valueClosing {p l o b text} : Sign.of b = .closing → Utf8.decode? p.reverse = some text →
      Accepts ⟨.value, p, l, o⟩ b [.value text, .blockEnd] ⟨.idle, [], l, false⟩
  | terminatorSpace {p l o b} : Sign.of b = .space → Accepts ⟨.terminator, p, l, o⟩ b [] ⟨.terminator, p, l, o⟩
  | terminatorSemicolon {p l o b} : Sign.of b = .semicolon → Accepts ⟨.terminator, p, l, o⟩ b [] ⟨.block, p, l, o⟩
  | terminatorClosing {p l o b} : Sign.of b = .closing →
      Accepts ⟨.terminator, p, l, o⟩ b [.blockEnd] ⟨.idle, p, l, false⟩

/-! ## Tokens that are taken -/

variable {r r' : Reader} {es : List Event} {p : List UInt8} {l : UInt32} {o : Bool} {b : UInt8} {part : Part}

theorem take_eq_iff {f : String → Reader → Outcome} :
    r.take f = ⟨r', es, none⟩ ↔
      ∃ text, Utf8.decode? r.token = some text ∧ f text { r with pending := [] } = ⟨r', es, none⟩ := by
  unfold take
  split
  · rename_i text h; simp [h]
  · rename_i h; simp [h, refuse]

theorem endPart_eq_iff {f : Event → Reader → Outcome} :
    r.endPart part f = ⟨r', es, none⟩ ↔
      ∃ text, Utf8.decode? r.token = some text ∧ MayEnd part text ∧
        f (Component.mk part text).event { r with pending := [] } = ⟨r', es, none⟩ := by
  unfold endPart
  rw [take_eq_iff]
  cases part with
  | tag => simp [MayEnd, Component.event]
  | id => simp [MayEnd, Component.event, refuse, ite_eq_iff]
  | className => simp [MayEnd, Component.event, refuse, ite_eq_iff]

theorem endCombinator_eq_iff {mode : Mode} {f : Reader → Reader} :
    r.endCombinator mode f = ⟨r', es, none⟩ ↔
      ∃ text c, Utf8.decode? r.token = some text ∧ Combinator.ofToken? text = some c ∧
        { f { r with pending := [] } with mode } = r' ∧ [Event.combinator c] = es := by
  unfold endCombinator
  rw [take_eq_iff]
  constructor
  · intro hex
    obtain ⟨text, ht, h⟩ := hex
    split at h
    · rename_i c hc
      simp only [goTo, Outcome.mk.injEq, and_true] at h
      exact ⟨text, c, ht, hc, h⟩
    · simp [refuse] at h
  · intro hex
    obtain ⟨text, c, ht, hc, rfl, rfl⟩ := hex
    exact ⟨text, ht, by simp [hc, goTo]⟩

/-! ## One byte in each mode -/

theorem accepts_atIdle (h : Reader.atIdle ⟨.idle, p, l, o⟩ b = ⟨r', es, none⟩) :
    Accepts ⟨.idle, p, l, o⟩ b es r' := by
  unfold atIdle at h
  cases hs : Sign.of b <;> simp [hs, stay, start, push, refuse, unsupported] at h
  case space => obtain ⟨rfl, rfl⟩ := h; exact .idleSpace hs
  case dot => obtain ⟨rfl, rfl⟩ := h; exact .idleMark (.className hs)
  case hash => obtain ⟨rfl, rfl⟩ := h; exact .idleMark (.id hs)
  case plain => obtain ⟨rfl, rfl⟩ := h; exact .idleTag hs

theorem accepts_atSelector (h : Reader.atSelector ⟨.selector part, p, l, o⟩ part b = ⟨r', es, none⟩) :
    Accepts ⟨.selector part, p, l, o⟩ b es r' := by
  unfold atSelector at h
  cases hs : Sign.of b <;> simp only [hs] at h
  case space =>
    obtain ⟨text, ht, he, hn⟩ := endPart_eq_iff.mp h
    cases hn; exact .partSpace hs ht he
  case opening =>
    obtain ⟨text, ht, he, hn⟩ := endPart_eq_iff.mp h
    cases hn; exact .partOpening hs ht he
  case comma =>
    obtain ⟨text, ht, he, hn⟩ := endPart_eq_iff.mp h
    cases hn; exact .partComma hs ht he
  case joiner =>
    obtain ⟨text, ht, he, hn⟩ := endPart_eq_iff.mp h
    cases hn; exact .partJoiner hs ht he
  case dot =>
    obtain ⟨text, ht, he, hn⟩ := endPart_eq_iff.mp h
    cases hn; exact .partMark (.className hs) (by simp) ht he
  case hash =>
    split at h
    · cases h
    · rename_i hp
      obtain ⟨text, ht, he, hn⟩ := endPart_eq_iff.mp h
      cases hn; exact .partMark (.id hs) (fun _ => hp) ht he
  case plain => cases h; exact .partPlain hs
  all_goals cases h

theorem accepts_atCombinator (h : Reader.atCombinator ⟨.combinator, p, l, o⟩ b = ⟨r', es, none⟩) :
    Accepts ⟨.combinator, p, l, o⟩ b es r' := by
  unfold atCombinator at h
  cases hs : Sign.of b <;> simp only [hs] at h
  case space =>
    split at h
    · rename_i hp
      cases List.isEmpty_iff.mp hp
      cases h; exact .combinatorSpace hs
    · rename_i hp
      obtain ⟨text, c, ht, hc, rfl, rfl⟩ := endCombinator_eq_iff.mp h
      exact .combinatorEnd hs (fun e => hp (List.isEmpty_iff.mpr e)) ht hc
  case joiner =>
    split at h
    · rename_i hp
      cases List.isEmpty_iff.mp hp
      cases h; exact .combinatorJoiner hs
    · cases h
  case opening =>
    split at h
    · rename_i hp
      cases List.isEmpty_iff.mp hp
      cases h; exact .combinatorOpening hs
    · cases h
  case comma =>
    split at h
    · rename_i hp
      cases List.isEmpty_iff.mp hp
      cases h; exact .combinatorComma hs
    · cases h
  case dot =>
    obtain ⟨text, c, ht, hc, rfl, rfl⟩ := endCombinator_eq_iff.mp h
    exact .combinatorMark (.className hs) ht hc
  case hash =>
    obtain ⟨text, c, ht, hc, rfl, rfl⟩ := endCombinator_eq_iff.mp h
    exact .combinatorMark (.id hs) ht hc
  case plain =>
    obtain ⟨text, c, ht, hc, rfl, rfl⟩ := endCombinator_eq_iff.mp h
    exact .combinatorTag hs ht hc
  all_goals cases h

theorem accepts_atBlock (h : Reader.atBlock ⟨.block, p, l, o⟩ b = ⟨r', es, none⟩) :
    Accepts ⟨.block, p, l, o⟩ b es r' := by
  unfold atBlock at h
  cases hs : Sign.of b <;> simp only [hs] at h <;> cases h
  case space => exact .blockSpace hs
  case semicolon => exact .blockSemicolon hs
  case closing => exact .blockClosing hs
  all_goals exact .blockName (by simp [NameByte, hs])

theorem accepts_atName (h : Reader.atName ⟨.name, p, l, o⟩ b = ⟨r', es, none⟩) :
    Accepts ⟨.name, p, l, o⟩ b es r' := by
  unfold atName at h
  cases hs : Sign.of b <;> simp only [hs] at h
  case space =>
    obtain ⟨text, ht, hn⟩ := take_eq_iff.mp h
    cases hn; exact .nameSpace hs ht
  case colon =>
    obtain ⟨text, ht, hn⟩ := take_eq_iff.mp h
    cases hn; exact .nameColon hs ht
  all_goals cases h
  all_goals exact .nameByte (by simp [NameByte, hs])

theorem accepts_atColon (h : Reader.atColon ⟨.colon, p, l, o⟩ b = ⟨r', es, none⟩) :
    Accepts ⟨.colon, p, l, o⟩ b es r' := by
  unfold atColon at h
  cases hs : Sign.of b <;> simp only [hs] at h <;> cases h
  case space => exact .colonSpace hs
  case colon => exact .colonColon hs

theorem accepts_atValue (h : Reader.atValue ⟨.value, p, l, o⟩ b = ⟨r', es, none⟩) :
    Accepts ⟨.value, p, l, o⟩ b es r' := by
  unfold atValue at h
  cases hs : Sign.of b <;> simp only [hs] at h
  case space =>
    split at h
    · rename_i hp
      cases List.isEmpty_iff.mp hp
      cases h; exact .valueSpace hs
    · rename_i hp
      obtain ⟨text, ht, hn⟩ := take_eq_iff.mp h
      cases hn; exact .valueEnd hs (fun e => hp (List.isEmpty_iff.mpr e)) ht
  case semicolon =>
    obtain ⟨text, ht, hn⟩ := take_eq_iff.mp h
    cases hn; exact .valueSemicolon hs ht
  case closing =>
    obtain ⟨text, ht, hn⟩ := take_eq_iff.mp h
    cases hn; exact .valueClosing hs ht
  all_goals cases h
  all_goals exact .valueByte (by simp [ValueByte, hs])

theorem accepts_atTerminator (h : Reader.atTerminator ⟨.terminator, p, l, o⟩ b = ⟨r', es, none⟩) :
    Accepts ⟨.terminator, p, l, o⟩ b es r' := by
  unfold atTerminator at h
  cases hs : Sign.of b <;> simp only [hs] at h <;> cases h
  case space => exact .terminatorSpace hs
  case semicolon => exact .terminatorSemicolon hs
  case closing => exact .terminatorClosing hs

theorem accepts_of_read (h : r.read b = ⟨r', es, none⟩) : Accepts r b es r' := by
  obtain ⟨mode, p, l, o⟩ := r
  cases mode with
  | idle => exact accepts_atIdle h
  | selector part => exact accepts_atSelector h
  | combinator => exact accepts_atCombinator h
  | block => exact accepts_atBlock h
  | name => exact accepts_atName h
  | colon => exact accepts_atColon h
  | value => exact accepts_atValue h
  | terminator => exact accepts_atTerminator h

theorem read_of_accepts (h : Accepts r b es r') : r.read b = ⟨r', es, none⟩ := by
  cases h with
  | idleSpace hs => simp [read, atIdle, hs, stay]
  | idleMark hm => cases hm <;> simp [read, atIdle, *, start]
  | idleTag hs => simp [read, atIdle, hs, start, push]
  | partPlain hs => simp [read, atSelector, hs, stay, push]
  | partMark hm hf ht he =>
    cases hm with
    | id hs =>
      simp only [read, atSelector, hs, hf rfl, if_false]
      exact endPart_eq_iff.mpr ⟨_, ht, he, rfl⟩
    | className hs =>
      simp only [read, atSelector, hs]
      exact endPart_eq_iff.mpr ⟨_, ht, he, rfl⟩
  | partSpace hs ht he | partJoiner hs ht he | partComma hs ht he | partOpening hs ht he =>
    simp only [read, atSelector, hs]
    exact endPart_eq_iff.mpr ⟨_, ht, he, rfl⟩
  | combinatorSpace hs | combinatorJoiner hs | combinatorComma hs | combinatorOpening hs =>
    simp [read, atCombinator, hs, stay, goTo, push]
  | combinatorEnd hs hp ht hc =>
    simp only [read, atCombinator, hs, List.isEmpty_iff, hp, if_false]
    exact endCombinator_eq_iff.mpr ⟨_, _, ht, hc, rfl, rfl⟩
  | combinatorMark hm ht hc =>
    cases hm <;> simp only [read, atCombinator, *] <;>
      exact endCombinator_eq_iff.mpr ⟨_, _, ht, hc, rfl, rfl⟩
  | combinatorTag hs ht hc =>
    simp only [read, atCombinator, hs]
    exact endCombinator_eq_iff.mpr ⟨_, _, ht, hc, rfl, rfl⟩
  | blockSpace hs | blockSemicolon hs | blockClosing hs => simp [read, atBlock, hs, stay, close]
  | blockName hb => cases hs : Sign.of b <;> simp_all [read, atBlock, NameByte, goTo, push]
  | nameByte hb => cases hs : Sign.of b <;> simp_all [read, atName, NameByte, stay, push]
  | nameSpace hs ht | nameColon hs ht =>
    simp only [read, atName, hs]
    exact take_eq_iff.mpr ⟨_, ht, rfl⟩
  | colonSpace hs | colonColon hs => simp [read, atColon, hs, stay, goTo]
  | valueByte hb => cases hs : Sign.of b <;> simp_all [read, atValue, ValueByte, stay, push]
  | valueSpace hs => simp [read, atValue, hs, stay]
  | valueEnd hs hp ht =>
    simp only [read, atValue, hs, List.isEmpty_iff, hp, if_false]
    exact take_eq_iff.mpr ⟨_, ht, rfl⟩
  | valueSemicolon hs ht | valueClosing hs ht =>
    simp only [read, atValue, hs]
    exact take_eq_iff.mpr ⟨_, ht, rfl⟩
  | terminatorSpace hs | terminatorSemicolon hs | terminatorClosing hs =>
    simp [read, atTerminator, hs, stay, goTo, close]

/-- The line after a byte on line `l`. -/
def lineAfter (l : UInt32) (b : UInt8) : UInt32 := if b = lineEnd then l + 1 else l

theorem count_eq (r : Reader) (b : UInt8) : r.count b = { r with line := lineAfter r.line b } := by
  unfold count lineAfter
  split <;> rfl

/-- A byte has an effect exactly as the list says. -/
theorem step_eq_iff : r.step b = ⟨r', es, none⟩ ↔ Accepts (r.count b) b es r' :=
  ⟨accepts_of_read, read_of_accepts⟩

/-- What every accepted byte keeps, a run that is not stopped keeps. -/
theorem keeps_run {P : Reader → List UInt8 → List Event → Prop}
    (hstep : ∀ {r r' : Reader} {bs : List UInt8} {es fs : List Event} {b : UInt8},
      P r bs es → Accepts (r.count b) b fs r' → P r' (bs ++ [b]) (es ++ fs))
    {bs xs : List UInt8} {fs : List Event} (h : P r bs es) (hr : r.run xs = ⟨r', fs, none⟩) :
    P r' (bs ++ xs) (es ++ fs) := by
  induction xs generalizing r bs es fs with
  | nil => cases hr; simpa using h
  | cons b xs ih =>
    rw [run_cons] at hr
    cases hs : r.step b with
    | mk s gs fault =>
      cases fault with
      | some f => simp [hs, Outcome.andThen] at hr
      | none =>
        simp only [hs, Outcome.andThen, Outcome.mk.injEq] at hr
        obtain ⟨hreader, hevents, hfault⟩ := hr
        have hrun : s.run xs = ⟨r', (s.run xs).events, none⟩ := by rw [← hreader, ← hfault]
        rw [← hevents]
        simpa using ih (hstep h (step_eq_iff.mp hs)) hrun

end Cascade.Reader
