/-
  Cascade.Proofs.Reader.Braces — what a text tells about the reader that has read it. Blocks
  do not nest and no brace is part of a name or of a value, so the braces of what has been
  read come in turn, `{` first (`Balanced`). From them one sees where the reader is:

  - in a block, if one more is open than closed;
  - in the selectors of a rule or between two rules, if they are level; and between two
    rules just if the text, the blanks at its end apart, is empty or ends with `}`. A comma
    or a combinator also brings the reader back to the mode in which a rule starts; the text
    then ends with that byte.

  So the text decides whether the input may end, what the error is if it does, and whether
  the next byte is one that is not supported here or one that may stand nowhere
  (`braces_tell`).
-/

import Mathlib.Data.List.DropRight
import Cascade.Proofs.Reader.Derives
import Cascade.Proofs.Reader.Refusal

namespace Cascade.Reader

open Grammar

variable {r r' : Reader} {b : UInt8} {bs : List UInt8} {es : List Event} {f : Fault}

/-! ## The braces of a text -/

def openBrace : UInt8 := 0x7B

def closeBrace : UInt8 := 0x7D

/-- The braces of a text, in order. -/
def braces (bs : List UInt8) : List UInt8 := bs.filter fun b => b == openBrace || b == closeBrace

/-- The braces of `n` blocks. -/
def pairs (n : Nat) : List UInt8 := (List.replicate n [openBrace, closeBrace]).flatten

theorem pairs_succ (n : Nat) : pairs (n + 1) = pairs n ++ [openBrace] ++ [closeBrace] := by
  simp [pairs, List.replicate_succ']

theorem count_pairs (n : Nat) : (pairs n).count openBrace = n ∧ (pairs n).count closeBrace = n := by
  induction n with
  | zero => exact ⟨rfl, rfl⟩
  | succ n ih =>
    have hne : openBrace ≠ closeBrace := by decide
    rw [pairs_succ]
    simp [List.count_append, ih, hne, hne.symm]

theorem count_braces (bs : List UInt8) :
    (braces bs).count openBrace = bs.count openBrace ∧ (braces bs).count closeBrace = bs.count closeBrace :=
  ⟨List.count_filter (by simp), List.count_filter (by simp)⟩

@[simp] theorem braces_open (bs : List UInt8) : braces (bs ++ [openBrace]) = braces bs ++ [openBrace] := by
  simp [braces]

@[simp] theorem braces_close (bs : List UInt8) : braces (bs ++ [closeBrace]) = braces bs ++ [closeBrace] := by
  simp [braces]

theorem ne_brace (h : Sign.of b ∉ [.opening, .closing]) : b ≠ openBrace ∧ b ≠ closeBrace := by
  constructor
  · intro hb
    exact h (by rw [hb]; decide)
  · intro hb
    exact h (by rw [hb]; decide)

theorem braces_other (h : Sign.of b ∉ [.opening, .closing]) : braces (bs ++ [b]) = braces bs := by
  obtain ⟨hopen, hclose⟩ := ne_brace h
  simp [braces, hopen, hclose]

/-- The text without the blanks at its end. -/
def trimEnd (bs : List UInt8) : List UInt8 := bs.rdropWhile (Sign.of · = .space)

/-- The blanks at its end apart, the text is empty or ends with `}`. -/
def EndsRules (bs : List UInt8) : Prop := trimEnd bs = [] ∨ (trimEnd bs).getLast? = some closeBrace

theorem endsRules_blank (h : Sign.of b = .space) : EndsRules (bs ++ [b]) ↔ EndsRules bs := by
  simp [EndsRules, trimEnd, h]

theorem endsRules_snoc (h : Sign.of b ≠ .space) : EndsRules (bs ++ [b]) ↔ b = closeBrace := by
  simp [EndsRules, trimEnd, h]

/-! ## What an accepted byte does to the rule -/

/-- The four kinds of byte that are accepted: a blank, a brace of either kind, and all others. -/
inductive Turns (r : Reader) (b : UInt8) (r' : Reader) : Prop
  | blank : Sign.of b = .space → (r.mode = .idle → r'.mode = .idle) →
      (Mode.OfSelectors r'.mode ↔ Mode.OfSelectors r.mode) → r'.openRule = r.openRule → Turns r b r'
  | opening : Sign.of b = .opening → Mode.OfSelectors r.mode → r.mode ≠ .idle → r'.mode = .block →
      r'.openRule = r.openRule → Turns r b r'
  | closing : Sign.of b = .closing → ¬ Mode.OfSelectors r.mode → r'.mode = .idle → r'.openRule = false → Turns r b r'
  | other : Sign.of b ∉ [.space, .opening, .closing] → (Mode.OfSelectors r'.mode ↔ Mode.OfSelectors r.mode) →
      (r'.openRule = true ∨ (r.mode ≠ .idle ∧ r'.openRule = r.openRule)) → Turns r b r'

theorem turns_of_accepts (h : Accepts r b es r') : Turns r b r' := by
  cases h with
  | idleSpace hs | partSpace hs | combinatorSpace hs | combinatorEnd hs | blockSpace hs | nameSpace hs | colonSpace hs
  | valueSpace hs | valueEnd hs | terminatorSpace hs =>
    exact .blank hs (by simp) (by simp [Mode.OfSelectors]) rfl
  | partOpening hs | combinatorOpening hs => exact .opening hs (by simp [Mode.OfSelectors]) (by simp) rfl rfl
  | blockClosing hs | valueClosing hs | terminatorClosing hs => exact .closing hs (by simp [Mode.OfSelectors]) rfl rfl
  | idleMark hm => cases hm <;> exact .other (by simp [*]) (by simp [Mode.OfSelectors]) (Or.inl rfl)
  | idleTag hs => exact .other (by simp [hs]) (by simp [Mode.OfSelectors]) (Or.inl rfl)
  | partMark hm | combinatorMark hm =>
    cases hm <;> exact .other (by simp [*]) (by simp [Mode.OfSelectors]) (Or.inr ⟨by simp, rfl⟩)
  | blockName hs | nameByte hs | valueByte hs =>
    exact .other (by simp_all [NameByte, ValueByte]) (by simp [Mode.OfSelectors]) (Or.inr ⟨by simp, rfl⟩)
  | partPlain hs | partJoiner hs | partComma hs | combinatorJoiner hs | combinatorComma hs | combinatorTag hs
  | blockSemicolon hs | nameColon hs | colonColon hs | valueSemicolon hs | terminatorSemicolon hs =>
    exact .other (by simp [hs]) (by simp [Mode.OfSelectors]) (Or.inr ⟨by simp, rfl⟩)

/-! ## Along a run -/

/-- The text that has been read, beside the place that the reader has come to. -/
structure Balanced (r : Reader) (bs : List UInt8) : Prop where
  opened : r.mode ≠ .idle → r.openRule = true
  closed : r.openRule = false ↔ EndsRules bs
  outside : Mode.OfSelectors r.mode → ∃ n, braces bs = pairs n
  inside : ¬ Mode.OfSelectors r.mode → ∃ n, braces bs = pairs n ++ [openBrace]

theorem balanced_start : Balanced {} [] where
  opened h := absurd rfl h
  closed := by simp [EndsRules, trimEnd]
  outside _ := ⟨0, rfl⟩
  inside h := absurd (Or.inl rfl) h

/-- A byte that is no brace leaves the reader inside the block, or outside. -/
theorem balanced_other (h : Balanced r bs) (hb : Sign.of b ∉ [.opening, .closing])
    (hselectors : Mode.OfSelectors r'.mode ↔ Mode.OfSelectors r.mode) (hopened : r'.mode ≠ .idle → r'.openRule = true)
    (hclosed : r'.openRule = false ↔ EndsRules (bs ++ [b])) : Balanced r' (bs ++ [b]) := by
  refine ⟨hopened, hclosed, ?_, ?_⟩
  · rw [hselectors, braces_other hb]
    exact h.outside
  · rw [hselectors, braces_other hb]
    exact h.inside

theorem balanced_turns (h : Balanced r bs) (ht : Turns r b r') : Balanced r' (bs ++ [b]) := by
  cases ht with
  | blank hs hidle hselectors hrule =>
    refine balanced_other h (by simp [hs]) hselectors (fun hm => ?_) ?_
    · rw [hrule]
      exact h.opened fun hi => hm (hidle hi)
    · rw [hrule, endsRules_blank hs]
      exact h.closed
  | opening hs hselectors hmode hblock hrule =>
    obtain rfl : b = openBrace := eq_of_sign rfl hs
    have hopen : r'.openRule = true := by rw [hrule, h.opened hmode]
    refine ⟨fun _ => hopen, ?_, fun hm => ?_, fun _ => ?_⟩
    · rw [hopen, endsRules_snoc (by simp [hs])]
      decide
    · simp [Mode.OfSelectors, hblock] at hm
    · obtain ⟨n, hn⟩ := h.outside hselectors
      exact ⟨n, by rw [braces_open, hn]⟩
  | closing hs hselectors hidle hrule =>
    obtain rfl : b = closeBrace := eq_of_sign rfl hs
    refine ⟨fun hm => absurd hidle hm, ?_, fun _ => ?_, fun hm => absurd (Or.inl hidle) hm⟩
    · have hends : EndsRules (bs ++ [closeBrace]) := (endsRules_snoc (by simp [hs])).mpr rfl
      simp [hrule, hends]
    · obtain ⟨n, hn⟩ := h.inside hselectors
      exact ⟨n + 1, by rw [braces_close, hn, pairs_succ]⟩
  | other hs hselectors hrule =>
    have hopen : r'.openRule = true := by
      rcases hrule with hrule | ⟨hmode, hrule⟩
      · exact hrule
      · rw [hrule, h.opened hmode]
    have hbrace : Sign.of b ∉ [.opening, .closing] := by simp_all
    refine balanced_other h hbrace hselectors (fun _ => hopen) ?_
    rw [hopen, endsRules_snoc (by simp_all)]
    simp [(ne_brace hbrace).2]

/-- A line end that is counted changes neither the mode nor the rule. -/
theorem balanced_step (h : Balanced r bs) (ha : Accepts (r.count b) b es r') : Balanced r' (bs ++ [b]) := by
  refine balanced_turns (r := r.count b) ?_ (turns_of_accepts ha)
  rw [count_eq]
  exact ⟨h.opened, h.closed, h.outside, h.inside⟩

theorem balanced_run (h : (({} : Reader).run bs).fault? = none) : Balanced (({} : Reader).run bs).reader bs :=
  @keeps_run {} _ [] (fun r bs _ => Balanced r bs) balanced_step [] bs _ balanced_start (by rw [← h])

/-! ## What is seen from the text -/

theorem isIdle_iff (h : Balanced r bs) : r.isIdle = true ↔ EndsRules bs := by
  rw [← h.closed]
  constructor
  · intro hi
    simp_all [isIdle]
  · intro hrule
    have hmode : r.mode = .idle := by
      by_contra hm
      simp [h.opened hm] at hrule
    simp [isIdle, hmode, hrule]

/-- In a block there is one brace more that is opened, and elsewhere there is none. -/
theorem counts_of_balanced (h : Balanced r bs) :
    (Mode.OfSelectors r.mode → bs.count openBrace = bs.count closeBrace) ∧
      (¬ Mode.OfSelectors r.mode → bs.count openBrace = bs.count closeBrace + 1) := by
  obtain ⟨hopen, hclose⟩ := count_braces bs
  rw [← hopen, ← hclose]
  constructor
  · intro hm
    obtain ⟨n, hn⟩ := h.outside hm
    obtain ⟨ho, hc⟩ := count_pairs n
    rw [hn, ho, hc]
  · intro hm
    obtain ⟨n, hn⟩ := h.inside hm
    obtain ⟨ho, hc⟩ := count_pairs n
    rw [hn, List.count_append, List.count_append, ho, hc]
    rfl

theorem level_iff (h : Balanced r bs) : bs.count openBrace = bs.count closeBrace ↔ Mode.OfSelectors r.mode := by
  obtain ⟨houtside, hinside⟩ := counts_of_balanced h
  refine ⟨fun hcount => ?_, houtside⟩
  by_contra hm
  have := hinside hm
  omega

theorem oneMore_iff (h : Balanced r bs) :
    bs.count openBrace = bs.count closeBrace + 1 ↔ ¬ Mode.OfSelectors r.mode := by
  obtain ⟨houtside, hinside⟩ := counts_of_balanced h
  refine ⟨fun hcount hm => ?_, hinside⟩
  have := houtside hm
  omega

theorem endError_cases {e : SyntaxError} (h : r.endError? = some e) :
    (Mode.OfSelectors r.mode ∧ e.fault = .endInSelector) ∨ (¬ Mode.OfSelectors r.mode ∧ e.fault = .endInBlock) := by
  obtain ⟨f, hf, rfl⟩ := Option.map_eq_some_iff.mp h
  unfold endFault? at hf
  cases hi : r.isIdle <;> cases hm : r.mode <;> simp_all [Mode.OfSelectors]

theorem end_messages_differ : Fault.endInSelector.message ≠ Fault.endInBlock.message := by decide

theorem bracket_or_colon : Sign.of b = .bracket ∨ Sign.of b = .colon ↔ b = 0x5B ∨ b = 0x3A := by
  constructor
  · intro h
    exact h.imp (eq_of_sign rfl) (eq_of_sign rfl)
  · intro h
    rcases h with rfl | rfl
    · exact Or.inl rfl
    · exact Or.inr rfl

/-- In the selectors what is not supported is never taken for the end of a token. -/
theorem not_takes (hm : Mode.OfSelectors r.mode) (hs : Sign.of b = .bracket ∨ Sign.of b = .colon) : ¬ Takes r b := by
  rcases hm with hm | ⟨part, hm⟩ | hm <;> rcases hs with hs | hs <;> simp [Takes, hm, hs]

/-- What is not supported is refused as such in the selectors alone: elsewhere the byte belongs to a name or a value,
    or is out of place like any other. -/
theorem isUnsupported_iff (h : Refuses r b f r') :
    f.isUnsupported = true ↔ Mode.OfSelectors r.mode ∧ (Sign.of b = .bracket ∨ Sign.of b = .colon) := by
  constructor
  · intro hf
    cases h with
    | byte hb => cases hb <;> simp_all [Fault.isUnsupported]
    | token _ hr => cases hr <;> cases hf
    | symbol => cases hf
  · intro h'
    obtain ⟨hm, hs⟩ := h'
    cases h with
    | byte hb =>
      rcases hs with hs | hs <;> cases hb <;> simp_all [Fault.isUnsupported, Mode.OfSelectors]
    | token ht => exact absurd ht (not_takes hm hs)
    | symbol _ _ hj => simp [hj] at hs

/-- What the braces of a text tell about the reader that has read it. -/
structure Tells (p : List UInt8) (r : Reader) : Prop where
  /-- They come in turn, and `{` comes first. -/
  inTurn : ∃ n, braces p = pairs n ∨ braces p = pairs n ++ [openBrace]
  isIdle : r.isIdle = true ↔ EndsRules p
  mayEnd : r.endError? = none ↔ r.isIdle = true
  endsInBlock {e : SyntaxError} : r.endError? = some e →
    (e.fault.message = "unexpected end of input inside a declaration block" ↔
      p.count openBrace = p.count closeBrace + 1)
  endsInSelector {e : SyntaxError} : r.endError? = some e →
    (e.fault.message = "unexpected end of input inside a selector" ↔ p.count openBrace = p.count closeBrace)
  /-- The next byte is refused as unsupported, or as malformed. -/
  unsupported {b : UInt8} {f : Fault} : (r.step b).fault? = some f →
    (f.isUnsupported = true ↔ (b = 0x5B ∨ b = 0x3A) ∧ p.count openBrace = p.count closeBrace)

theorem braces_tell {p : List UInt8} (h : (({} : Reader).run p).fault? = none) :
    Tells p (({} : Reader).run p).reader := by
  have hbalanced := balanced_run h
  generalize (({} : Reader).run p).reader = r at hbalanced
  refine ⟨?_, isIdle_iff hbalanced, ?_, fun {e} he => ?_, fun {e} he => ?_, fun {b f} hf => ?_⟩
  · by_cases hm : Mode.OfSelectors r.mode
    · obtain ⟨n, hn⟩ := hbalanced.outside hm
      exact ⟨n, Or.inl hn⟩
    · obtain ⟨n, hn⟩ := hbalanced.inside hm
      exact ⟨n, Or.inr hn⟩
  · rw [endError?, Option.map_eq_none_iff, endFault?_eq_none_iff]
  · rw [oneMore_iff hbalanced]
    rcases endError_cases he with ⟨hm, he⟩ | ⟨hm, he⟩ <;> rw [he]
    · exact iff_of_false end_messages_differ (not_not_intro hm)
    · exact iff_of_true rfl hm
  · rw [level_iff hbalanced]
    rcases endError_cases he with ⟨hm, he⟩ | ⟨hm, he⟩ <;> rw [he]
    · exact iff_of_true rfl hm
    · exact iff_of_false end_messages_differ.symm hm
  · rw [isUnsupported_iff (refused_read _ b f hf).2, level_iff hbalanced, count_eq, bracket_or_colon]
    exact and_comm

/-- `a{b:c}`, and on the next line the start of a rule up to the comma after its first chain. -/
def afterComma : List UInt8 := [0x61, 0x7B, 0x62, 0x3A, 0x63, 0x7D, 0x0A, 0x2E, 0x64, 0x2C, 0x20]

/-- The mode is that of the idle, and the text tells that the reader is not. -/
theorem braces_tell_afterComma :
    (({} : Reader).run afterComma).fault? = none ∧ (({} : Reader).run afterComma).reader.mode = .idle ∧
      (({} : Reader).run afterComma).reader.endError? = some ⟨2, .endInSelector⟩ ∧
      Tells afterComma (({} : Reader).run afterComma).reader :=
  ⟨by decide, by decide, by decide, braces_tell (by decide)⟩

end Cascade.Reader
