/-
  Cascade.Proofs.Grammar — which texts are sheets, and what stands in them. A sheet is
  a list of rules; a rule has chains and declarations; a chain has selectors joined by
  combinators; a selector has components. What stands in a text is kept apart from how
  it is spelt: `SheetText bs rs` is the grammar, a relation between bytes and rules, and
  `events rs` is what a reader has to report of them.

      ident      text, not empty, of no blank and no sign
      selector   ident? ('.' ident | '#' ident)*   not empty, no '#' part right after one
      joint      blank+  |  blank* ('>' | '+' | '~') blank*
      chain      selector (joint selector)*
      head       chain blank* (',' blank* chain blank*)*
      clause     blank*  |  blank* name blank* ':' blank* value blank*
      rule       head '{' clause (';' clause)* '}'
      sheet      blank* (rule blank*)*

  A name is text, not empty, without blanks and without `:`, `;` and braces; a value may
  be empty and may hold a `:`. Repetitions are derived from the left, the way a text is
  read.
-/

import Cascade.Reader
import Mathlib.Data.List.Chain

namespace Cascade.Grammar

/-! ## What stands in a sheet -/

/-- A part of a selector: its kind and its text. -/
structure Component where
  part : Part
  text : String
  deriving DecidableEq, Repr

/-- A chain as it is written: the selectors before the subject, each with the combinator
    after it. -/
structure Trail where
  outer : List (List Component × Combinator)
  subject : List Component
  deriving DecidableEq, Repr

structure Rule where
  chains : List Trail
  /-- Names and values, in order. -/
  declarations : List (String × String)
  deriving DecidableEq, Repr

def Component.event (c : Component) : Event :=
  match c.part with
  | .tag => .tag c.text
  | .id => .id c.text
  | .className => .className c.text

def selectorEvents (s : List Component) : List Event := s.map Component.event ++ [.selectorEnd]

def outerEvents (xs : List (List Component × Combinator)) : List Event :=
  xs.flatMap fun x => selectorEvents x.1 ++ [.combinator x.2]

def Trail.events (c : Trail) : List Event := outerEvents c.outer ++ selectorEvents c.subject ++ [.chainEnd]

def declarationEvents (ds : List (String × String)) : List Event := ds.flatMap fun d => [.name d.1, .value d.2]

def Rule.events (r : Rule) : List Event :=
  r.chains.flatMap Trail.events ++ declarationEvents r.declarations ++ [.blockEnd]

def events (rs : List Rule) : List Event := rs.flatMap Rule.events

/-! ## Tokens -/

/-- Blanks, tabs and line ends, any number. -/
def Blank (bs : List UInt8) : Prop := ∀ b ∈ bs, Sign.of b = .space

def Ident (text : String) : Prop := text ≠ "" ∧ ∀ b ∈ Utf8.bytes text, Sign.of b = .plain

/-- A byte that a name may hold. -/
def NameByte (b : UInt8) : Prop := Sign.of b ∉ [.space, .colon, .semicolon, .opening, .closing]

def Name (text : String) : Prop := text ≠ "" ∧ ∀ b ∈ Utf8.bytes text, NameByte b

/-- A byte that a value may hold. -/
def ValueByte (b : UInt8) : Prop := Sign.of b ∉ [.space, .semicolon, .opening, .closing]

def Value (text : String) : Prop := ∀ b ∈ Utf8.bytes text, ValueByte b

instance (bs : List UInt8) : Decidable (Blank bs) := List.decidableBAll _ bs

instance (text : String) : Decidable (Ident text) :=
  have : Decidable (∀ b ∈ Utf8.bytes text, Sign.of b = .plain) := List.decidableBAll _ _
  inferInstanceAs (Decidable (_ ∧ _))

instance (b : UInt8) : Decidable (NameByte b) := inferInstanceAs (Decidable (_ ∉ _))

instance (text : String) : Decidable (Name text) :=
  have : Decidable (∀ b ∈ Utf8.bytes text, NameByte b) := List.decidableBAll _ _
  inferInstanceAs (Decidable (_ ∧ _))

instance (b : UInt8) : Decidable (ValueByte b) := inferInstanceAs (Decidable (_ ∉ _))

instance (text : String) : Decidable (Value text) := List.decidableBAll _ _

/-! ## Selectors and chains -/

/-- What stands before the text of a part. -/
def mark : Part → List UInt8
  | .tag => []
  | .id => [0x23]
  | .className => [0x2E]

def Component.bytes (c : Component) : List UInt8 := mark c.part ++ Utf8.bytes c.text

def selectorBytes (s : List Component) : List UInt8 := s.flatMap Component.bytes

/-- A part `b` may stand right after a part `a`. -/
def Follows (a b : Part) : Prop := b ≠ .tag ∧ (b = .id → a ≠ .id)

structure IsSelector (s : List Component) : Prop where
  nonempty : s ≠ []
  idents : ∀ c ∈ s, Ident c.text
  order : (s.map Component.part).IsChain Follows

/-- The symbol of a combinator. -/
inductive Joiner : UInt8 → Combinator → Prop
  | child : Joiner 0x3E .child
  | next : Joiner 0x2B .next
  | subsequent : Joiner 0x7E .subsequent

inductive Joint : List UInt8 → Combinator → Prop
  | blank {w : List UInt8} : Blank w → w ≠ [] → Joint w .descendant
  | symbol {v w : List UInt8} {b : UInt8} {c : Combinator} : Blank v → Joiner b c → Blank w → Joint (v ++ b :: w) c

/-- Selectors, each with what joins it to the next. -/
inductive OuterText : List UInt8 → List (List Component × Combinator) → Prop
  | nil : OuterText [] []
  | snoc {bs j : List UInt8} {xs : List (List Component × Combinator)} {s : List Component} {c : Combinator} :
      OuterText bs xs → IsSelector s → Joint j c → OuterText (bs ++ selectorBytes s ++ j) (xs ++ [(s, c)])

inductive ChainText : List UInt8 → Trail → Prop
  | mk {bs : List UInt8} {xs : List (List Component × Combinator)} {s : List Component} :
      OuterText bs xs → IsSelector s → ChainText (bs ++ selectorBytes s) ⟨xs, s⟩

inductive HeadText : List UInt8 → List Trail → Prop
  | one {q w : List UInt8} {c : Trail} : ChainText q c → Blank w → HeadText (q ++ w) [c]
  | more {bs v q w : List UInt8} {cs : List Trail} {c : Trail} :
      HeadText bs cs → Blank v → ChainText q c → Blank w → HeadText (bs ++ 0x2C :: (v ++ q ++ w)) (cs ++ [c])

/-! ## Declarations, rules and sheets -/

inductive ClauseText : List UInt8 → List (String × String) → Prop
  | empty {w : List UInt8} : Blank w → ClauseText w []
  | declaration {u v w x : List UInt8} {name value : String} :
      Blank u → Name name → Blank v → Blank w → Value value → Blank x →
      ClauseText (u ++ Utf8.bytes name ++ v ++ 0x3A :: (w ++ Utf8.bytes value ++ x)) [(name, value)]

inductive BodyText : List UInt8 → List (String × String) → Prop
  | one {q : List UInt8} {ds : List (String × String)} : ClauseText q ds → BodyText q ds
  | more {bs q : List UInt8} {ds es : List (String × String)} :
      BodyText bs ds → ClauseText q es → BodyText (bs ++ 0x3B :: q) (ds ++ es)

inductive RuleText : List UInt8 → Rule → Prop
  | mk {h q : List UInt8} {cs : List Trail} {ds : List (String × String)} :
      HeadText h cs → BodyText q ds → RuleText (h ++ 0x7B :: (q ++ [0x7D])) ⟨cs, ds⟩

inductive SheetText : List UInt8 → List Rule → Prop
  | blank {w : List UInt8} : Blank w → SheetText w []
  | rule {bs q w : List UInt8} {rs : List Rule} {r : Rule} :
      SheetText bs rs → RuleText q r → Blank w → SheetText (bs ++ q ++ w) (rs ++ [r])

/-! ## Basics -/

theorem blank_nil : Blank [] := by intro b hb; cases hb

theorem blank_append {v w : List UInt8} (hv : Blank v) (hw : Blank w) : Blank (v ++ w) := by
  intro b hb
  rcases List.mem_append.mp hb with hb | hb
  · exact hv b hb
  · exact hw b hb

theorem blank_singleton {b : UInt8} (h : Sign.of b = .space) : Blank [b] := by
  intro x hx
  rw [List.mem_singleton.mp hx]
  exact h

theorem blank_snoc {w : List UInt8} {b : UInt8} (hw : Blank w) (hb : Sign.of b = .space) : Blank (w ++ [b]) :=
  blank_append hw (blank_singleton hb)

/-- More blanks may follow a sheet. -/
theorem sheet_blank {bs w : List UInt8} {rs : List Rule} (h : SheetText bs rs) (hw : Blank w) :
    SheetText (bs ++ w) rs := by
  cases h with
  | blank hv => exact .blank (blank_append hv hw)
  | rule h hr hv => simpa using h.rule hr (blank_append hv hw)

theorem symbol_joiner {b : UInt8} {c : Combinator} (h : Joiner b c) : Sign.of b = .joiner := by cases h <;> rfl

theorem bytes_ne_nil {text : String} (h : text ≠ "") : Utf8.bytes text ≠ [] := by
  intro e
  exact h (Utf8.bytes_inj.mp e)

@[simp] theorem selectorBytes_nil : selectorBytes [] = [] := rfl

@[simp] theorem selectorBytes_append (s t : List Component) :
    selectorBytes (s ++ t) = selectorBytes s ++ selectorBytes t := by
  simp [selectorBytes]

@[simp] theorem selectorBytes_singleton (c : Component) : selectorBytes [c] = c.bytes := by
  simp [selectorBytes]

@[simp] theorem outerEvents_nil : outerEvents [] = [] := rfl

@[simp] theorem outerEvents_append (xs ys : List (List Component × Combinator)) :
    outerEvents (xs ++ ys) = outerEvents xs ++ outerEvents ys := by
  simp [outerEvents]

@[simp] theorem outerEvents_singleton (x : List Component × Combinator) :
    outerEvents [x] = selectorEvents x.1 ++ [.combinator x.2] := by
  simp [outerEvents]

@[simp] theorem declarationEvents_nil : declarationEvents [] = [] := rfl

@[simp] theorem declarationEvents_append (ds es : List (String × String)) :
    declarationEvents (ds ++ es) = declarationEvents ds ++ declarationEvents es := by
  simp [declarationEvents]

@[simp] theorem events_nil : events [] = [] := rfl

@[simp] theorem events_append (rs ss : List Rule) : events (rs ++ ss) = events rs ++ events ss := by
  simp [events]

@[simp] theorem events_singleton (r : Rule) : events [r] = r.events := by
  simp [events]

theorem isChain_follows_snoc {s : List Component} {c : Component}
    (h : ((s ++ [c]).map Component.part).IsChain Follows) :
    (s.map Component.part).IsChain Follows ∧ ∀ d ∈ s.getLast?, Follows d.part c.part := by
  rw [List.map_append, List.isChain_append] at h
  refine ⟨h.1, fun d hd => h.2.2 d.part ?_ c.part rfl⟩
  rw [List.getLast?_map]
  exact Option.mem_map_of_mem Component.part hd

/-! ## What a derivation is made of -/

theorem chains_of_head {bs : List UInt8} {cs : List Trail} (h : HeadText bs cs) : ∀ c ∈ cs, ∃ q, ChainText q c := by
  induction h with
  | one hc =>
    intro c hmem
    rw [List.mem_singleton.mp hmem]
    exact ⟨_, hc⟩
  | more _ _ hc _ ih =>
    intro c hmem
    rcases List.mem_append.mp hmem with hmem | hmem
    · exact ih c hmem
    · rw [List.mem_singleton.mp hmem]
      exact ⟨_, hc⟩

theorem declarations_of_clause {bs : List UInt8} {ds : List (String × String)} (h : ClauseText bs ds) :
    ∀ d ∈ ds, Name d.1 ∧ Value d.2 := by
  intro d hd
  cases h with
  | empty => cases hd
  | declaration _ hn _ _ hv _ =>
    rw [List.mem_singleton.mp hd]
    exact ⟨hn, hv⟩

theorem declarations_of_body {bs : List UInt8} {ds : List (String × String)} (h : BodyText bs ds) :
    ∀ d ∈ ds, Name d.1 ∧ Value d.2 := by
  induction h with
  | one hq => exact declarations_of_clause hq
  | more _ hq ih =>
    intro d hd
    rcases List.mem_append.mp hd with hd | hd
    · exact ih d hd
    · exact declarations_of_clause hq d hd

theorem parts_of_sheet {bs : List UInt8} {rs : List Rule} (h : SheetText bs rs) :
    ∀ r ∈ rs, (∀ c ∈ r.chains, ∃ q, ChainText q c) ∧ ∀ d ∈ r.declarations, Name d.1 ∧ Value d.2 := by
  induction h with
  | blank => intro r hr; cases hr
  | rule _ hq _ ih =>
    intro r hr
    rcases List.mem_append.mp hr with hr | hr
    · exact ih r hr
    · rw [List.mem_singleton.mp hr]
      cases hq with
      | mk hh hb => exact ⟨chains_of_head hh, declarations_of_body hb⟩

theorem chains_ne_nil {bs : List UInt8} {rs : List Rule} (h : SheetText bs rs) : ∀ r ∈ rs, r.chains ≠ [] := by
  induction h with
  | blank => intro r hr; cases hr
  | rule _ hq _ ih =>
    intro r hr
    rcases List.mem_append.mp hr with hr | hr
    · exact ih r hr
    · rw [List.mem_singleton.mp hr]
      cases hq with
      | mk hh _ => cases hh <;> simp

/-! ## The names in the events -/

/-- The names that the rule declares, in order. -/
def Rule.names (r : Rule) : List String := r.declarations.map Prod.fst

def nameOf? : Event → Option String
  | .name text => some text
  | _ => none

/-- What is reported of a rule before its end. -/
def Rule.inner (r : Rule) : List Event := r.chains.flatMap Trail.events ++ declarationEvents r.declarations

theorem selector_events (s : List Component) : ∀ e ∈ selectorEvents s, e ≠ .blockEnd ∧ nameOf? e = none := by
  intro e he
  rcases List.mem_append.mp he with he | he
  · obtain ⟨⟨part, text⟩, -, rfl⟩ := List.mem_map.mp he
    cases part <;> exact ⟨by simp [Component.event], rfl⟩
  · rw [List.mem_singleton.mp he]
    exact ⟨by simp, rfl⟩

theorem trail_events (c : Trail) : ∀ e ∈ c.events, e ≠ .blockEnd ∧ nameOf? e = none := by
  intro e he
  rcases List.mem_append.mp he with he | he
  · rcases List.mem_append.mp he with he | he
    · obtain ⟨x, -, he⟩ := List.mem_flatMap.mp he
      rcases List.mem_append.mp he with he | he
      · exact selector_events _ e he
      · rw [List.mem_singleton.mp he]
        exact ⟨by simp, rfl⟩
    · exact selector_events _ e he
  · rw [List.mem_singleton.mp he]
    exact ⟨by simp, rfl⟩

theorem inner_events (r : Rule) : .blockEnd ∉ r.inner ∧ r.inner.filterMap nameOf? = r.names := by
  have hchains : ∀ e ∈ r.chains.flatMap Trail.events, e ≠ .blockEnd ∧ nameOf? e = none := by
    intro e he
    obtain ⟨c, -, he⟩ := List.mem_flatMap.mp he
    exact trail_events c e he
  have hnames (ds : List (String × String)) : (declarationEvents ds).filterMap nameOf? = ds.map Prod.fst := by
    induction ds with
    | nil => rfl
    | cons d ds ih => exact congrArg (d.1 :: ·) ih
  constructor
  · intro he
    rcases List.mem_append.mp he with he | he
    · exact (hchains _ he).1 rfl
    · simp [declarationEvents] at he
  · rw [Rule.inner, List.filterMap_append, List.filterMap_eq_nil_iff.mpr fun e he => (hchains e he).2, hnames]
    rfl

/-- Which names the rules declare, block by block, can be told from the events. -/
theorem names_of_events {rs ss : List Rule} (h : events rs = events ss) : rs.map Rule.names = ss.map Rule.names := by
  have hcons (r : Rule) (rs : List Rule) : events (r :: rs) = r.inner ++ .blockEnd :: events rs := by
    simp [events, Rule.events, Rule.inner]
  induction rs generalizing ss with
  | nil =>
    cases ss with
    | nil => rfl
    | cons s ss => simp [hcons] at h
  | cons r rs ih =>
    cases ss with
    | nil => simp [hcons] at h
    | cons s ss =>
      rw [hcons, hcons] at h
      -- both rules end at the first end of a block
      have hlength : r.inner.length = s.inner.length := by
        have hend := congrArg (List.idxOf .blockEnd) h
        simpa [List.idxOf_append_of_notMem (inner_events r).1, List.idxOf_append_of_notMem (inner_events s).1] using hend
      obtain ⟨hinner, hrest⟩ := List.append_inj h hlength
      rw [List.map_cons, List.map_cons, ih (List.cons.inj hrest).2, ← (inner_events r).2, hinner, (inner_events s).2]

end Cascade.Grammar
