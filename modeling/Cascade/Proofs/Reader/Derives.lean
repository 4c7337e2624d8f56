/-
  Cascade.Proofs.Reader.Derives — what is read without a fault has been derived.
  `Stands r bs es` says where in a derivation a reader stands that has read `bs` and
  reported `es`: in a sheet and, from the first selector of a rule on, in a part of that
  rule. It holds at the start, every byte that is not refused keeps it (`stands_step`),
  and where the input may end the derivation is whole.

  A component, a combinator or a declaration that has been read but not reported is in
  `bs` and not yet in `es`.
-/

import Cascade.Proofs.Reader.Step

namespace Cascade.Reader

open Grammar

variable {r r' : Reader} {b : UInt8} {bs p q v w x : List UInt8} {es fs : List Event} {l : UInt32}

/-! ## The bytes of the signs -/

/-- The byte of a sign that no other byte has. -/
def onlyByte : Sign → Option UInt8
  | .dot => some 0x2E
  | .hash => some 0x23
  | .bracket => some 0x5B
  | .colon => some 0x3A
  | .opening => some 0x7B
  | .closing => some 0x7D
  | .comma => some 0x2C
  | .semicolon => some 0x3B
  | .space | .joiner | .plain => none

theorem eq_of_sign {s : Sign} {c : UInt8} (hs : onlyByte s = some c) (h : Sign.of b = s) : b = c := by
  subst h
  unfold Sign.of at hs
  split at hs <;> first | exact Option.some.inj hs | cases hs

theorem symbol_of_joiner (h : Sign.of b = .joiner) : ∃ c, Joiner b c := by
  unfold Sign.of at h
  split at h
  case h_9 => exact ⟨_, .child⟩
  case h_10 => exact ⟨_, .next⟩
  case h_11 => exact ⟨_, .subsequent⟩
  all_goals cases h

theorem mark_of_marks {part : Part} (h : Marks b part) : mark part = [b] := by
  cases h with
  | id h => rw [eq_of_sign rfl h]; rfl
  | className h => rw [eq_of_sign rfl h]; rfl

theorem ne_tag_of_marks {part : Part} (h : Marks b part) : part ≠ .tag := by cases h <;> simp

/-! ## Before a selector -/

/-- The chains of a rule before the one that is read, each with its comma. -/
inductive Lead : List UInt8 → List Trail → Prop
  | nil : Lead [] []
  | comma {bs w : List UInt8} {cs : List Trail} : HeadText bs cs → Blank w → Lead (bs ++ 0x2C :: w) cs

/-- What has been read before a selector. -/
structure Place where
  rules : List Rule
  chains : List Trail := []
  outer : List (List Component × Combinator) := []

namespace Place

def events (pl : Place) : List Event :=
  Grammar.events pl.rules ++ pl.chains.flatMap Trail.events ++ outerEvents pl.outer

inductive Spells : Place → List UInt8 → Prop
  | mk {p q b : List UInt8} {rs : List Rule} {cs : List Trail} {xs : List (List Component × Combinator)} :
      SheetText p rs → Lead q cs → OuterText b xs → Spells ⟨rs, cs, xs⟩ (p ++ q ++ b)

/-- The place after a selector and the combinator that joins it to the next. -/
def join (pl : Place) (s : List Component) (c : Combinator) : Place := { pl with outer := pl.outer ++ [(s, c)] }

/-- The place after a chain of which `s` is the subject, and a comma. -/
def next (pl : Place) (s : List Component) : Place := ⟨pl.rules, pl.chains ++ [⟨pl.outer, s⟩], []⟩

@[simp] theorem events_join (pl : Place) (s : List Component) (c : Combinator) :
    (pl.join s c).events = pl.events ++ selectorEvents s ++ [.combinator c] := by
  simp [events, join]

@[simp] theorem events_next (pl : Place) (s : List Component) :
    (pl.next s).events = pl.events ++ selectorEvents s ++ [.chainEnd] := by
  simp [events, next, Trail.events]

variable {pl : Place} {s : List Component} {c : Combinator}

theorem spells_join (h : pl.Spells bs) (hs : IsSelector s) (hj : Joint w c) :
    (pl.join s c).Spells (bs ++ selectorBytes s ++ w) := by
  cases h with
  | mk hp hq hb => simpa [join] using Spells.mk hp hq (hb.snoc hs hj)

theorem head_of_spells (h : pl.Spells bs) (hs : IsSelector s) (hw : Blank w) :
    ∃ p q, SheetText p pl.rules ∧ HeadText q (pl.next s).chains ∧ bs ++ selectorBytes s ++ w = p ++ q := by
  cases h with
  | @mk p q b rs cs xs hp hq hb =>
    have hc : ChainText (b ++ selectorBytes s) ⟨xs, s⟩ := .mk hb hs
    cases hq with
    | nil => exact ⟨p, _, hp, .one hc hw, by simp⟩
    | comma hh hv => exact ⟨p, _, hp, .more hh hv hc hw, by simp⟩

end Place

/-- Before a selector, where more blanks may stand. -/
inductive AtIdle : Place → Bool → List UInt8 → Prop
  | between {bs : List UInt8} {rs : List Rule} : SheetText bs rs → AtIdle { rules := rs } false bs
  | comma {p q w : List UInt8} {rs : List Rule} {cs : List Trail} :
      SheetText p rs → HeadText q cs → Blank w → AtIdle ⟨rs, cs, []⟩ true (p ++ q ++ 0x2C :: w)
  | joined {pl : Place} {bs v w : List UInt8} {s : List Component} {b : UInt8} {c : Combinator} :
      pl.Spells bs → IsSelector s → Blank v → Joiner b c → Blank w →
      AtIdle (pl.join s c) true (bs ++ selectorBytes s ++ (v ++ b :: w))

theorem spells_of_atIdle {pl : Place} {o : Bool} (h : AtIdle pl o bs) : pl.Spells bs := by
  cases h with
  | between hp => simpa using Place.Spells.mk hp .nil .nil
  | comma hp hq hw => simpa using Place.Spells.mk hp (.comma hq hw) .nil
  | joined h hs hv hb hw => exact Place.spells_join h hs (.symbol hv hb hw)

theorem atIdle_blank {pl : Place} {o : Bool} (h : AtIdle pl o bs) (hb : Sign.of b = .space) :
    AtIdle pl o (bs ++ [b]) := by
  cases h with
  | between hp => exact .between (sheet_blank hp (blank_singleton hb))
  | comma hp hq hw => simpa using AtIdle.comma hp hq (blank_snoc hw hb)
  | joined h hs hv hsym hw => simpa using AtIdle.joined h hs hv hsym (blank_snoc hw hb)

/-! ## Inside a block -/

/-- A body that has been begun: perhaps clauses, each with its semicolon, and blanks. -/
inductive Begun : List UInt8 → List (String × String) → Prop
  | first {w : List UInt8} : Blank w → Begun w []
  | more {q w : List UInt8} {ds : List (String × String)} : BodyText q ds → Blank w → Begun (q ++ 0x3B :: w) ds

/-- What has been read before a declaration. -/
structure Spot where
  rules : List Rule
  chains : List Trail
  declarations : List (String × String) := []

namespace Spot

def events (sp : Spot) : List Event :=
  Grammar.events sp.rules ++ sp.chains.flatMap Trail.events ++ declarationEvents sp.declarations

inductive Spells : Spot → List UInt8 → Prop
  | mk {p h q : List UInt8} {rs : List Rule} {cs : List Trail} {ds : List (String × String)} :
      SheetText p rs → HeadText h cs → Begun q ds → Spells ⟨rs, cs, ds⟩ (p ++ h ++ 0x7B :: q)

/-- The same, with the last clause whole. -/
inductive Ends : Spot → List UInt8 → Prop
  | mk {p h q : List UInt8} {rs : List Rule} {cs : List Trail} {ds : List (String × String)} :
      SheetText p rs → HeadText h cs → BodyText q ds → Ends ⟨rs, cs, ds⟩ (p ++ h ++ 0x7B :: q)

def declare (sp : Spot) (name value : String) : Spot :=
  { sp with declarations := sp.declarations ++ [(name, value)] }

@[simp] theorem events_declare (sp : Spot) (name value : String) :
    (sp.declare name value).events = sp.events ++ [.name name, .value value] := by
  simp [events, declare, declarationEvents]

variable {sp : Spot}

theorem spells_blank (h : sp.Spells bs) (hb : Sign.of b = .space) : sp.Spells (bs ++ [b]) := by
  cases h with
  | mk hp hh hq =>
    cases hq with
    | first hw => simpa using Spells.mk hp hh (.first (blank_snoc hw hb))
    | more hq hw => simpa using Spells.mk hp hh (.more hq (blank_snoc hw hb))

theorem ends_of_spells (h : sp.Spells bs) : sp.Ends bs := by
  cases h with
  | mk hp hh hq =>
    cases hq with
    | first hw => exact .mk hp hh (.one (.empty hw))
    | more hq hw => simpa using Ends.mk hp hh (.more hq (.empty hw))

theorem ends_declare {name value : String} (h : sp.Spells bs) (hn : Name name) (hv : Blank v) (hw : Blank w)
    (hval : Value value) (hx : Blank x) :
    (sp.declare name value).Ends (bs ++ Utf8.bytes name ++ v ++ 0x3A :: (w ++ Utf8.bytes value ++ x)) := by
  cases h with
  | mk hp hh hq =>
    cases hq with
    | first hu => simpa [declare] using Ends.mk hp hh (.one (.declaration hu hn hv hw hval hx))
    | more hq hu => simpa [declare] using Ends.mk hp hh (.more hq (.declaration hu hn hv hw hval hx))

theorem spells_of_semicolon (h : sp.Ends bs) : sp.Spells (bs ++ [0x3B]) := by
  cases h with
  | mk hp hh hq => simpa using Spells.mk hp hh (.more hq blank_nil)

theorem sheet_of_closing (h : sp.Ends bs) :
    SheetText (bs ++ [0x7D]) (sp.rules ++ [⟨sp.chains, sp.declarations⟩]) := by
  cases h with
  | mk hp hh hq => simpa using SheetText.rule hp (.mk hh hq) blank_nil

theorem events_closing (sp : Spot) :
    Grammar.events (sp.rules ++ [⟨sp.chains, sp.declarations⟩]) = sp.events ++ [.blockEnd] := by
  simp [events, Rule.events]

end Spot

/-! ## Where a reader stands -/

inductive Stands : Reader → List UInt8 → List Event → Prop
  | idle {pl : Place} {l : UInt32} {o : Bool} {bs : List UInt8} :
      AtIdle pl o bs → Stands ⟨.idle, [], l, o⟩ bs pl.events
  | part {pl : Place} {part : Part} {l : UInt32} {bs p : List UInt8} {s : List Component} :
      pl.Spells bs → (∀ c ∈ s, Ident c.text) → (s.map Component.part ++ [part]).IsChain Follows →
      (∀ b ∈ p, Sign.of b = .plain) → (part = .tag → p ≠ []) →
      Stands ⟨.selector part, p, l, true⟩ (bs ++ selectorBytes s ++ mark part ++ p.reverse)
        (pl.events ++ s.map Component.event)
  | after {pl : Place} {l : UInt32} {bs w : List UInt8} {s : List Component} :
      pl.Spells bs → IsSelector s → Blank w → w ≠ [] →
      Stands ⟨.combinator, [], l, true⟩ (bs ++ selectorBytes s ++ w) (pl.events ++ selectorEvents s)
  | symbol {pl : Place} {l : UInt32} {bs v : List UInt8} {b : UInt8} {s : List Component} {c : Combinator} :
      pl.Spells bs → IsSelector s → Blank v → Joiner b c →
      Stands ⟨.combinator, [b], l, true⟩ (bs ++ selectorBytes s ++ (v ++ [b])) (pl.events ++ selectorEvents s)
  | block {sp : Spot} {l : UInt32} {bs : List UInt8} : sp.Spells bs → Stands ⟨.block, [], l, true⟩ bs sp.events
  | name {sp : Spot} {l : UInt32} {bs p : List UInt8} :
      sp.Spells bs → p ≠ [] → (∀ b ∈ p, NameByte b) → Stands ⟨.name, p, l, true⟩ (bs ++ p.reverse) sp.events
  | colon {sp : Spot} {l : UInt32} {bs v : List UInt8} {name : String} :
      sp.Spells bs → Name name → Blank v →
      Stands ⟨.colon, [], l, true⟩ (bs ++ Utf8.bytes name ++ v) (sp.events ++ [.name name])
  | value {sp : Spot} {l : UInt32} {bs v w p : List UInt8} {name : String} :
      sp.Spells bs → Name name → Blank v → Blank w → (∀ b ∈ p, ValueByte b) →
      Stands ⟨.value, p, l, true⟩ (bs ++ Utf8.bytes name ++ v ++ 0x3A :: (w ++ p.reverse))
        (sp.events ++ [.name name])
  | terminator {sp : Spot} {l : UInt32} {bs v w x : List UInt8} {name value : String} :
      sp.Spells bs → Name name → Blank v → Blank w → Value value → Blank x →
      Stands ⟨.terminator, [], l, true⟩ (bs ++ Utf8.bytes name ++ v ++ 0x3A :: (w ++ Utf8.bytes value ++ x))
        (sp.events ++ [.name name, .value value])

/-- The same place in other words. -/
theorem stands_of_eq {bs' : List UInt8} {es' : List Event} (h : Stands r bs' es') (hb : bs = bs') (he : es = es') :
    Stands r bs es := by
  subst hb; subst he; exact h

/-! ## One byte further -/

/-- A selector starts at a place. -/
theorem stands_mark {pl : Place} {part : Part} (h : pl.Spells bs) (hm : Marks b part) :
    Stands ⟨.selector part, [], l, true⟩ (bs ++ [b]) pl.events := by
  refine stands_of_eq (.part (s := []) (p := []) h (by simp) (List.isChain_singleton part) (by simp)
    fun e => absurd e (ne_tag_of_marks hm)) ?_ ?_
  · simp [mark_of_marks hm]
  · simp

theorem stands_tag {pl : Place} (h : pl.Spells bs) (hb : Sign.of b = .plain) :
    Stands ⟨.selector .tag, [b], l, true⟩ (bs ++ [b]) pl.events := by
  refine stands_of_eq (.part (s := []) (p := [b]) h (by simp) (List.isChain_singleton _) (by simpa using hb)
    (by simp)) ?_ ?_
  · simp [mark]
  · simp

theorem stands_step_idle {pl : Place} {o : Bool} (h : AtIdle pl o bs) (ha : Accepts ⟨.idle, [], l, o⟩ b es r') :
    Stands r' (bs ++ [b]) (pl.events ++ es) := by
  cases ha with
  | idleSpace hb => simpa using Stands.idle (atIdle_blank h hb)
  | idleMark hm => simpa using stands_mark (spells_of_atIdle h) hm
  | idleTag hb => simpa using stands_tag (spells_of_atIdle h) hb

/-- A component that may end makes a selector of those before it. -/
theorem isSelector_of_ended {part : Part} {text : String} {s : List Component} (hs : ∀ c ∈ s, Ident c.text)
    (hf : (s.map Component.part ++ [part]).IsChain Follows) (hp : ∀ x ∈ p, Sign.of x = .plain)
    (htag : part = .tag → p ≠ []) (ht : Utf8.decode? p.reverse = some text) (he : MayEnd part text) :
    IsSelector (s ++ [⟨part, text⟩]) := by
  have hbytes : p.reverse = Utf8.bytes text := Utf8.decode?_eq_some_iff.mp ht
  have hne : text ≠ "" := by
    by_cases hpart : part = .tag
    · rintro rfl
      exact htag hpart (by simpa using hbytes)
    · exact he hpart
  refine ⟨by simp, fun c hc => ?_, by simpa using hf⟩
  rcases List.mem_append.mp hc with hc | hc
  · exact hs c hc
  · rw [List.mem_singleton.mp hc]
    exact ⟨hne, fun x hx => hp x (by rw [← hbytes] at hx; simpa using hx)⟩

/-- The comma after a chain. -/
theorem stands_comma {pl : Place} {s : List Component} (h : pl.Spells bs) (hs : IsSelector s) (hw : Blank w)
    (hb : Sign.of b = .comma) :
    Stands ⟨.idle, [], l, true⟩ (bs ++ selectorBytes s ++ w ++ [b]) (pl.events ++ selectorEvents s ++ [.chainEnd]) := by
  obtain ⟨p, q, hp, hq, e⟩ := Place.head_of_spells h hs hw
  rw [eq_of_sign rfl hb, e]
  have hidle : AtIdle (pl.next s) true (p ++ q ++ [0x2C]) := .comma hp hq blank_nil
  exact stands_of_eq (.idle hidle) rfl (by simp)

/-- The brace that opens the block of a rule. -/
theorem stands_opening {pl : Place} {s : List Component} (h : pl.Spells bs) (hs : IsSelector s) (hw : Blank w)
    (hb : Sign.of b = .opening) :
    Stands ⟨.block, [], l, true⟩ (bs ++ selectorBytes s ++ w ++ [b])
      (pl.events ++ selectorEvents s ++ [.chainEnd]) := by
  obtain ⟨p, q, hp, hq, e⟩ := Place.head_of_spells h hs hw
  rw [eq_of_sign rfl hb, e]
  have hspot : Spot.Spells ⟨pl.rules, (pl.next s).chains, []⟩ (p ++ q ++ [0x7B]) := .mk hp hq (.first blank_nil)
  refine stands_of_eq (.block hspot) rfl ?_
  rw [← Place.events_next]
  simp [Spot.events, Place.events, Place.next]

theorem stands_step_part {pl : Place} {part : Part} {s : List Component} (h : pl.Spells bs)
    (hs : ∀ c ∈ s, Ident c.text) (hf : (s.map Component.part ++ [part]).IsChain Follows)
    (hp : ∀ x ∈ p, Sign.of x = .plain) (htag : part = .tag → p ≠ [])
    (ha : Accepts ⟨.selector part, p, l, true⟩ b es r') :
    Stands r' (bs ++ selectorBytes s ++ mark part ++ p.reverse ++ [b]) (pl.events ++ s.map Component.event ++ es) := by
  -- the bytes so far end in a whole selector, once the token is taken
  have hbytes : ∀ text, Utf8.decode? p.reverse = some text →
      selectorBytes s ++ mark part ++ p.reverse = selectorBytes (s ++ [⟨part, text⟩]) := fun text ht => by
    simp [Component.bytes, Utf8.decode?_eq_some_iff.mp ht]
  cases ha with
  | partPlain hb =>
    exact stands_of_eq (.part h hs hf (List.forall_mem_cons.mpr ⟨hb, hp⟩) (by simp)) (by simp) (by simp)
  | partMark hm hnext ht he =>
    have hsel := isSelector_of_ended hs hf hp htag ht he
    have hne := ne_tag_of_marks hm
    refine stands_of_eq (.part (p := []) h hsel.idents ?_ (by simp) fun e => absurd e hne) ?_ (by simp)
    · rw [List.map_append, List.isChain_append]
      refine ⟨by simpa using hf, List.isChain_singleton _, ?_⟩
      simpa [Follows] using And.intro hne hnext
    · simp [mark_of_marks hm, ← hbytes _ ht]
  | partSpace hb ht he =>
    have hsel := isSelector_of_ended hs hf hp htag ht he
    refine stands_of_eq (.after (w := [b]) h hsel (blank_singleton hb) (by simp)) ?_ ?_
    · simp [← hbytes _ ht]
    · simp [selectorEvents]
  | partJoiner hb ht he =>
    have hsel := isSelector_of_ended hs hf hp htag ht he
    obtain ⟨c, hc⟩ := symbol_of_joiner hb
    refine stands_of_eq (.symbol (v := []) h hsel blank_nil hc) ?_ ?_
    · simp [← hbytes _ ht]
    · simp [selectorEvents]
  | partComma hb ht he =>
    have hsel := isSelector_of_ended hs hf hp htag ht he
    refine stands_of_eq (stands_comma h hsel blank_nil hb) ?_ ?_
    · simp [← hbytes _ ht]
    · simp [selectorEvents]
  | partOpening hb ht he =>
    have hsel := isSelector_of_ended hs hf hp htag ht he
    refine stands_of_eq (stands_opening h hsel blank_nil hb) ?_ ?_
    · simp [← hbytes _ ht]
    · simp [selectorEvents]

/-- The token between two selectors that are joined by blanks alone is the descendant
    combinator. -/
theorem eq_descendant {text : String} {c : Combinator} (ht : Utf8.decode? [] = some text)
    (hc : Combinator.ofToken? text = some c) : c = .descendant := by
  rw [Utf8.decode?_nil] at ht
  cases ht; cases hc; rfl

theorem symbol_unique {text : String} {c d : Combinator} (h : Joiner b c) (ht : Utf8.decode? [b] = some text)
    (hd : Combinator.ofToken? text = some d) : d = c := by
  cases h with
  | child => rw [show [0x3E] = Utf8.bytes ">" from rfl, Utf8.decode?_bytes] at ht; cases ht; cases hd; rfl
  | next => rw [show [0x2B] = Utf8.bytes "+" from rfl, Utf8.decode?_bytes] at ht; cases ht; cases hd; rfl
  | subsequent => rw [show [0x7E] = Utf8.bytes "~" from rfl, Utf8.decode?_bytes] at ht; cases ht; cases hd; rfl

theorem stands_step_after {pl : Place} {s : List Component} (h : pl.Spells bs) (hs : IsSelector s) (hw : Blank w)
    (hne : w ≠ []) (ha : Accepts ⟨.combinator, [], l, true⟩ b es r') :
    Stands r' (bs ++ selectorBytes s ++ w ++ [b]) (pl.events ++ selectorEvents s ++ es) := by
  cases ha with
  | combinatorSpace hb =>
    exact stands_of_eq (.after h hs (blank_snoc hw hb) (by simp)) (by simp) (by simp)
  | combinatorEnd _ hp _ _ => exact absurd rfl hp
  | combinatorJoiner hb =>
    obtain ⟨c, hc⟩ := symbol_of_joiner hb
    exact stands_of_eq (.symbol h hs hw hc) (by simp) (by simp)
  | combinatorComma hb => exact stands_comma h hs hw hb
  | combinatorOpening hb => exact stands_opening h hs hw hb
  | combinatorMark hm ht hc =>
    rw [eq_descendant ht hc]
    exact stands_of_eq (stands_mark (Place.spells_join h hs (.blank hw hne)) hm) rfl (by simp)
  | combinatorTag hb ht hc =>
    rw [eq_descendant ht hc]
    exact stands_of_eq (stands_tag (Place.spells_join h hs (.blank hw hne)) hb) rfl (by simp)

theorem stands_step_symbol {pl : Place} {s : List Component} {c : Combinator} {a : UInt8} (h : pl.Spells bs)
    (hs : IsSelector s) (hv : Blank v) (hsym : Joiner a c) (ha : Accepts ⟨.combinator, [a], l, true⟩ b es r') :
    Stands r' (bs ++ selectorBytes s ++ (v ++ [a]) ++ [b]) (pl.events ++ selectorEvents s ++ es) := by
  have hjoint : Joint (v ++ [a]) c := .symbol hv hsym blank_nil
  cases ha with
  | combinatorEnd hb _ ht hc =>
    rw [symbol_unique hsym ht hc]
    exact stands_of_eq (.idle (.joined h hs hv hsym (w := [b]) (blank_singleton hb))) (by simp) (by simp)
  | combinatorMark hm ht hc =>
    rw [symbol_unique hsym ht hc]
    exact stands_of_eq (stands_mark (Place.spells_join h hs hjoint) hm) rfl (by simp)
  | combinatorTag hb ht hc =>
    rw [symbol_unique hsym ht hc]
    exact stands_of_eq (stands_tag (Place.spells_join h hs hjoint) hb) rfl (by simp)

theorem stands_step_block {sp : Spot} (h : sp.Spells bs) (ha : Accepts ⟨.block, [], l, true⟩ b es r') :
    Stands r' (bs ++ [b]) (sp.events ++ es) := by
  cases ha with
  | blockSpace hb => simpa using Stands.block (Spot.spells_blank h hb)
  | blockSemicolon hb =>
    rw [eq_of_sign rfl hb]
    simpa using Stands.block (Spot.spells_of_semicolon (Spot.ends_of_spells h))
  | blockClosing hb =>
    rw [eq_of_sign rfl hb]
    exact stands_of_eq (.idle (.between (Spot.sheet_of_closing (Spot.ends_of_spells h)))) rfl
      (by simp [Place.events, ← Spot.events_closing])
  | blockName hb => exact stands_of_eq (.name (p := [b]) h (by simp) (by simpa using hb)) (by simp) (by simp)

theorem name_of_token {text : String} (hne : p ≠ []) (hp : ∀ x ∈ p, NameByte x)
    (ht : Utf8.decode? p.reverse = some text) : Name text := by
  have hbytes : p.reverse = Utf8.bytes text := Utf8.decode?_eq_some_iff.mp ht
  refine ⟨?_, fun x hx => hp x (by rw [← hbytes] at hx; simpa using hx)⟩
  rintro rfl
  exact hne (by simpa using hbytes)

theorem stands_step_name {sp : Spot} (h : sp.Spells bs) (hne : p ≠ []) (hp : ∀ x ∈ p, NameByte x)
    (ha : Accepts ⟨.name, p, l, true⟩ b es r') : Stands r' (bs ++ p.reverse ++ [b]) (sp.events ++ es) := by
  cases ha with
  | nameByte hb => exact stands_of_eq (.name h (by simp) (List.forall_mem_cons.mpr ⟨hb, hp⟩)) (by simp) (by simp)
  | nameSpace hb ht =>
    rw [Utf8.decode?_eq_some_iff.mp ht]
    exact .colon h (name_of_token hne hp ht) (blank_singleton hb)
  | nameColon hb ht =>
    rw [Utf8.decode?_eq_some_iff.mp ht, eq_of_sign rfl hb]
    exact stands_of_eq (.value (v := []) (w := []) (p := []) h (name_of_token hne hp ht) blank_nil blank_nil
      (by simp)) (by simp) rfl

theorem stands_step_colon {sp : Spot} {name : String} (h : sp.Spells bs) (hn : Name name) (hv : Blank v)
    (ha : Accepts ⟨.colon, [], l, true⟩ b es r') :
    Stands r' (bs ++ Utf8.bytes name ++ v ++ [b]) (sp.events ++ [.name name] ++ es) := by
  cases ha with
  | colonSpace hb => exact stands_of_eq (.colon h hn (blank_snoc hv hb)) (by simp) (by simp)
  | colonColon hb =>
    rw [eq_of_sign rfl hb]
    exact stands_of_eq (.value (w := []) (p := []) h hn hv blank_nil (by simp)) (by simp) (by simp)

theorem value_of_token {text : String} (hp : ∀ x ∈ p, ValueByte x) (ht : Utf8.decode? p.reverse = some text) :
    Value text := by
  intro x hx
  rw [← Utf8.decode?_eq_some_iff.mp ht] at hx
  exact hp x (by simpa using hx)

/-- The semicolon after a declaration. -/
theorem stands_semicolon {sp : Spot} {name value : String} (h : (sp.declare name value).Ends bs)
    (hb : Sign.of b = .semicolon) :
    Stands ⟨.block, [], l, true⟩ (bs ++ [b]) (sp.events ++ [.name name, .value value]) := by
  rw [eq_of_sign rfl hb]
  exact stands_of_eq (.block (Spot.spells_of_semicolon h)) rfl (by simp)

/-- The brace that closes a block after a declaration. -/
theorem stands_closing {sp : Spot} {name value : String} (h : (sp.declare name value).Ends bs)
    (hb : Sign.of b = .closing) :
    Stands ⟨.idle, [], l, false⟩ (bs ++ [b]) (sp.events ++ [.name name, .value value] ++ [.blockEnd]) := by
  rw [eq_of_sign rfl hb, ← Spot.events_declare, ← Spot.events_closing]
  exact stands_of_eq (.idle (.between (Spot.sheet_of_closing h))) rfl (by simp [Place.events])

theorem stands_step_value {sp : Spot} {name : String} (h : sp.Spells bs) (hn : Name name) (hv : Blank v)
    (hw : Blank w) (hp : ∀ x ∈ p, ValueByte x) (ha : Accepts ⟨.value, p, l, true⟩ b es r') :
    Stands r' (bs ++ Utf8.bytes name ++ v ++ 0x3A :: (w ++ p.reverse) ++ [b]) (sp.events ++ [.name name] ++ es) := by
  have hends : ∀ text, Utf8.decode? p.reverse = some text →
      (sp.declare name text).Ends (bs ++ Utf8.bytes name ++ v ++ 0x3A :: (w ++ p.reverse)) := fun text ht => by
    rw [Utf8.decode?_eq_some_iff.mp ht]
    simpa using Spot.ends_declare h hn hv hw (value_of_token hp ht) blank_nil
  cases ha with
  | valueByte hb => exact stands_of_eq (.value h hn hv hw (List.forall_mem_cons.mpr ⟨hb, hp⟩)) (by simp) (by simp)
  | valueSpace hb => exact stands_of_eq (.value h hn hv (blank_snoc hw hb) hp) (by simp) (by simp)
  | valueEnd hb _ ht =>
    have hx : Blank [b] := blank_singleton hb
    rw [Utf8.decode?_eq_some_iff.mp ht]
    exact stands_of_eq (.terminator h hn hv hw (value_of_token hp ht) hx) (by simp) (by simp)
  | valueSemicolon hb ht => exact stands_of_eq (stands_semicolon (hends _ ht) hb) rfl (by simp)
  | valueClosing hb ht => exact stands_of_eq (stands_closing (hends _ ht) hb) rfl (by simp)

theorem stands_step_terminator {sp : Spot} {name value : String} (h : sp.Spells bs) (hn : Name name) (hv : Blank v)
    (hw : Blank w) (hval : Value value) (hx : Blank x) (ha : Accepts ⟨.terminator, [], l, true⟩ b es r') :
    Stands r' (bs ++ Utf8.bytes name ++ v ++ 0x3A :: (w ++ Utf8.bytes value ++ x) ++ [b])
      (sp.events ++ [.name name, .value value] ++ es) := by
  have hends := Spot.ends_declare h hn hv hw hval hx
  cases ha with
  | terminatorSpace hb => exact stands_of_eq (.terminator h hn hv hw hval (blank_snoc hx hb)) (by simp) (by simp)
  | terminatorSemicolon hb => exact stands_of_eq (stands_semicolon hends hb) rfl (by simp)
  | terminatorClosing hb => exact stands_closing hends hb

/-! ## Runs -/

theorem stands_start : Stands {} [] [] := .idle (.between (.blank blank_nil))

/-- A byte that is not refused keeps a reader in a derivation. -/
theorem stands_step (h : Stands r bs es) (hs : Accepts (r.count b) b fs r') : Stands r' (bs ++ [b]) (es ++ fs) := by
  rw [count_eq] at hs
  cases h with
  | idle h => exact stands_step_idle h hs
  | part h h1 h2 h3 h4 => exact stands_step_part h h1 h2 h3 h4 hs
  | after h h1 h2 h3 => exact stands_step_after h h1 h2 h3 hs
  | symbol h h1 h2 h3 => exact stands_step_symbol h h1 h2 h3 hs
  | block h => exact stands_step_block h hs
  | name h h1 h2 => exact stands_step_name h h1 h2 hs
  | colon h h1 h2 => exact stands_step_colon h h1 h2 hs
  | value h h1 h2 h3 h4 => exact stands_step_value h h1 h2 h3 h4 hs
  | terminator h h1 h2 h3 h4 h5 => exact stands_step_terminator h h1 h2 h3 h4 h5 hs

theorem stands_run (h : Stands r p es) (hr : r.run bs = ⟨r', fs, none⟩) : Stands r' (p ++ bs) (es ++ fs) :=
  keeps_run stands_step h hr

/-- A new reader that has not been stopped stands in a derivation. -/
theorem stands_of_run (h : (({} : Reader).run bs).fault? = none) :
    Stands (({} : Reader).run bs).reader bs (({} : Reader).run bs).events :=
  stands_run stands_start (by rw [← h])

/-- Where the input may end, the derivation is whole. -/
theorem sheet_of_stands (h : Stands r bs es) (hi : r.isIdle = true) : ∃ rs, SheetText bs rs ∧ es = events rs := by
  cases h with
  | idle h =>
    cases h with
    | between hp => exact ⟨_, hp, by simp [Place.events]⟩
    | comma | joined => simp [isIdle] at hi
  | _ => simp [isIdle] at hi

end Cascade.Reader
