/-
  Cascade.Proofs.Reader.Reads — every text of the grammar is read to its end, and what
  is reported is what stands in it.

  `Reads r bs es s` says how a reader gets over some bytes, whatever the line. A token is
  reported only by the byte after it, and a combinator only by the selector after it, so
  what a piece of text reports depends on where the reader comes from:

  - `Ready r es`: a selector may start, and starting it reports `es`;
  - after a selector the reader is in its last component (`inPart`); a byte that may
    follow then does what it does after a blank, and first reports the component
    (`reads_delimiter`), so the rest is said from `afterSelector` alone.
-/

import Cascade.Proofs.Reader.Step

namespace Cascade.Reader

open Grammar

def Reads (r : Reader) (bs : List UInt8) (es : List Event) (s : Reader) : Prop :=
  ∀ l, ∃ l', ({ r with line := l } : Reader).run bs = ⟨{ s with line := l' }, es, none⟩

variable {r s t : Reader} {b : UInt8} {bs xs ys w : List UInt8} {es fs : List Event}

theorem reads_nil (r : Reader) : Reads r [] [] r := fun l => ⟨l, rfl⟩

theorem reads_append (h : Reads r xs es s) (h' : Reads s ys fs t) : Reads r (xs ++ ys) (es ++ fs) t := by
  intro l
  obtain ⟨l1, h1⟩ := h l
  obtain ⟨l2, h2⟩ := h' l1
  exact ⟨l2, by rw [run_append, h1]; simp [Outcome.andThen, h2]⟩

/-- What a byte does to the mode and the token does not hang on the line. -/
def Steps (r : Reader) (b : UInt8) (es : List Event) (s : Reader) : Prop :=
  ∀ l, Accepts { r with line := l } b es { s with line := l }

theorem step_of_steps (h : Steps r b es s) (l : UInt32) :
    ({ r with line := l } : Reader).step b = ⟨{ s with line := lineAfter l b }, es, none⟩ := by
  rw [step_eq_iff, count_eq]
  exact h (lineAfter l b)

theorem reads_byte (h : Steps r b es s) : Reads r [b] es s := by
  intro l
  exact ⟨lineAfter l b, by rw [run_cons, step_of_steps h]; simp [Outcome.andThen]⟩

theorem reads_cons (h : Steps r b es s) (h' : Reads s bs fs t) : Reads r (b :: bs) (es ++ fs) t :=
  reads_append (reads_byte h) h'

theorem reads_blank (h : ∀ b, Sign.of b = .space → Steps r b [] r) (hw : Blank w) : Reads r w [] r := by
  induction w with
  | nil => exact reads_nil r
  | cons b w ih =>
    exact reads_cons (h b (hw b List.mem_cons_self)) (ih fun x hx => hw x (List.mem_cons_of_mem _ hx))

/-- Bytes that are added to the token. -/
theorem reads_token {ok : UInt8 → Prop} {f : List UInt8 → Reader}
    (h : ∀ p b, ok b → Steps (f p) b [] (f (b :: p))) (hbs : ∀ b ∈ bs, ok b) (p : List UInt8) :
    Reads (f p) bs [] (f (bs.reverse ++ p)) := by
  induction bs generalizing p with
  | nil => exact reads_nil _
  | cons b bs ih =>
    have := ih (fun x hx => hbs x (List.mem_cons_of_mem _ hx)) (b :: p)
    rw [List.reverse_cons, List.append_assoc]
    exact reads_cons (h p b (hbs b List.mem_cons_self)) this

/-! ## Where a selector starts -/

/-- In a component of which all bytes have been read. -/
def inPart (c : Component) : Reader :=
  { mode := .selector c.part, pending := (Utf8.bytes c.text).reverse, openRule := true }

def Ready (r : Reader) (es : List Event) : Prop := ∀ c : Component, Ident c.text → Reads r c.bytes es (inPart c)

theorem reads_ident {part : Part} (hbs : ∀ b ∈ bs, Sign.of b = .plain) (p : List UInt8) :
    Reads { mode := .selector part, pending := p, openRule := true } bs []
      { mode := .selector part, pending := bs.reverse ++ p, openRule := true } :=
  reads_token (f := fun p => { mode := .selector part, pending := p, openRule := true })
    (fun _ _ hb _ => .partPlain hb) hbs p

/-- The mark of a part is a byte that starts it, unless it is a tag. -/
theorem mark_cases (part : Part) : part = .tag ∨ ∃ b, mark part = [b] ∧ Marks b part := by
  cases part with
  | tag => exact Or.inl rfl
  | id => exact Or.inr ⟨0x23, rfl, .id rfl⟩
  | className => exact Or.inr ⟨0x2E, rfl, .className rfl⟩

theorem reads_marked {c : Component} (hc : Ident c.text) (hm : mark c.part = [b])
    (h : Steps r b es { mode := .selector c.part, openRule := true }) : Reads r c.bytes es (inPart c) := by
  have := reads_cons h (reads_ident hc.2 [])
  simpa [Component.bytes, hm, inPart] using this

theorem ready_of_steps (hm : ∀ b part, Marks b part → Steps r b es { mode := .selector part, openRule := true })
    (ht : ∀ b, Sign.of b = .plain → Steps r b es { mode := .selector .tag, pending := [b], openRule := true }) :
    Ready r es := by
  intro c hc
  rcases mark_cases c.part with htag | ⟨b, hb, hmark⟩
  · obtain ⟨part, text⟩ := c
    cases htag
    obtain ⟨b, bs, hbs⟩ := List.exists_cons_of_ne_nil (bytes_ne_nil hc.1)
    have hp : ∀ x ∈ b :: bs, Sign.of x = .plain := by rw [← hbs]; exact hc.2
    have := reads_cons (ht b (hp b List.mem_cons_self))
      (reads_ident (fun x hx => hp x (List.mem_cons_of_mem _ hx)) [b])
    simpa [Component.bytes, mark, inPart, hbs] using this
  · exact reads_marked hc hb (hm b _ hmark)

theorem ready_idle (o : Bool) : Ready { openRule := o } [] :=
  ready_of_steps (fun _ _ hm _ => .idleMark hm) fun _ hb _ => .idleTag hb

/-- After a selector and perhaps some blanks. -/
def afterSelector : Reader := { mode := .combinator, openRule := true }

theorem ready_afterSelector : Ready afterSelector [.combinator .descendant] :=
  ready_of_steps (fun _ _ hm _ => .combinatorMark hm Utf8.decode?_nil rfl)
    fun _ hb _ => .combinatorTag hb Utf8.decode?_nil rfl

theorem symbol_token {c : Combinator} (h : Joiner b c) :
    ∃ text, Utf8.decode? [b] = some text ∧ Combinator.ofToken? text = some c := by
  cases h with
  | child => exact ⟨">", Utf8.decode?_bytes ">", rfl⟩
  | next => exact ⟨"+", Utf8.decode?_bytes "+", rfl⟩
  | subsequent => exact ⟨"~", Utf8.decode?_bytes "~", rfl⟩

/-- After the symbol of a combinator. -/
def afterSymbol (b : UInt8) : Reader := { mode := .combinator, pending := [b], openRule := true }

theorem ready_afterSymbol {c : Combinator} (h : Joiner b c) : Ready (afterSymbol b) [.combinator c] := by
  obtain ⟨text, ht, hc⟩ := symbol_token h
  exact ready_of_steps (fun _ _ hm _ => .combinatorMark hm ht hc) fun _ hb _ => .combinatorTag hb ht hc

/-! ## Selectors -/

theorem reads_component {c d : Component} (hf : Follows c.part d.part) (hc : Ident c.text) (hd : Ident d.text) :
    Reads (inPart c) d.bytes [c.event] (inPart d) := by
  rcases mark_cases d.part with htag | ⟨b, hb, hm⟩
  · exact absurd htag hf.1
  · exact reads_marked hd hb fun _ => .partMark hm hf.2 (by simp [inPart]) fun _ => hc.1

theorem isSelector_init {s : List Component} {c : Component} (h : IsSelector (s ++ [c])) (hs : s ≠ []) :
    IsSelector s :=
  ⟨hs, fun d hd => h.idents d (List.mem_append_left _ hd), (isChain_follows_snoc h.order).1⟩

/-- All components but the last are reported when the last has been read. -/
theorem reads_components (hr : Ready r es) (s : List Component) (c : Component) (h : IsSelector (s ++ [c])) :
    Reads r (selectorBytes (s ++ [c])) (es ++ s.map Component.event) (inPart c) := by
  induction s using List.reverseRecOn generalizing c with
  | nil => simpa using hr c (h.idents c (by simp))
  | append_singleton s d ih =>
    have hf : Follows d.part c.part := (isChain_follows_snoc h.order).2 d (by simp)
    have hd : Ident d.text := h.idents d (by simp)
    have hc : Ident c.text := h.idents c (by simp)
    have := reads_append (ih d (isSelector_init h (by simp))) (reads_component hf hd hc)
    rw [selectorBytes_append, selectorBytes_singleton, List.map_append, ← List.append_assoc]
    exact this

/-- A byte that may stand right after a selector. -/
def Delimits (b : UInt8) : Prop := Sign.of b ∈ [.space, .joiner, .comma, .opening]

/-- Right after a selector a byte does what it does after a blank, once the last
    component has been reported. -/
theorem steps_delimiter {c : Component} (hc : Ident c.text) (hb : Delimits b) :
    ∃ es s, Steps afterSelector b es s ∧ Steps (inPart c) b (c.event :: .selectorEnd :: es) s := by
  have ht : Utf8.decode? (inPart c).pending.reverse = some c.text := by simp [inPart]
  have he : MayEnd c.part c.text := fun _ => hc.1
  simp only [Delimits, List.mem_cons, List.not_mem_nil, or_false] at hb
  rcases hb with hb | hb | hb | hb
  · exact ⟨[], afterSelector, fun _ => .combinatorSpace hb, fun _ => .partSpace hb ht he⟩
  · exact ⟨[], afterSymbol b, fun _ => .combinatorJoiner hb, fun _ => .partJoiner hb ht he⟩
  · exact ⟨[.chainEnd], { openRule := true }, fun _ => .combinatorComma hb, fun _ => .partComma hb ht he⟩
  · exact ⟨[.chainEnd], { mode := .block, openRule := true }, fun _ => .combinatorOpening hb,
      fun _ => .partOpening hb ht he⟩

theorem reads_delimiter {c : Component} (hc : Ident c.text) (hb : Delimits b)
    (h : Reads afterSelector (b :: bs) es r) : Reads (inPart c) (b :: bs) (c.event :: .selectorEnd :: es) r := by
  obtain ⟨e1, s, h1, h2⟩ := steps_delimiter hc hb
  intro l
  obtain ⟨l', hl⟩ := h l
  refine ⟨l', ?_⟩
  -- from both readers the first step leads to the same place
  rw [run_cons, step_of_steps h1] at hl
  rw [run_cons, step_of_steps h2]
  simp only [Outcome.andThen] at hl ⊢
  cases hrun : ({ s with line := lineAfter l b } : Reader).run bs with
  | mk t fs fault =>
    rw [hrun] at hl
    cases hl
    rfl

/-- A selector and what follows it. -/
theorem reads_selector {c : List Component} (hr : Ready r es) (hs : IsSelector c) (hb : Delimits b)
    (h : Reads afterSelector (b :: bs) fs t) :
    Reads r (selectorBytes c ++ b :: bs) (es ++ selectorEvents c ++ fs) t := by
  obtain ⟨init, last, rfl⟩ := (List.eq_nil_or_concat' c).resolve_left hs.nonempty
  have := reads_append (reads_components hr init last hs) (reads_delimiter (hs.idents last (by simp)) hb h)
  simpa [selectorEvents] using this

/-! ## Chains -/

theorem joint_delimits {c : Combinator} (h : Joint bs c) : ∃ b xs, bs = b :: xs ∧ Delimits b := by
  cases h with
  | blank hw hne =>
    obtain ⟨b, xs, rfl⟩ := List.exists_cons_of_ne_nil hne
    exact ⟨b, xs, rfl, by simp [Delimits, hw b List.mem_cons_self]⟩
  | @symbol v w b _ hv hb hw =>
    cases v with
    | nil => exact ⟨b, w, rfl, by simp [Delimits, symbol_joiner hb]⟩
    | cons x v => exact ⟨x, v ++ b :: w, rfl, by simp [Delimits, hv x List.mem_cons_self]⟩

theorem reads_afterSelector_blank (hw : Blank w) : Reads afterSelector w [] afterSelector :=
  reads_blank (fun _ hb _ => .combinatorSpace hb) hw

theorem reads_idle_blank (o : Bool) (hw : Blank w) : Reads { openRule := o } w [] { openRule := o } :=
  reads_blank (fun _ hb _ => .idleSpace hb) hw

/-- A joint leaves the reader ready; its combinator is reported within it or by the next
    selector. -/
theorem reads_joint {c : Combinator} (h : Joint bs c) :
    ∃ s fs gs, Reads afterSelector bs fs s ∧ Ready s gs ∧ fs ++ gs = [.combinator c] := by
  cases h with
  | blank hw _ => exact ⟨afterSelector, [], _, reads_afterSelector_blank hw, ready_afterSelector, rfl⟩
  | @symbol v w b _ hv hb hw =>
    have hstep : Steps afterSelector b [] (afterSymbol b) := fun _ => .combinatorJoiner (symbol_joiner hb)
    have hsym := reads_append (reads_afterSelector_blank hv) (reads_byte hstep)
    cases w with
    | nil => exact ⟨afterSymbol b, [], _, hsym, ready_afterSymbol hb, rfl⟩
    | cons x w =>
      obtain ⟨text, ht, hc⟩ := symbol_token hb
      have hend : Steps (afterSymbol b) x [.combinator c] { openRule := true } :=
        fun _ => .combinatorEnd (hw x List.mem_cons_self) (by simp [afterSymbol]) ht hc
      have hrest := reads_idle_blank true fun y hy => hw y (List.mem_cons_of_mem _ hy)
      have := reads_append hsym (reads_cons hend hrest)
      exact ⟨_, _, [], by simpa using this, ready_idle true, rfl⟩

theorem reads_outer {xs : List (List Component × Combinator)} (h : OuterText bs xs) (hr : Ready r es) :
    ∃ s fs gs, Reads r bs fs s ∧ Ready s gs ∧ fs ++ gs = es ++ outerEvents xs := by
  induction h with
  | nil => exact ⟨r, [], es, reads_nil r, hr, by simp⟩
  | @snoc bs j xs c k _ hs hj ih =>
    obtain ⟨s1, f1, g1, h1, hr1, e1⟩ := ih
    obtain ⟨s2, f2, g2, h2, hr2, e2⟩ := reads_joint hj
    obtain ⟨b, ys, rfl, hb⟩ := joint_delimits hj
    have := reads_append h1 (reads_selector hr1 hs hb h2)
    refine ⟨s2, _, g2, by simpa using this, hr2, ?_⟩
    calc f1 ++ (g1 ++ (selectorEvents c ++ f2)) ++ g2
        = (f1 ++ g1) ++ (selectorEvents c ++ (f2 ++ g2)) := by simp
      _ = es ++ outerEvents (xs ++ [(c, k)]) := by rw [e1, e2]; simp

/-- The byte after a chain: a comma or the block. -/
inductive EndsChain : UInt8 → Reader → Prop
  | comma : EndsChain 0x2C { openRule := true }
  | opening : EndsChain 0x7B { mode := .block, openRule := true }

theorem steps_endsChain (h : EndsChain b s) : Steps afterSelector b [.chainEnd] s := by
  cases h with
  | comma => exact fun _ => .combinatorComma rfl
  | opening => exact fun _ => .combinatorOpening rfl

theorem blank_delimits (hw : Blank w) (h : EndsChain b s) : ∃ x xs, w ++ [b] = x :: xs ∧ Delimits x := by
  cases w with
  | nil => exact ⟨b, [], rfl, by cases h <;> simp [Delimits] <;> decide⟩
  | cons x w => exact ⟨x, w ++ [b], rfl, by simp [Delimits, hw x List.mem_cons_self]⟩

theorem reads_chain {c : Trail} (hc : ChainText bs c) (hr : Ready r []) (hw : Blank w) (hb : EndsChain b s) :
    Reads r (bs ++ w ++ [b]) c.events s := by
  cases hc with
  | @mk bs xs c ho hs =>
    obtain ⟨s1, f1, g1, h1, hr1, e1⟩ := reads_outer ho hr
    have hend := reads_append (reads_afterSelector_blank hw) (reads_byte (steps_endsChain hb))
    obtain ⟨x, ys, hx, hd⟩ := blank_delimits hw hb
    rw [hx] at hend
    have := reads_append h1 (reads_selector hr1 hs hd hend)
    rw [← hx] at this
    have he : f1 ++ (g1 ++ selectorEvents c ++ ([] ++ [.chainEnd])) = Trail.events ⟨xs, c⟩ := by
      rw [List.nil_append, ← List.append_assoc, ← List.append_assoc, e1]
      simp [Trail.events]
    rw [he] at this
    simpa using this

theorem reads_head {cs : List Trail} (h : HeadText bs cs) (hr : Ready r []) (hb : EndsChain b s) :
    Reads r (bs ++ [b]) (cs.flatMap Trail.events) s := by
  induction h generalizing b s with
  | one hc hw => simpa using reads_chain hc hr hw hb
  | @more bs v q w cs c _ hv hc hw ih =>
    have hcomma := ih .comma
    have hchain := reads_append (reads_idle_blank true hv) (reads_chain hc (ready_idle true) hw hb)
    simpa using reads_append hcomma hchain

/-! ## Blocks -/

/-- Inside the block of a rule. -/
def inside (mode : Mode) (pending : List UInt8) : Reader := { mode, pending, openRule := true }

def inBlock : Reader := inside .block []

/-- The byte after a declaration. -/
inductive EndsClause : UInt8 → List Event → Reader → Prop
  | semicolon : EndsClause 0x3B [] inBlock
  | closing : EndsClause 0x7D [.blockEnd] {}

theorem reads_inBlock_blank (hw : Blank w) : Reads inBlock w [] inBlock :=
  reads_blank (fun _ hb _ => .blockSpace hb) hw

theorem reads_name {name : String} (h : Name name) :
    Reads inBlock (Utf8.bytes name) [] (inside .name (Utf8.bytes name).reverse) := by
  obtain ⟨b, bs, hbs⟩ := List.exists_cons_of_ne_nil (bytes_ne_nil h.1)
  have hb : ∀ x ∈ b :: bs, NameByte x := by rw [← hbs]; exact h.2
  have hstart : Steps inBlock b [] (inside .name [b]) :=
    fun _ => .blockName (hb b List.mem_cons_self)
  have htoken := reads_token (f := inside .name)
    (fun _ _ hx _ => .nameByte hx) (fun x hx => hb x (List.mem_cons_of_mem _ hx)) [b]
  rw [hbs]
  simpa using reads_cons hstart htoken

/-- A name, its colon and the blanks around it. -/
theorem reads_name_colon (name : String) {v : List UInt8} (hv : Blank v) :
    Reads (inside .name (Utf8.bytes name).reverse) (v ++ [0x3A]) [.name name]
      (inside .value []) := by
  have ht : Utf8.decode? (Utf8.bytes name).reverse.reverse = some name := by simp
  cases v with
  | nil => exact reads_byte fun _ => .nameColon rfl ht
  | cons x v =>
    have hstart : Steps (inside .name (Utf8.bytes name).reverse) x [.name name]
        (inside .colon []) := fun _ => .nameSpace (hv x List.mem_cons_self) ht
    have hrest := reads_blank (r := inside .colon []) (fun _ hb _ => .colonSpace hb)
      fun y hy => hv y (List.mem_cons_of_mem _ hy)
    have hcolon : Steps (inside .colon []) 0x3A [] (inside .value []) :=
      fun _ => .colonColon rfl
    exact reads_cons hstart (reads_append hrest (reads_byte hcolon))

theorem steps_inBlock_end (h : EndsClause b es s) : Steps inBlock b es s := by
  cases h with
  | semicolon => exact fun _ => .blockSemicolon rfl
  | closing => exact fun _ => .blockClosing rfl

theorem steps_terminator_end (h : EndsClause b es s) : Steps (inside .terminator []) b es s := by
  cases h with
  | semicolon => exact fun _ => .terminatorSemicolon rfl
  | closing => exact fun _ => .terminatorClosing rfl

theorem steps_value_end {p : List UInt8} {value : String} (hp : p.reverse = Utf8.bytes value)
    (h : EndsClause b es s) : Steps (inside .value p) b (.value value :: es) s := by
  have ht : Utf8.decode? p.reverse = some value := by simp [hp]
  cases h with
  | semicolon => exact fun _ => .valueSemicolon rfl ht
  | closing => exact fun _ => .valueClosing rfl ht

/-- Before a value blanks are skipped; an empty value is all blanks. -/
theorem reads_value_blank (hw : Blank w) :
    Reads (inside .value []) w [] (inside .value []) :=
  reads_blank (fun _ hb _ => .valueSpace hb) hw

theorem reads_value {value : String} {x : List UInt8} (h : Value value) (hx : Blank x) (hb : EndsClause b es s) :
    Reads (inside .value []) (Utf8.bytes value ++ x ++ [b]) (.value value :: es) s := by
  by_cases hne : value = ""
  · subst hne
    simpa using reads_append (reads_value_blank hx) (reads_byte (steps_value_end (p := []) rfl hb))
  have htoken := reads_token (f := inside .value)
    (fun _ _ hx _ => .valueByte hx) h []
  rw [List.append_nil] at htoken
  have hrev : (Utf8.bytes value).reverse.reverse = Utf8.bytes value := List.reverse_reverse _
  cases x with
  | nil => simpa using reads_append htoken (reads_byte (steps_value_end hrev hb))
  | cons y x =>
    have hend : Steps (inside .value (Utf8.bytes value).reverse) y [.value value]
        (inside .terminator []) :=
      fun _ => .valueEnd (hx y List.mem_cons_self) (by simpa [inside] using bytes_ne_nil hne) (by simp [inside])
    have hrest := reads_blank (r := inside .terminator []) (fun _ hb _ => .terminatorSpace hb)
      fun z hz => hx z (List.mem_cons_of_mem _ hz)
    have := reads_append htoken (reads_cons hend (reads_append hrest (reads_byte (steps_terminator_end hb))))
    simpa using this

theorem reads_clause {ds : List (String × String)} (h : ClauseText bs ds) (hb : EndsClause b es s) :
    Reads inBlock (bs ++ [b]) (declarationEvents ds ++ es) s := by
  cases h with
  | empty hw => exact reads_append (reads_inBlock_blank hw) (reads_byte (steps_inBlock_end hb))
  | @declaration u v w x name value hu hn hv hw hval hx =>
    have hname := reads_append (reads_inBlock_blank hu) (reads_append (reads_name hn) (reads_name_colon name hv))
    have hvalue := reads_append (reads_value_blank hw) (reads_value hval hx hb)
    simpa [declarationEvents] using reads_append hname hvalue

theorem reads_body {ds : List (String × String)} (h : BodyText bs ds) (hb : EndsClause b es s) :
    Reads inBlock (bs ++ [b]) (declarationEvents ds ++ es) s := by
  induction h generalizing b es s with
  | one hc => exact reads_clause hc hb
  | more _ hc ih => simpa using reads_append (ih .semicolon) (reads_clause hc hb)

/-! ## Rules and sheets -/

theorem reads_rule {rule : Rule} (h : RuleText bs rule) : Reads {} bs rule.events {} := by
  cases h with
  | mk hh hq =>
    have := reads_append (reads_head hh (ready_idle false) .opening) (reads_body hq .closing)
    simpa [Rule.events] using this

theorem reads_sheet {rs : List Rule} (h : SheetText bs rs) : Reads {} bs (events rs) {} := by
  induction h with
  | blank hw => exact reads_idle_blank false hw
  | rule _ hr hw ih => simpa using reads_append ih (reads_append (reads_rule hr) (reads_idle_blank false hw))

/-- A sheet is read to its end, and the input may end there. -/
theorem run_sheet {rs : List Rule} (h : SheetText bs rs) :
    ∃ l, ({} : Reader).run bs = ⟨{ line := l }, events rs, none⟩ :=
  reads_sheet h 1

end Cascade.Reader
