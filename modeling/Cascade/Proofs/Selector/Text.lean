/-
  Cascade.Proofs.Selector.Text — the text of a chain is a chain's text. A chain that is
  `Writable` asks for identifiers only, for something in each selector, and has a
  combinator between two selectors and none at its end. Its text is then derived by the
  grammar, from the chain itself and nothing else: `trailOf` says how the chain is
  written (`chainText_of_writable`), and what is so written is the chain again
  (`chain_trailOf`). Every chain that the grammar derives is `Writable`.
-/

import Cascade.Proofs.Builder.Made

namespace Cascade

open Grammar

/-- Asks for identifiers only, and for one at least. -/
structure Selector.Writable (s : Selector) : Prop where
  nonempty : s.isEmpty = false
  tag : s.tag = "" ∨ Ident s.tag
  id : s.id = "" ∨ Ident s.id
  classes : ∀ c ∈ s.classes, Ident c

/-- Selectors that can be written, with a combinator after each but the last. -/
def Chain.Writable (c : Chain) : Prop :=
  ∃ outer subject, c.selectors = outer ++ [subject] ∧ (∀ s ∈ outer, s.Writable ∧ s.combinator ≠ .none) ∧
    subject.Writable ∧ subject.combinator = .none

namespace Grammar

/-! ## How a selector is written -/

/-- A part that is left out where there is nothing to write. -/
def optional (part : Part) (text : String) : List Component := if text.isEmpty then [] else [⟨part, text⟩]

def classComponents (cs : List String) : List Component := cs.map (⟨.className, ·⟩)

def componentsOf (s : Selector) : List Component :=
  optional .tag s.tag ++ optional .id s.id ++ classComponents s.classes

def trailOf (c : Chain) : Trail :=
  ⟨c.selectors.dropLast.map fun s => (componentsOf s, s.combinator), componentsOf (c.subject?.getD {})⟩

variable {s : Selector} {c : Chain} {part : Part} {text : String}

theorem optional_empty : optional part "" = [] := rfl

theorem optional_of_ne (h : text ≠ "") : optional part text = [⟨part, text⟩] := by
  unfold optional
  rw [if_neg]
  simpa using h

theorem mem_optional {x : Component} (h : x ∈ optional part text) : text ≠ "" ∧ x = ⟨part, text⟩ := by
  by_cases e : text = ""
  · subst e; cases h
  · rw [optional_of_ne e] at h
    exact ⟨e, List.mem_singleton.mp h⟩

theorem bytes_optional (part : Part) (text : String) :
    selectorBytes (optional part text) = if text = "" then [] else mark part ++ Utf8.bytes text := by
  by_cases e : text = ""
  · subst e; rfl
  · rw [optional_of_ne e, if_neg e]
    simp [Component.bytes]

theorem bytes_classComponents (cs : List String) :
    selectorBytes (classComponents cs) = Utf8.bytes (String.join (cs.map ("." ++ ·))) := by
  rw [Utf8.bytes_join]
  induction cs with
  | nil => rfl
  | cons c cs ih =>
    have hc : Component.bytes ⟨.className, c⟩ = Utf8.bytes ("." ++ c) := by simp [Component.bytes, mark]; rfl
    show Component.bytes ⟨.className, c⟩ ++ selectorBytes (classComponents cs) = _
    rw [ih, hc]
    rfl

/-- The bytes of the components are the text of the selector. -/
theorem bytes_componentsOf (s : Selector) : selectorBytes (componentsOf s) = Utf8.bytes s.text := by
  unfold componentsOf Selector.text
  rw [selectorBytes_append, selectorBytes_append, bytes_classComponents, bytes_optional, bytes_optional,
    Utf8.bytes_append, Utf8.bytes_append]
  congr 2
  · split
    · rename_i h
      rw [h]
      rfl
    · rfl
  · by_cases h : s.id = ""
    · simp [h]
    · have hempty : s.id.isEmpty = false := by simpa using h
      rw [if_neg h, hempty]
      simp [mark]
      rfl

theorem idents_componentsOf (h : s.Writable) : ∀ x ∈ componentsOf s, Ident x.text := by
  intro x hx
  simp only [componentsOf, List.mem_append] at hx
  rcases hx with (hx | hx) | hx
  · obtain ⟨hne, rfl⟩ := mem_optional hx
    exact h.tag.resolve_left hne
  · obtain ⟨hne, rfl⟩ := mem_optional hx
    exact h.id.resolve_left hne
  · obtain ⟨c, hc, rfl⟩ := List.mem_map.mp hx
    exact h.classes c hc

theorem order_optional {ps : List Part} (h : ps.IsChain Follows) (hf : ∀ p ∈ ps, Follows part p) :
    ((optional part text).map Component.part ++ ps).IsChain Follows := by
  by_cases e : text = ""
  · rw [e, optional_empty]
    exact h
  · rw [optional_of_ne e]
    exact List.isChain_cons.mpr ⟨fun p hp => hf p (List.mem_of_mem_head? hp), h⟩

theorem parts_classComponents (cs : List String) : ∀ p ∈ (classComponents cs).map Component.part, p = .className := by
  intro p hp
  simp only [classComponents, List.map_map, List.mem_map] at hp
  obtain ⟨c, -, rfl⟩ := hp
  rfl

theorem order_componentsOf (s : Selector) : ((componentsOf s).map Component.part).IsChain Follows := by
  have hclasses : ((classComponents s.classes).map Component.part).IsChain Follows := by
    apply List.Pairwise.isChain
    simp only [classComponents, List.map_map, List.pairwise_map]
    exact List.pairwise_of_forall fun _ _ => by simp [Follows]
  unfold componentsOf
  rw [List.append_assoc, List.map_append, List.map_append]
  refine order_optional (order_optional hclasses ?_) ?_
  · intro p hp
    rw [parts_classComponents s.classes p hp]
    simp [Follows]
  · intro p hp
    rcases List.mem_append.mp hp with hp | hp
    · obtain ⟨x, hx, rfl⟩ := List.mem_map.mp hp
      rw [(mem_optional hx).2]
      simp [Follows]
    · rw [parts_classComponents s.classes p hp]
      simp [Follows]

theorem componentsOf_ne_nil (h : s.isEmpty = false) : componentsOf s ≠ [] := by
  intro e
  simp only [componentsOf, List.append_eq_nil_iff, classComponents, List.map_eq_nil_iff] at e
  obtain ⟨⟨htag, hid⟩, hclasses⟩ := e
  have hempty : ∀ {part text}, optional part text = [] → text = "" := by
    intro part text ho
    by_contra hne
    rw [optional_of_ne hne] at ho
    cases ho
  simp [Selector.isEmpty, hempty htag, hempty hid, hclasses] at h

theorem isSelector_componentsOf (h : s.Writable) : IsSelector (componentsOf s) where
  nonempty := componentsOf_ne_nil h.nonempty
  idents := idents_componentsOf h
  order := order_componentsOf s

/-! ## How it is read again -/

theorem foldl_tag (s : Selector) (h : s.tag = "") (text : String) :
    (optional .tag text).foldl addComponent s = { s with tag := text } := by
  by_cases e : text = ""
  · rw [e, optional_empty, ← h]
    rfl
  · rw [optional_of_ne e]
    rfl

theorem foldl_id (s : Selector) (h : s.id = "") (text : String) :
    (optional .id text).foldl addComponent s = { s with id := text } := by
  by_cases e : text = ""
  · rw [e, optional_empty, ← h]
    rfl
  · rw [optional_of_ne e]
    rfl

theorem foldl_classes (s : Selector) (cs : List String) :
    (classComponents cs).foldl addComponent s = { s with classes := s.classes ++ cs } := by
  induction cs generalizing s with
  | nil => simp [classComponents]
  | cons c cs ih =>
    show (classComponents cs).foldl addComponent { s with classes := s.classes ++ [c] } = _
    rw [ih]
    simp

/-- What is written of a selector is the selector again, without its combinator. -/
theorem selectorOf_componentsOf (s : Selector) : selectorOf (componentsOf s) = { s with combinator := .none } := by
  unfold selectorOf componentsOf
  rw [List.foldl_append, List.foldl_append, foldl_tag _ rfl, foldl_id _ rfl, foldl_classes]
  simp

theorem chain_trailOf (h : c.Writable) : (trailOf c).chain = c := by
  obtain ⟨outer, subject, hc, -, -, hnone⟩ := h
  obtain rfl : c = ⟨outer ++ [subject]⟩ := by rw [← hc]
  have houter : outer.map (fun s => outerSelector (componentsOf s, s.combinator)) = outer := by
    refine (List.map_congr_left ?_).trans outer.map_id
    intro s _
    show ({ selectorOf (componentsOf s) with combinator := s.combinator } : Selector) = s
    rw [selectorOf_componentsOf]
  have hsubject : ({ subject with combinator := .none } : Selector) = subject := by rw [← hnone]
  simp only [trailOf, Trail.chain, Chain.subject?, List.dropLast_concat, List.getLast?_concat, Option.getD_some,
    List.map_map, Function.comp_def, selectorOf_componentsOf, houter, hsubject]

/-! ## Chains -/

theorem joint_text {k : Combinator} (h : k ≠ .none) : Joint (Utf8.bytes k.text) k := by
  have hblank : Blank [0x20] := blank_singleton rfl
  cases k with
  | none => exact absurd rfl h
  | descendant => exact .blank hblank (by decide)
  | child => exact .symbol hblank .child hblank
  | next => exact .symbol hblank .next hblank
  | subsequent => exact .symbol hblank .subsequent hblank

/-- The text of selectors before the subject, each with its combinator. -/
def outerText (outer : List Selector) : String := String.join (outer.map fun s => s.text ++ s.combinator.text)

theorem outerText_append {bs : List UInt8} {xs : List (List Component × Combinator)} {outer : List Selector}
    (h : OuterText bs xs) (ho : ∀ s ∈ outer, s.Writable ∧ s.combinator ≠ .none) :
    OuterText (bs ++ Utf8.bytes (outerText outer)) (xs ++ outer.map fun s => (componentsOf s, s.combinator)) := by
  induction outer generalizing bs xs with
  | nil => simpa [outerText] using h
  | cons s outer ih =>
    obtain ⟨hs, hk⟩ := ho s List.mem_cons_self
    have hstep := h.snoc (isSelector_componentsOf hs) (joint_text hk)
    have hrest := ih hstep fun t ht => ho t (List.mem_cons_of_mem _ ht)
    rw [bytes_componentsOf] at hrest
    simpa [outerText, Utf8.bytes_append] using hrest

theorem chainText_of_writable (h : c.Writable) : ChainText (Utf8.bytes c.text) (trailOf c) := by
  obtain ⟨outer, subject, hc, ho, hs, hnone⟩ := h
  obtain rfl : c = ⟨outer ++ [subject]⟩ := by rw [← hc]
  have htext : Chain.text ⟨outer ++ [subject]⟩ = outerText outer ++ subject.text := by
    simp [Chain.text, outerText, hnone, Combinator.text]
  have hchain := ChainText.mk (outerText_append .nil ho) (isSelector_componentsOf hs)
  rw [htext, Utf8.bytes_append, ← bytes_componentsOf subject]
  simpa [trailOf, Chain.subject?] using hchain

/-! ## Every chain of the grammar can be written -/

theorem selectorOf_snoc (cs : List Component) (x : Component) :
    selectorOf (cs ++ [x]) = addComponent (selectorOf cs) x := by
  simp [selectorOf]

theorem spelt_selectorOf {cs : List Component} (h : ∀ x ∈ cs, Ident x.text) :
    ((selectorOf cs).tag = "" ∨ Ident (selectorOf cs).tag) ∧ ((selectorOf cs).id = "" ∨ Ident (selectorOf cs).id) ∧
      ∀ t ∈ (selectorOf cs).classes, Ident t := by
  induction cs using List.reverseRecOn with
  | nil => exact ⟨Or.inl rfl, Or.inl rfl, by intro t ht; cases ht⟩
  | append_singleton cs x ih =>
    obtain ⟨htag, hid, hclasses⟩ := ih fun y hy => h y (List.mem_append_left _ hy)
    have hx : Ident x.text := h x (List.mem_append_right _ List.mem_cons_self)
    rw [selectorOf_snoc]
    obtain ⟨part, text⟩ := x
    cases part with
    | tag => exact ⟨Or.inr hx, hid, hclasses⟩
    | id => exact ⟨htag, Or.inr hx, hclasses⟩
    | className =>
      refine ⟨htag, hid, ?_⟩
      intro t ht
      rcases List.mem_append.mp ht with ht | ht
      · exact hclasses t ht
      · rw [List.mem_singleton.mp ht]
        exact hx

theorem isEmpty_addComponent (s : Selector) {x : Component} (h : Ident x.text) :
    (addComponent s x).isEmpty = false := by
  obtain ⟨part, text⟩ := x
  have hne : text ≠ "" := h.1
  cases part <;> simp [addComponent, Selector.isEmpty, hne]

theorem writable_selectorOf {cs : List Component} (h : IsSelector cs) : (selectorOf cs).Writable := by
  obtain ⟨htag, hid, hclasses⟩ := spelt_selectorOf h.idents
  refine ⟨?_, htag, hid, hclasses⟩
  rcases List.eq_nil_or_concat cs with rfl | ⟨init, x, rfl⟩
  · exact absurd rfl h.nonempty
  · rw [List.concat_eq_append, selectorOf_snoc]
    exact isEmpty_addComponent _ (h.idents x (by simp))

theorem combinator_selectorOf (cs : List Component) : (selectorOf cs).combinator = .none := by
  induction cs using List.reverseRecOn with
  | nil => rfl
  | append_singleton cs x ih =>
    rw [selectorOf_snoc, ← ih]
    obtain ⟨part, text⟩ := x
    cases part <;> rfl

theorem ne_none_of_joint {j : List UInt8} {k : Combinator} (h : Joint j k) : k ≠ .none := by
  cases h with
  | blank => decide
  | symbol _ hb _ => cases hb <;> decide

theorem outer_of_text {bs : List UInt8} {xs : List (List Component × Combinator)} (h : OuterText bs xs) :
    ∀ x ∈ xs, IsSelector x.1 ∧ x.2 ≠ .none := by
  induction h with
  | nil => intro x hx; cases hx
  | snoc _ hs hj ih =>
    intro x hx
    rcases List.mem_append.mp hx with hx | hx
    · exact ih x hx
    · rw [List.mem_singleton.mp hx]
      exact ⟨hs, ne_none_of_joint hj⟩

theorem writable_chain {bs : List UInt8} {x : Trail} (h : ChainText bs x) : x.chain.Writable := by
  cases h with
  | @mk bs xs t ho hs =>
    refine ⟨_, _, rfl, ?_, writable_selectorOf hs, combinator_selectorOf t⟩
    intro s hmem
    obtain ⟨y, hy, rfl⟩ := List.mem_map.mp hmem
    obtain ⟨hsel, hne⟩ := outer_of_text ho y hy
    obtain ⟨h1, h2, h3, h4⟩ := writable_selectorOf hsel
    exact ⟨⟨h1, h2, h3, h4⟩, hne⟩

end Grammar

end Cascade
