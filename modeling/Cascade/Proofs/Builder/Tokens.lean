/-
  Cascade.Proofs.Builder.Tokens — what a builder keeps of the components of a selector.

  A selector is meant to be an optional tag, an optional id and classes. A reader sees to
  this for the tag, which can only come first, but not for the id: `#` is refused inside an
  id and nowhere else, so a second id may stand after a class. The builder then has one
  place for both, and the last one stays.

  - `Stored cs s` compares a selector that was read with the selector that was stored: the
    tag and the classes are the same, of the ids there is the last, and so nothing is lost
    exactly where there is no second id.
  - `stored_of_accepted`: this is so for every selector of every text that is accepted.
  - `an_id_is_lost`: a text of one selector with two ids.
-/

import Cascade.NameTable
import Cascade.Proofs.Builder.Rules
import Cascade.Proofs.Reader.Language
import Cascade.Proofs.Selector.Text
import Mathlib.Data.List.Forall2

namespace Cascade

open Grammar

namespace Grammar

variable {cs : List Component} {k : Combinator} {part : Part} {text : String}

/-- The selectors of a chain as they are written. -/
def Trail.selectors (t : Trail) : List (List Component) := t.outer.map Prod.fst ++ [t.subject]

/-- What is stored of a selector. -/
structure Stored (cs : List Component) (s : Selector) : Prop where
  one : (texts .tag cs).length ≤ 1
  tag : texts .tag (componentsOf s) = texts .tag cs
  classes : s.classes = texts .className cs
  id : texts .id (componentsOf s) = (texts .id cs).getLast?.toList
  whole : (∀ part, texts part (componentsOf s) = texts part cs) ↔ (texts .id cs).length ≤ 1

/-! ## Texts -/

theorem texts_append (part : Part) (cs ds : List Component) : texts part (cs ++ ds) = texts part cs ++ texts part ds := by
  simp [texts]

theorem texts_optional : texts part (optional part text) = if text = "" then [] else [text] := by
  by_cases h : text = ""
  · rw [if_pos h, h, optional_empty]
    rfl
  · rw [if_neg h, optional_of_ne h]
    simp [texts]

theorem texts_eq_nil (h : ∀ c ∈ cs, c.part ≠ part) : texts part cs = [] := by
  unfold texts
  rw [List.filter_eq_nil_iff.mpr fun c hc => by simpa using h c hc, List.map_nil]

theorem texts_optional_ne {other : Part} (h : part ≠ other) : texts other (optional part text) = [] :=
  texts_eq_nil fun _ hc => by rw [(mem_optional hc).2]; exact h

theorem texts_classes (ts : List String) : texts .className (classComponents ts) = ts := by
  have hall : (classComponents ts).filter (·.part = .className) = classComponents ts :=
    List.filter_eq_self.mpr fun c hc => by
      obtain ⟨t, -, rfl⟩ := List.mem_map.mp hc
      rfl
  rw [texts, hall, classComponents, List.map_map]
  exact List.map_id ts

theorem texts_classes_ne (ts : List String) (h : part ≠ .className) : texts part (classComponents ts) = [] :=
  texts_eq_nil fun c hc => by
    obtain ⟨t, -, rfl⟩ := List.mem_map.mp hc
    exact Ne.symm h

theorem texts_componentsOf (s : Selector) :
    texts .tag (componentsOf s) = (if s.tag = "" then [] else [s.tag]) ∧
      texts .id (componentsOf s) = (if s.id = "" then [] else [s.id]) ∧
      texts .className (componentsOf s) = s.classes := by
  simp [componentsOf, texts_append, texts_optional, texts_optional_ne, texts_classes, texts_classes_ne]

/-! ## Selectors -/

theorem texts_ne (h : ∀ c ∈ cs, Ident c.text) : "" ∉ texts part cs := by
  intro he
  obtain ⟨c, hc, htext⟩ := List.mem_map.mp he
  exact (h c (List.mem_of_mem_filter hc)).1 htext

theorem last_of_texts {ts : List String} (h : "" ∉ ts) :
    (if ts.getLast?.getD "" = "" then [] else [ts.getLast?.getD ""]) = ts.getLast?.toList := by
  cases hl : ts.getLast? with
  | none => rfl
  | some t =>
    have hne : t ≠ "" := fun e => h (e ▸ List.mem_of_getLast? hl)
    simp [hne]

theorem last_eq_iff {α : Type} {l : List α} : l.getLast?.toList = l ↔ l.length ≤ 1 := by
  match l with
  | [] => simp
  | [a] => simp
  | a :: b :: l =>
    refine iff_of_false (fun h => ?_) (by simp)
    have hlength := congrArg List.length h
    cases hlast : (a :: b :: l).getLast? with
    | none => simp at hlast
    | some x => simp [hlast] at hlength

/-- A tag comes first. -/
theorem no_tag_of_follows {p : Part} {ps : List Part} (h : (p :: ps).IsChain Follows) : .tag ∉ ps := by
  induction ps generalizing p with
  | nil => simp
  | cons q ps ih =>
    obtain ⟨hpq, hps⟩ := List.isChain_cons_cons.mp h
    intro hmem
    rcases List.mem_cons.mp hmem with rfl | hmem
    · exact hpq.1 rfl
    · exact ih hps hmem

theorem tags_of_order (h : (cs.map Component.part).IsChain Follows) : (texts .tag cs).length ≤ 1 := by
  cases cs with
  | nil => simp [texts]
  | cons c cs =>
    have hrest : texts .tag cs = [] := texts_eq_nil fun d hd he =>
      no_tag_of_follows h (List.mem_map.mpr ⟨d, hd, he⟩)
    rw [show c :: cs = [c] ++ cs from rfl, texts_append, hrest, List.append_nil, texts, List.length_map]
    exact List.length_filter_le _ [c]

theorem stored_stated (h : IsSelector cs) : Stored cs (statedSelector cs k) := by
  obtain ⟨htag, hid, hclasses⟩ := texts_componentsOf (statedSelector cs k)
  have hone := tags_of_order h.order
  have htags : texts .tag (componentsOf (statedSelector cs k)) = texts .tag cs :=
    (htag.trans (last_of_texts (texts_ne h.idents))).trans (last_eq_iff.mpr hone)
  have hids := hid.trans (last_of_texts (texts_ne h.idents))
  refine ⟨hone, htags, rfl, hids, fun hall => ?_, fun hle part => ?_⟩
  · exact last_eq_iff.mp (hids.symm.trans (hall .id))
  · cases part with
    | tag => exact htags
    | id => exact hids.trans (last_eq_iff.mpr hle)
    | className => exact hclasses

theorem stored_chain {bs : List UInt8} {t : Trail} (h : ChainText bs t) :
    List.Forall₂ Stored t.selectors t.chain.selectors := by
  cases h with
  | mk ho hs =>
    rw [chain_eq_stated]
    refine List.rel_append ?_ (.cons (stored_stated hs) .nil)
    rw [List.forall₂_map_left_iff, List.forall₂_map_right_iff, List.forall₂_same]
    exact fun x hx => stored_stated (outer_of_text ho x hx).1

end Grammar

/-! ## Texts that are accepted -/

variable {σ V : Type} {bs : List UInt8}

/-- Of every selector that is read in a text that is accepted, the builder stores the tag and all classes; what it
    loses is ids before the last. -/
theorem Builder.stored_of_accepted (host : Host σ V) (memory : σ) (supply : Supply)
    (h : (({} : Reader).run bs).ended.fault? = none) :
    ∃ rs, SheetText bs rs ∧ (({} : Reader).run bs).events = events rs ∧
      List.Forall₂ (fun t x => List.Forall₂ Stored t.selectors x.chain.selectors) (rs.flatMap (·.chains))
        (({ memory } : Builder σ V).addAll host supply (({} : Reader).run bs).events).1.finished := by
  obtain ⟨rs, hsheet, hevents⟩ := Reader.sheet_of_accepted h
  refine ⟨rs, hsheet, hevents, ?_⟩
  have hbuilt : ({ memory } : Builder σ V).addAll host supply (events rs) = _ :=
    addAll_events host supply memory [] rs
  rw [hevents, hbuilt]
  simp only [between, finished, List.nil_append, List.reverse_reverse]
  have hchains := chains_made host memory supply rs
  have hrelated : List.Forall₂ (fun t c => List.Forall₂ Stored t.selectors c.selectors) (rs.flatMap (·.chains))
      ((made host memory supply rs).styles.map (·.chain)) := by
    rw [hchains, List.forall₂_map_right_iff, List.forall₂_same]
    intro t ht
    obtain ⟨r, hr, ht⟩ := List.mem_flatMap.mp ht
    obtain ⟨q, hq⟩ := (parts_of_sheet hsheet r hr).1 t ht
    exact stored_chain hq
  rw [List.forall₂_map_right_iff] at hrelated
  exact hrelated

/-- A chain of two selectors, one with an id. -/
theorem Builder.stored_of_accepted_outer :
    (({} : Reader).run (Utf8.bytes "a#b.c>d\x7b\x7d")).ended.fault? = none ∧
      ∃ rs, SheetText (Utf8.bytes "a#b.c>d\x7b\x7d") rs ∧
        (({} : Reader).run (Utf8.bytes "a#b.c>d\x7b\x7d")).events = events rs ∧
        List.Forall₂ (fun t x => List.Forall₂ Stored t.selectors x.chain.selectors) (rs.flatMap (·.chains))
          (({ memory := {} } : Builder NameTable String).addAll NameTable.host {}
            (({} : Reader).run (Utf8.bytes "a#b.c>d\x7b\x7d")).events).1.finished :=
  ⟨by decide, Builder.stored_of_accepted NameTable.host {} {} (by decide)⟩

/-- One selector with two ids is accepted, both are reported, and one of them is stored. -/
theorem an_id_is_lost :
    (({} : Reader).run (Utf8.bytes "#a.b#c\x7b\x7d")).ended =
        ⟨{}, [.id "a", .className "b", .id "c", .selectorEnd, .chainEnd, .blockEnd], none⟩ ∧
      (({ memory := {} } : Builder NameTable String).addAll NameTable.host {}
          (({} : Reader).run (Utf8.bytes "#a.b#c\x7b\x7d")).events).1.finished.map (·.chain) =
        [⟨[{ id := "c", classes := ["b"] }]⟩] :=
  ⟨by decide, by decide⟩

end Cascade
