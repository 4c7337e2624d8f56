/-
  Cascade.Proofs.Reader.Stream — what a reader reports over its whole life, also past
  faults. A fault drops the rest of a chunk and no more: the next chunk is read from the
  mode that the fault left. So what is read need not be a sheet, and what is reported is all
  the same a sheet that has been begun (`stream_of_feeds`).

  - `Word es`: the events of whole rules. What counts is which event follows which: a rule
    has a chain, a selector has a part, a tag comes first, no id right after an id, and
    `none` joins nothing. The texts are free, since after a fault even a tag may be empty.
  - `Told mode openRule es`: where in a word the events end, for each mode. An accepted byte
    moves on in the word (`told_accepts`), and a refused one leaves mode and rule as they
    were and reports nothing.
  - Idle is three places of a word: between rules, after a chain and after a combinator. No
    open rule tells the first one from the others.
-/

import Cascade.Proofs.Reader.Derives
import Cascade.Proofs.Reader.Refusal

namespace Cascade

/-! ## Words -/

namespace Grammar

/-- The parts of a selector are in order, and there are some. -/
structure Simple (s : List Component) : Prop where
  nonempty : s ≠ []
  order : (s.map Component.part).IsChain Follows

structure Trail.Shaped (c : Trail) : Prop where
  outer : ∀ x ∈ c.outer, Simple x.1 ∧ x.2 ≠ .none
  subject : Simple c.subject

structure Rule.Shaped (r : Rule) : Prop where
  nonempty : r.chains ≠ []
  chains : ∀ c ∈ r.chains, c.Shaped

/-- The events of whole rules. -/
def Word (es : List Event) : Prop := ∃ rs : List Rule, (∀ r ∈ rs, r.Shaped) ∧ es = events rs

theorem simple_singleton (c : Component) : Simple [c] := ⟨by simp, List.isChain_singleton _⟩

theorem simple_snoc {s : List Component} {c : Component} (h : (s.map Component.part ++ [c.part]).IsChain Follows) :
    Simple (s ++ [c]) :=
  ⟨by simp, by simpa using h⟩

end Grammar

namespace Reader

open Grammar

variable {r r' : Reader} {b : UInt8} {es fs : List Event} {mode : Mode} {o : Bool} {s : List Component}

/-! ## Places and spots of a word -/

structure Place.Shaped (pl : Place) : Prop where
  rules : ∀ r ∈ pl.rules, r.Shaped
  chains : ∀ c ∈ pl.chains, c.Shaped
  outer : ∀ x ∈ pl.outer, Simple x.1 ∧ x.2 ≠ .none

structure Spot.Shaped (sp : Spot) : Prop where
  rules : ∀ r ∈ sp.rules, r.Shaped
  nonempty : sp.chains ≠ []
  chains : ∀ c ∈ sp.chains, c.Shaped

theorem shaped_rules {rs : List Rule} (h : ∀ r ∈ rs, r.Shaped) : Place.Shaped { rules := rs } :=
  ⟨h, by simp, by simp⟩

theorem shaped_join {pl : Place} {c : Combinator} (h : pl.Shaped) (hs : Simple s) (hc : c ≠ .none) :
    (pl.join s c).Shaped := by
  refine ⟨h.rules, h.chains, fun x hx => ?_⟩
  rcases List.mem_append.mp hx with hx | hx
  · exact h.outer x hx
  · rw [List.mem_singleton.mp hx]
    exact ⟨hs, hc⟩

theorem shaped_chains {pl : Place} (h : pl.Shaped) (hs : Simple s) : ∀ c ∈ (pl.next s).chains, c.Shaped := by
  intro c hc
  rcases List.mem_append.mp hc with hc | hc
  · exact h.chains c hc
  · rw [List.mem_singleton.mp hc]
    exact ⟨h.outer, hs⟩

theorem shaped_next {pl : Place} (h : pl.Shaped) (hs : Simple s) : (pl.next s).Shaped :=
  ⟨h.rules, shaped_chains h hs, by simp [Place.next]⟩

/-- The start of the block after a chain. -/
def Place.spot (pl : Place) (s : List Component) : Spot := { rules := pl.rules, chains := (pl.next s).chains }

@[simp] theorem Place.events_spot (pl : Place) (s : List Component) :
    (pl.spot s).events = pl.events ++ selectorEvents s ++ [.chainEnd] := by
  rw [← Place.events_next]
  simp [Spot.events, Place.events, Place.spot, Place.next]

theorem shaped_spot {pl : Place} (h : pl.Shaped) (hs : Simple s) : (pl.spot s).Shaped :=
  ⟨h.rules, by simp [Place.spot, Place.next], shaped_chains h hs⟩

theorem shaped_declare {sp : Spot} (h : sp.Shaped) (name value : String) : (sp.declare name value).Shaped :=
  ⟨h.rules, h.nonempty, h.chains⟩

/-- The rules once the block is closed. -/
theorem shaped_closing {sp : Spot} (h : sp.Shaped) : ∀ r ∈ sp.rules ++ [⟨sp.chains, sp.declarations⟩], r.Shaped := by
  intro r hr
  rcases List.mem_append.mp hr with hr | hr
  · exact h.rules r hr
  · rw [List.mem_singleton.mp hr]
    exact ⟨h.nonempty, h.chains⟩

/-! ## Where the events end -/

inductive Told : Mode → Bool → List Event → Prop
  | idle {pl : Place} {o : Bool} :
      pl.Shaped → (o = false → pl.chains = [] ∧ pl.outer = []) → Told .idle o pl.events
  | part {pl : Place} {s : List Component} {part : Part} :
      pl.Shaped → (s.map Component.part ++ [part]).IsChain Follows →
      Told (.selector part) true (pl.events ++ s.map Component.event)
  | after {pl : Place} {s : List Component} :
      pl.Shaped → Simple s → Told .combinator true (pl.events ++ selectorEvents s)
  | block {sp : Spot} : sp.Shaped → Told .block true sp.events
  | name {sp : Spot} : sp.Shaped → Told .name true sp.events
  | colon {sp : Spot} {name : String} : sp.Shaped → Told .colon true (sp.events ++ [.name name])
  | value {sp : Spot} {name : String} : sp.Shaped → Told .value true (sp.events ++ [.name name])
  | terminator {sp : Spot} : sp.Shaped → Told .terminator true sp.events

theorem told_of_eq {es' : List Event} (h : Told mode o es') (he : es = es') : Told mode o es := he ▸ h

theorem told_start : Told .idle false [] := by
  have hstart : Place.Shaped { rules := [] } := shaped_rules (by simp)
  exact .idle hstart (by simp)

/-! ## One byte further -/

theorem ne_none_of_token {text : String} {c : Combinator} (h : Combinator.ofToken? text = some c) : c ≠ .none := by
  unfold Combinator.ofToken? at h
  split at h <;> cases h <;> simp

/-- The first part of a selector starts. -/
theorem told_first {pl : Place} (h : pl.Shaped) (part : Part) : Told (.selector part) true pl.events :=
  told_of_eq (.part (s := []) h (List.isChain_singleton part)) (by simp)

/-- A part of a selector ends, and the next one starts. -/
theorem told_mark {pl : Place} {part next : Part} (h : pl.Shaped) (hs : (s.map Component.part ++ [part]).IsChain Follows)
    (hf : Follows part next) (text : String) :
    Told (.selector next) true (pl.events ++ s.map Component.event ++ [(Component.mk part text).event]) := by
  refine told_of_eq (.part (s := s ++ [⟨part, text⟩]) h ?_) (by simp)
  rw [List.map_append, List.isChain_append]
  exact ⟨by simpa using hs, List.isChain_singleton next, by simpa using hf⟩

theorem told_comma {pl : Place} (h : pl.Shaped) (hs : Simple s) :
    Told .idle true (pl.events ++ selectorEvents s ++ [.chainEnd]) :=
  told_of_eq (.idle (shaped_next h hs) (by simp)) (by simp)

theorem told_opening {pl : Place} (h : pl.Shaped) (hs : Simple s) :
    Told .block true (pl.events ++ selectorEvents s ++ [.chainEnd]) :=
  told_of_eq (.block (shaped_spot h hs)) (by simp)

theorem told_closing {sp : Spot} (h : sp.Shaped) : Told .idle false (sp.events ++ [.blockEnd]) :=
  told_of_eq (.idle (shaped_rules (shaped_closing h)) (by simp)) (by simp [Place.events, ← Spot.events_closing])

theorem told_accepts (h : Told r.mode r.openRule es) (ha : Accepts r b fs r') : Told r'.mode r'.openRule (es ++ fs) := by
  cases ha with
  | idleSpace | partPlain | combinatorSpace | combinatorJoiner | blockSpace | blockSemicolon | nameByte | colonSpace
  | valueByte | valueSpace | terminatorSpace =>
    exact told_of_eq h (by simp)
  | idleMark | idleTag =>
    cases h with
    | idle hpl _ => exact told_of_eq (told_first hpl _) (by simp)
  | partMark hm hnext _ _ =>
    cases h with
    | part hpl hs => exact told_mark hpl hs ⟨ne_tag_of_marks hm, hnext⟩ _
  | @partSpace _ _ _ _ part text | @partJoiner _ _ _ _ part text =>
    cases h with
    | part hpl hs =>
      exact told_of_eq (.after hpl (simple_snoc (c := ⟨part, text⟩) hs)) (by simp [selectorEvents])
  | @partComma _ _ _ _ part text =>
    cases h with
    | part hpl hs =>
      exact told_of_eq (told_comma hpl (simple_snoc (c := ⟨part, text⟩) hs)) (by simp [selectorEvents])
  | @partOpening _ _ _ _ part text =>
    cases h with
    | part hpl hs =>
      exact told_of_eq (told_opening hpl (simple_snoc (c := ⟨part, text⟩) hs)) (by simp [selectorEvents])
  | combinatorEnd _ _ _ hc =>
    cases h with
    | after hpl hs => exact told_of_eq (.idle (shaped_join hpl hs (ne_none_of_token hc)) (by simp)) (by simp)
  | combinatorComma =>
    cases h with
    | after hpl hs => exact told_comma hpl hs
  | combinatorOpening =>
    cases h with
    | after hpl hs => exact told_opening hpl hs
  | combinatorMark _ _ hc | combinatorTag _ _ hc =>
    cases h with
    | after hpl hs => exact told_of_eq (told_first (shaped_join hpl hs (ne_none_of_token hc)) _) (by simp)
  | blockClosing =>
    cases h with
    | block hsp => exact told_closing hsp
  | blockName =>
    cases h with
    | block hsp => exact told_of_eq (.name hsp) (by simp)
  | nameSpace =>
    cases h with
    | name hsp => exact .colon hsp
  | nameColon =>
    cases h with
    | name hsp => exact .value hsp
  | colonColon =>
    cases h with
    | @colon sp name hsp =>
      have hvalue : Told .value true (sp.events ++ [.name name]) := .value hsp
      exact told_of_eq hvalue (by simp)
  | @valueEnd _ _ _ _ text =>
    cases h with
    | @value sp name hsp => exact told_of_eq (.terminator (shaped_declare hsp name text)) (by simp)
  | @valueSemicolon _ _ _ _ text =>
    cases h with
    | @value sp name hsp => exact told_of_eq (.block (shaped_declare hsp name text)) (by simp)
  | @valueClosing _ _ _ _ text =>
    cases h with
    | @value sp name hsp => exact told_of_eq (told_closing (shaped_declare hsp name text)) (by simp)
  | terminatorSemicolon =>
    cases h with
    | terminator hsp => exact told_of_eq (.block hsp) (by simp)
  | terminatorClosing =>
    cases h with
    | terminator hsp => exact told_closing hsp

theorem told_step (h : Told r.mode r.openRule es) (b : UInt8) :
    Told (r.step b).reader.mode (r.step b).reader.openRule (es ++ (r.step b).events) := by
  have hcount : Told (r.count b).mode (r.count b).openRule es := by rw [count_eq]; exact h
  rcases step_cases r b with ⟨-, ha⟩ | ⟨f, -, hevents, hr⟩
  · exact told_accepts hcount ha
  · obtain ⟨hmode, hopen⟩ := kept_of_refuses hr
    rw [hmode, hopen, hevents, List.append_nil]
    exact hcount

/-! ## Words again -/

theorem word_of_spot {sp : Spot} (h : sp.Shaped) : Word (sp.events ++ [.blockEnd]) :=
  ⟨_, shaped_closing h, (Spot.events_closing sp).symm⟩

theorem begun_of_selector {pl : Place} (h : pl.Shaped) (hs : Simple s) :
    ∃ rest, Word (pl.events ++ selectorEvents s ++ rest) :=
  ⟨[.chainEnd, .blockEnd], by simpa using word_of_spot (shaped_spot h hs)⟩

/-- What has been told can be gone on with to whole rules. -/
theorem begun_of_told (h : Told mode o es) : ∃ rest, Word (es ++ rest) := by
  cases h with
  | idle hpl _ =>
    obtain ⟨rest, hword⟩ := begun_of_selector hpl (simple_singleton ⟨.tag, ""⟩)
    exact ⟨_, by simpa using hword⟩
  | @part pl s part hpl hs =>
    obtain ⟨rest, hword⟩ := begun_of_selector hpl (simple_snoc (c := ⟨part, ""⟩) hs)
    exact ⟨(Component.mk part "").event :: .selectorEnd :: rest, by simpa [selectorEvents] using hword⟩
  | after hpl hs => exact begun_of_selector hpl hs
  | block hsp | name hsp | terminator hsp => exact ⟨_, word_of_spot hsp⟩
  | colon hsp | value hsp => exact ⟨[.value "", .blockEnd], by simpa using word_of_spot (shaped_declare hsp _ "")⟩

/-- Where the input may end, the rules are whole. -/
theorem word_of_told (h : Told r.mode r.openRule es) (hi : r.isIdle = true) : Word es := by
  obtain ⟨mode, p, l, o⟩ := r
  cases h with
  | idle hpl hclosed =>
    obtain ⟨hchains, houter⟩ := hclosed (by simpa [isIdle] using hi)
    exact ⟨_, hpl.rules, by simp [Place.events, hchains, houter]⟩
  | _ => simp [isIdle] at hi

/-- Whatever a reader is fed, and whatever it has refused, its events are the start of a word; where the
    input may end they are a word. -/
theorem stream_of_feeds (chunks : List (List UInt8)) :
    (∃ rest, Word ((({} : Reader).feedAll chunks).2 ++ rest)) ∧
      ((({} : Reader).feedAll chunks).1.isIdle = true → Word (({} : Reader).feedAll chunks).2) := by
  have htold := keeps_feedAll (P := fun r es => Told r.mode r.openRule es) (r := {}) (fun b h => told_step h b)
    told_start chunks
  exact ⟨begun_of_told htold, word_of_told htold⟩

/-- Two faults in `a>>b{}`, fed in three pieces: no sheet, but a rule. -/
example : (({} : Reader).feedAll [[0x61, 0x3E, 0x3E], [0x62], [0x7B, 0x7D]]).2 =
    [.tag "a", .selectorEnd, .chainEnd, .blockEnd] := by
  decide

end Reader

end Cascade
