/-
  Cascade.Proofs.Sheet.Guarded — a build is always as it has to be.

  A reader and its builder are `Coupled` between any two bytes: the token is such as its
  mode collects, a rule is open wherever a part of one is read, and the builder is in the
  middle of a selector only where the reader is. A new build is so, and every byte keeps it,
  accepted or refused (`coupled_step`).

  So nothing ever stops a guarded build, and it does what a build does, after any chunks
  and any faults in them (`guards_hold`). Where no chunk has been refused, more is true: a
  tag or a name that has been begun has a byte, and a combinator has no more than one
  (`Underway`). A token that was taken and refused may leave less than that.
-/

import Cascade.Proofs.Reader.Token
import Cascade.Sheet.Guarded

namespace Cascade

open Grammar Reader

variable {σ V : Type} (host : Host σ V) {supply : Supply} {r r' : Reader} {x : UInt8} {es : List Event}

/-! ## The builder -/

/-- The event is no part of a selector. -/
def Event.apart : Event → Bool
  | .tag _ | .id _ | .className _ => false
  | _ => true

namespace Builder

variable {b : Builder σ V} {e : Event}

/-- The builder is in the middle of a selector only where the reader is. -/
def Follows (b : Builder σ V) (mode : Mode) : Prop := (∀ part, mode ≠ .selector part) → b.selector = {}

theorem ready_component (b : Builder σ V) (c : Component) : b.ready c.event = true := by
  obtain ⟨part, text⟩ := c
  cases part <;> rfl

theorem ready_of_empty (h : b.selector = {}) (e : Event) : b.ready e = true := by
  cases e <;> simp [ready, h, Selector.isEmpty]

/-- A selector is begun by its parts, and by nothing else. -/
theorem selector_add (h : b.selector = {}) (he : e.apart = true) : (b.add host supply e).1.selector = {} := by
  cases e with
  | tag | id | className => cases he
  | value text =>
    simp only [add, addValue]
    split
    · exact h
    · split <;> exact h
  | selectorEnd => rfl
  | combinator | chainEnd | name | blockEnd => exact h

theorem guarded_cons (h : b.ready e = true)
    (hrest : (b.add host supply e).1.addAllGuarded host (b.add host supply e).2 es =
      some ((b.add host supply e).1.addAll host (b.add host supply e).2 es)) :
    b.addAllGuarded host supply (e :: es) = some (b.addAll host supply (e :: es)) := by
  simp [addAllGuarded, h, hrest]

theorem guarded_append {fs : List Event} (h : b.addAllGuarded host supply es = some (b.addAll host supply es))
    (hrest : (b.addAll host supply es).1.addAllGuarded host (b.addAll host supply es).2 fs =
      some ((b.addAll host supply es).1.addAll host (b.addAll host supply es).2 fs)) :
    b.addAllGuarded host supply (es ++ fs) = some (b.addAll host supply (es ++ fs)) := by
  induction es generalizing b supply with
  | nil => exact hrest
  | cons e es ih =>
    by_cases he : b.ready e = true
    · simp only [addAllGuarded, he, if_true] at h
      exact guarded_cons host he (ih h hrest)
    · simp [addAllGuarded, he] at h

/-- Each event was added to a builder that was ready for it. -/
theorem ready_of_guarded {told rest : List Event} {after : Builder σ V × Supply}
    (h : b.addAllGuarded host supply (told ++ e :: rest) = some after) :
    (b.addAll host supply told).1.ready e = true := by
  induction told generalizing b supply with
  | nil =>
    simp only [List.nil_append, addAllGuarded] at h
    split at h
    · assumption
    · cases h
  | cons d told ih =>
    simp only [List.cons_append, addAllGuarded] at h
    split at h
    · exact ih h
    · cases h

/-- Between selectors everything may be added. -/
theorem guarded_of_empty (h : b.selector = {}) (supply : Supply) (hes : es.all Event.apart = true) :
    b.addAllGuarded host supply es = some (b.addAll host supply es) ∧ (b.addAll host supply es).1.selector = {} := by
  induction es generalizing b supply with
  | nil => exact ⟨rfl, h⟩
  | cons e es ih =>
    obtain ⟨he, hes⟩ := Bool.and_eq_true_iff.mp hes
    obtain ⟨hguarded, hselector⟩ := ih (selector_add host h he) (b.add host supply e).2 hes
    exact ⟨guarded_cons host (ready_of_empty h e) hguarded, hselector⟩

/-- The last part of a selector, its end, and what comes then. -/
theorem guarded_of_selectorEnd (b : Builder σ V) (supply : Supply) (c : Component) (hes : es.all Event.apart = true) :
    b.addAllGuarded host supply (c.event :: .selectorEnd :: es) =
        some (b.addAll host supply (c.event :: .selectorEnd :: es)) ∧
      (b.addAll host supply (c.event :: .selectorEnd :: es)).1.selector = {} := by
  let part := b.add host supply c.event
  let last := part.1.add host part.2 .selectorEnd
  obtain ⟨hguarded, hselector⟩ := guarded_of_empty host (b := last.1) rfl last.2 hes
  exact ⟨guarded_cons host (ready_component b c) (guarded_cons host rfl hguarded), hselector⟩

/-- What an accepted byte reports may be added, and the builder still follows the reader. -/
theorem guarded_of_accepts (h : b.Follows r.mode) (supply : Supply) (ha : Accepts r x es r') :
    b.addAllGuarded host supply es = some (b.addAll host supply es) ∧
      (b.addAll host supply es).1.Follows r'.mode := by
  cases ha with
  | partPlain => exact ⟨rfl, h⟩
  | partMark => exact ⟨guarded_cons host (ready_component b _) rfl, fun hno => absurd rfl (hno _)⟩
  | partSpace | partJoiner | partComma | partOpening =>
    exact (guarded_of_selectorEnd host b supply _ rfl).imp_right fun hempty _ => hempty
  | _ => exact (guarded_of_empty host (h (by simp)) supply rfl).imp_right fun hempty _ => hempty

end Builder

/-! ## The reader -/

namespace Reader

theorem no_token_of_holds (h : Holds r.mode r.pending) (hm : r.mode ∈ [.idle, .block, .colon, .terminator]) :
    r.pending = [] := by
  cases hmode : r.mode with
  | idle | block | colon | terminator =>
    rw [hmode] at h
    exact h
  | selector | combinator | name | value => simp [hmode] at hm

theorem ready_of_holds (h : Holds r.mode r.pending) : r.ready = true := by
  unfold ready
  cases hm : r.mode with
  | idle | block | colon | terminator => simp [no_token_of_holds h (by simp [hm])]
  | selector | combinator | name | value => rfl

theorem no_space_of_holds (h : Holds r.mode r.pending) : ∀ b ∈ r.pending, Sign.of b ≠ .space := by
  intro b hb hs
  cases hmode : r.mode with
  | idle | block | colon | terminator => simp [no_token_of_holds h (by simp [hmode])] at hb
  | selector | combinator =>
    rw [hmode] at h
    exact absurd (hs.symm.trans (h b hb)) (by simp)
  | name | value =>
    rw [hmode] at h
    exact h b hb (by simp [hs])

/-- A rule is open wherever a part of one is read. -/
def InRule (r : Reader) : Prop := r.mode ≠ .idle → r.openRule = true

theorem inRule_accepts (h : r.InRule) (ha : Accepts r x es r') : r'.InRule := by
  cases ha with
  | idleSpace => exact h
  | idleMark | idleTag => exact fun _ => rfl
  | partComma | combinatorEnd | combinatorComma | blockClosing | valueClosing | terminatorClosing =>
    exact fun hidle => absurd rfl hidle
  | _ => exact fun _ => h (by simp)

/-- The token of a tag or a name is not empty, and that of a combinator is one symbol at most. -/
def Underway (r : Reader) : Prop :=
  (r.mode = .selector .tag ∨ r.mode = .name → r.pending ≠ []) ∧ (r.mode = .combinator → r.pending.length ≤ 1)

theorem underway_accepts (h : r.Underway) (ha : Accepts r x es r') : r'.Underway := by
  cases ha with
  | idleSpace => exact h
  | idleMark hm | partMark hm | combinatorMark hm =>
    cases hm <;> simp [Underway]
  | _ => simp [Underway]

end Reader

/-! ## The build -/

namespace Build

variable {b : Build σ V}

/-- A build between two bytes. -/
structure Coupled (b : Build σ V) : Prop where
  token : Holds b.reader.mode b.reader.pending
  rule : b.reader.InRule
  selector : b.builder.Follows b.reader.mode

theorem coupled_new (memory : σ) : (Build.new memory : Build σ V).Coupled :=
  ⟨holds_nil _, fun hidle => absurd rfl hidle, fun _ => rfl⟩

theorem coupled_count (h : b.Coupled) (x : UInt8) : Coupled { b with reader := b.reader.count x } := by
  rw [count_eq]
  exact ⟨h.token, h.rule, h.selector⟩

theorem coupled_accepts (h : b.Coupled) (supply : Supply) (ha : Accepts b.reader x es r') :
    b.builder.addAllGuarded host supply es = some (b.builder.addAll host supply es) ∧
      Coupled ⟨r', (b.builder.addAll host supply es).1⟩ := by
  obtain ⟨hguarded, hselector⟩ := Builder.guarded_of_accepts host h.selector supply ha
  exact ⟨hguarded, holds_accepts h.token ha, inRule_accepts h.rule ha, hselector⟩

theorem coupled_refuses {f : Fault} (h : b.Coupled) (hr : Refuses b.reader x f r') : Coupled ⟨r', b.builder⟩ := by
  obtain ⟨hmode, hopen⟩ := kept_of_refuses hr
  refine ⟨holds_refuses h.token hr, fun hidle => ?_, ?_⟩
  · rw [hopen]
    exact h.rule (hmode ▸ hidle)
  · rw [hmode]
    exact h.selector

/-- A byte finds the reader ready, and what it reports finds the builder ready. -/
theorem coupled_step (h : b.Coupled) (supply : Supply) (x : UInt8) :
    let o := b.reader.step x
    let after := b.builder.addAll host supply o.events
    b.reader.ready = true ∧ b.builder.addAllGuarded host supply o.events = some after ∧
      Coupled ⟨o.reader, after.1⟩ := by
  have hcount := coupled_count h x
  refine ⟨ready_of_holds h.token, ?_⟩
  rcases step_cases b.reader x with ⟨-, ha⟩ | ⟨f, -, hevents, hr⟩
  · exact coupled_accepts host hcount supply ha
  · rw [hevents]
    exact ⟨rfl, coupled_refuses (b := { b with reader := b.reader.count x }) hcount hr⟩

theorem guarded_feed (h : b.Coupled) (supply : Supply) (bs : List UInt8) :
    b.feedGuarded host supply bs = some (b.feed host supply bs) ∧ (b.feed host supply bs).1.Coupled := by
  induction bs generalizing b supply with
  | nil => exact ⟨rfl, h⟩
  | cons x xs ih =>
    obtain ⟨hready, hguarded, hcoupled⟩ := coupled_step host h supply x
    unfold feedGuarded feed
    rw [run_cons]
    cases hf : (b.reader.step x).fault? with
    | none =>
      rw [Outcome.andThen_of_none hf]
      simp only [hready, hguarded, hf, if_true, Builder.addAll_append]
      exact ih hcoupled _
    | some f =>
      rw [Outcome.andThen_of_fault (by simp [hf])]
      simp only [hready, hguarded, hf, if_true]
      exact ⟨trivial, hcoupled⟩

theorem guarded_feedAll (h : b.Coupled) (supply : Supply) (chunks : List (List UInt8)) :
    b.feedAllGuarded host supply chunks = some (b.feedAll host supply chunks) ∧
      (b.feedAll host supply chunks).1.Coupled := by
  induction chunks generalizing b supply with
  | nil => exact ⟨rfl, h⟩
  | cons chunk chunks ih =>
    obtain ⟨hguarded, hcoupled⟩ := guarded_feed host h supply chunk
    unfold feedAllGuarded
    rw [hguarded, feedAll_cons]
    exact ih hcoupled _

/-- The reader of a build goes its own way, and the builder is given all that it reports. -/
theorem feedAll_eq (b : Build σ V) (supply : Supply) (chunks : List (List UInt8)) :
    b.feedAll host supply chunks =
      (⟨(b.reader.feedAll chunks).1, (b.builder.addAll host supply (b.reader.feedAll chunks).2).1⟩,
        (b.builder.addAll host supply (b.reader.feedAll chunks).2).2) := by
  induction chunks generalizing b supply with
  | nil => rfl
  | cons chunk chunks ih =>
    rw [feedAll_cons, ih]
    simp only [feed, Reader.feedAll, Builder.addAll_append]

/-- All that the reader has reported by then was added to a builder that was ready for it. -/
theorem guarded_events (h : b.Coupled) (supply : Supply) (chunks : List (List UInt8)) :
    b.builder.addAllGuarded host supply (b.reader.feedAll chunks).2 =
      some (b.builder.addAll host supply (b.reader.feedAll chunks).2) := by
  let Added (r : Reader) (es : List Event) : Prop :=
    b.builder.addAllGuarded host supply es = some (b.builder.addAll host supply es) ∧
      Coupled ⟨r, (b.builder.addAll host supply es).1⟩
  have hstep {r : Reader} {es : List Event} (x : UInt8) (hadded : Added r es) :
      Added (r.step x).reader (es ++ (r.step x).events) := by
    obtain ⟨-, hguarded, hcoupled⟩ := coupled_step host hadded.2 (b.builder.addAll host supply es).2 x
    refine ⟨Builder.guarded_append host hadded.1 hguarded, ?_⟩
    rw [Builder.addAll_append]
    exact hcoupled
  exact (@keeps_feedAll b.reader Added [] hstep ⟨rfl, h⟩ chunks).1

end Build

/-! ## Chunks of which none was refused -/

namespace Reader

theorem underway_step (h : r.Underway) (ha : Accepts (r.count x) x es r') : r'.Underway := by
  rw [count_eq] at ha
  exact underway_accepts (r := { r with line := lineAfter r.line x }) h ha

theorem underway_run {bs : List UInt8} (h : (({} : Reader).run bs).fault? = none) :
    (({} : Reader).run bs).reader.Underway :=
  @keeps_run {} _ [] (fun r _ _ => r.Underway) underway_step [] bs _ (by simp [Underway]) (by rw [← h])

theorem feedAll_of_runAll {chunks : List (List UInt8)} (h : (r.runAll chunks).fault? = none) :
    (r.feedAll chunks).1 = (r.runAll chunks).reader := by
  induction chunks generalizing r with
  | nil => rfl
  | cons c rest ih =>
    have hc : (r.run c).fault? = none := by
      by_contra hc
      rw [runAll, Outcome.andThen_of_fault hc] at h
      exact hc h
    rw [runAll, Outcome.andThen_of_none hc] at h ⊢
    exact ih h

theorem underway_feedAll {chunks : List (List UInt8)} (h : (({} : Reader).runAll chunks).fault? = none) :
    (({} : Reader).feedAll chunks).1.Underway := by
  rw [feedAll_of_runAll h]
  rw [runAll_eq] at h ⊢
  exact underway_run h

end Reader

/-- Whatever a build is fed, and whatever is refused of it, the token and the rule are as the mode has them, a
    combinator and the end of a chain find no selector begun, and no check that is made on the way fails. -/
theorem Build.guards_hold (memory : σ) (supply : Supply) (chunks : List (List UInt8)) :
    let after := (Build.new memory).feedAll host supply chunks
    let r := after.1.reader
    (r.mode ∈ [.idle, .block, .colon, .terminator] → r.pending = []) ∧
    (r.mode ≠ .idle → r.openRule = true) ∧
    (∀ b ∈ r.pending, Sign.of b ≠ .space) ∧
    (r.mode = .combinator → ∀ b ∈ r.pending, Sign.of b = .joiner) ∧
    (∀ told e rest, (({} : Reader).feedAll chunks).2 = told ++ e :: rest → (∃ c, e = .combinator c) ∨ e = .chainEnd →
      (({ memory } : Builder σ V).addAll host supply told).1.selector.isEmpty = true) ∧
    (Build.new memory).feedAllGuarded host supply chunks = some after ∧
    ((({} : Reader).runAll chunks).fault? = none →
      (r.mode = .selector .tag ∨ r.mode = .name → r.pending ≠ []) ∧ (r.mode = .combinator → r.pending.length ≤ 1)) := by
  intro after r
  obtain ⟨hguarded, htoken, hrule, -⟩ := guarded_feedAll host (coupled_new memory) supply chunks
  have hreader : r = (({} : Reader).feedAll chunks).1 :=
    congrArg (·.1.reader) (feedAll_eq host (Build.new memory) supply chunks)
  refine ⟨fun hm => ?_, hrule, fun b hb => ?_, fun hm => ?_, fun told e rest hevents he => ?_, hguarded, fun h => ?_⟩
  · exact no_token_of_holds htoken hm
  · exact no_space_of_holds htoken b hb
  · rw [hm] at htoken
    exact htoken
  · have hevents' := guarded_events host (coupled_new memory) supply chunks
    rw [show (Build.new memory : Build σ V).reader = {} from rfl, hevents] at hevents'
    have hready := Builder.ready_of_guarded host hevents'
    rcases he with ⟨c, rfl⟩ | rfl <;> exact hready
  · exact hreader ▸ underway_feedAll h

/-- A tag that is no text is refused at its end, and leaves the reader in a tag of no bytes. -/
example : (({} : Reader).feedAll [[0xFF, 0x20]]).1 = { mode := .selector .tag, openRule := true } := by
  decide

end Cascade
