/-
  Cascade.Proofs.Reader.Lines — how far a run gets, and on which line it is then. A run
  takes its bytes up to the first that is refused, that one included (`taken`); what
  stands after it has no effect (`run_taken`), and the error is that of the first byte
  refused (`error_run_iff`, `stops_at_iff`). The line is the one before the run plus the line ends that
  were taken, counted as a word counts (`line_run`). Nothing else hangs on it: a run that
  starts some lines later is the same run some lines later (`run_later`).
-/

import Cascade.Reader

namespace Cascade

namespace Outcome

theorem andThen_of_none {o : Outcome} {f : Reader → Outcome} (h : o.fault? = none) :
    o.andThen f = { f o.reader with events := o.events ++ (f o.reader).events } := by
  simp only [andThen, h]

theorem andThen_of_fault {o : Outcome} {f : Reader → Outcome} (h : o.fault? ≠ none) : o.andThen f = o := by
  unfold andThen
  split
  · rename_i hn
    exact absurd hn h
  · rfl

end Outcome

namespace Reader

/-- The same reader on another line. -/
def onLine (r : Reader) (l : UInt32) : Reader := { r with line := l }

end Reader

def Outcome.onLine (o : Outcome) (l : UInt32) : Outcome := { o with reader := o.reader.onLine l }

namespace Reader

variable {r : Reader} {b : UInt8} {bs : List UInt8} {l : UInt32}

/-! ## One byte on another line -/

theorem take_onLine {next : String → Reader → Outcome}
    (h : ∀ text r, next text (r.onLine l) = (next text r).onLine l) :
    (r.onLine l).take next = (r.take next).onLine l := by
  have htoken : (r.onLine l).token = r.token := rfl
  unfold take
  rw [htoken]
  split
  · exact h _ { r with pending := [] }
  · rfl

theorem endPart_onLine {part : Part} {next : Event → Reader → Outcome}
    (h : ∀ e r, next e (r.onLine l) = (next e r).onLine l) :
    (r.onLine l).endPart part next = (r.endPart part next).onLine l := by
  refine take_onLine fun text r => ?_
  cases part with
  | tag => exact h _ _
  | id | className =>
    dsimp only
    split
    · rfl
    · exact h _ _

theorem endCombinator_onLine {mode : Mode} {next : Reader → Reader} (h : ∀ r, next (r.onLine l) = (next r).onLine l) :
    (r.onLine l).endCombinator mode next = (r.endCombinator mode next).onLine l := by
  refine take_onLine fun text r => ?_
  split
  · rw [h]
    rfl
  · rfl

theorem atIdle_onLine (r : Reader) (b : UInt8) (l : UInt32) : (r.onLine l).atIdle b = (r.atIdle b).onLine l := by
  unfold atIdle
  cases Sign.of b <;> rfl

theorem atSelector_onLine (r : Reader) (part : Part) (b : UInt8) (l : UInt32) :
    (r.onLine l).atSelector part b = (r.atSelector part b).onLine l := by
  unfold atSelector
  cases Sign.of b with
  | space | opening | comma | joiner | dot => exact endPart_onLine fun _ _ => rfl
  | hash =>
    dsimp only
    split
    · rfl
    · exact endPart_onLine fun _ _ => rfl
  | bracket | colon | closing | semicolon | plain => rfl

theorem atCombinator_onLine (r : Reader) (b : UInt8) (l : UInt32) :
    (r.onLine l).atCombinator b = (r.atCombinator b).onLine l := by
  have hpending : (r.onLine l).pending = r.pending := rfl
  unfold atCombinator
  cases Sign.of b with
  | space =>
    dsimp only
    rw [hpending]
    split
    · rfl
    · exact endCombinator_onLine fun _ => rfl
  | joiner | opening | comma =>
    dsimp only
    rw [hpending]
    split <;> rfl
  | dot | hash | plain => exact endCombinator_onLine fun _ => rfl
  | bracket | colon | closing | semicolon => rfl

theorem atBlock_onLine (r : Reader) (b : UInt8) (l : UInt32) : (r.onLine l).atBlock b = (r.atBlock b).onLine l := by
  unfold atBlock
  cases Sign.of b <;> rfl

theorem atName_onLine (r : Reader) (b : UInt8) (l : UInt32) : (r.onLine l).atName b = (r.atName b).onLine l := by
  unfold atName
  cases Sign.of b with
  | space | colon => exact take_onLine fun _ _ => rfl
  | _ => rfl

theorem atColon_onLine (r : Reader) (b : UInt8) (l : UInt32) : (r.onLine l).atColon b = (r.atColon b).onLine l := by
  unfold atColon
  cases Sign.of b <;> rfl

theorem atValue_onLine (r : Reader) (b : UInt8) (l : UInt32) : (r.onLine l).atValue b = (r.atValue b).onLine l := by
  have hpending : (r.onLine l).pending = r.pending := rfl
  unfold atValue
  cases Sign.of b with
  | space =>
    dsimp only
    rw [hpending]
    split
    · rfl
    · exact take_onLine fun _ _ => rfl
  | semicolon | closing => exact take_onLine fun _ _ => rfl
  | _ => rfl

theorem atTerminator_onLine (r : Reader) (b : UInt8) (l : UInt32) :
    (r.onLine l).atTerminator b = (r.atTerminator b).onLine l := by
  unfold atTerminator
  cases Sign.of b <;> rfl

/-- What a byte does, once it has been counted, does not hang on the line. -/
theorem read_onLine (r : Reader) (b : UInt8) (l : UInt32) : (r.onLine l).read b = (r.read b).onLine l := by
  have hmode : (r.onLine l).mode = r.mode := rfl
  unfold read
  rw [hmode]
  cases r.mode with
  | idle => exact atIdle_onLine r b l
  | selector part => exact atSelector_onLine r part b l
  | combinator => exact atCombinator_onLine r b l
  | block => exact atBlock_onLine r b l
  | name => exact atName_onLine r b l
  | colon => exact atColon_onLine r b l
  | value => exact atValue_onLine r b l
  | terminator => exact atTerminator_onLine r b l

/-- A byte that has been counted does not change the line, whether it is refused or not. -/
theorem line_read (r : Reader) (b : UInt8) : (r.read b).reader.line = r.line :=
  congrArg (·.reader.line) (read_onLine r b r.line)

theorem line_step (r : Reader) (b : UInt8) :
    (r.step b).reader.line = r.line + UInt32.ofNat ([b].count lineEnd) := by
  unfold step
  rw [line_read]
  unfold count
  by_cases h : b = lineEnd <;> simp [h]

/-! ## What a run takes -/

/-- The bytes that a run takes: all of them, or those up to the first that is refused, that one included. -/
def taken (r : Reader) : List UInt8 → List UInt8
  | [] => []
  | b :: bs => if (r.step b).fault? = none then b :: (r.step b).reader.taken bs else [b]

theorem taken_prefix (r : Reader) (bs : List UInt8) : r.taken bs <+: bs := by
  induction bs generalizing r with
  | nil => exact List.nil_prefix
  | cons b bs ih =>
    unfold taken
    split
    · exact List.prefix_cons_iff.mpr (Or.inr ⟨_, rfl, ih _⟩)
    · exact List.prefix_cons_iff.mpr (Or.inr ⟨[], rfl, List.nil_prefix⟩)

/-- What is not taken has no effect. -/
theorem run_taken (r : Reader) (bs : List UInt8) : r.run (r.taken bs) = r.run bs := by
  induction bs generalizing r with
  | nil => rfl
  | cons b bs ih =>
    unfold taken
    split
    · rename_i h
      rw [run_cons, run_cons, Outcome.andThen_of_none h, Outcome.andThen_of_none h, ih]
    · rename_i h
      rw [run_cons, run_cons, Outcome.andThen_of_fault h, Outcome.andThen_of_fault h]

/-- Bytes that do not stop a run are taken, and then what follows. -/
theorem taken_append {xs : List UInt8} (h : (r.run xs).fault? = none) (ys : List UInt8) :
    r.taken (xs ++ ys) = xs ++ (r.run xs).reader.taken ys := by
  induction xs generalizing r with
  | nil => rfl
  | cons b xs ih =>
    rw [run_cons] at h ⊢
    by_cases hb : (r.step b).fault? = none
    · rw [Outcome.andThen_of_none hb] at h ⊢
      rw [List.cons_append, taken, if_pos hb, ih h]
      rfl
    · rw [Outcome.andThen_of_fault hb] at h
      exact absurd h hb

/-- A run that is not stopped takes every byte. -/
theorem taken_eq (h : (r.run bs).fault? = none) : r.taken bs = bs := by
  simpa [taken] using taken_append h []

/-- A run that is not stopped was not stopped before. -/
theorem fault_of_append {xs ys : List UInt8} (h : (r.run (xs ++ ys)).fault? = none) : (r.run xs).fault? = none := by
  by_cases hxs : (r.run xs).fault? = none
  · exact hxs
  · rw [run_append, Outcome.andThen_of_fault hxs] at h
    exact absurd h hxs

/-- The byte that stops a run is the last one taken. -/
theorem taken_of_refused {before after : List UInt8} {b : UInt8} (h : (r.run before).fault? = none)
    (hb : ((r.run before).reader.step b).fault? ≠ none) : r.taken (before ++ b :: after) = before ++ [b] := by
  rw [taken_append h, taken, if_neg hb]

theorem fault_snoc {before : List UInt8} (h : (r.run before).fault? = none) (b : UInt8) :
    (r.run (before ++ [b])).fault? = ((r.run before).reader.step b).fault? := by
  rw [run_append, Outcome.andThen_of_none h, run_cons]
  cases hb : ((r.run before).reader.step b).fault? with
  | none => simp [Outcome.andThen_of_none hb]
  | some f => simp [Outcome.andThen, hb]

theorem line_run (r : Reader) (bs : List UInt8) :
    (r.run bs).reader.line = r.line + UInt32.ofNat ((r.taken bs).count lineEnd) := by
  induction bs generalizing r with
  | nil => simp [taken]
  | cons b bs ih =>
    rw [run_cons, taken]
    by_cases hb : (r.step b).fault? = none
    · have hcount : (b :: (r.step b).reader.taken bs).count lineEnd =
          [b].count lineEnd + ((r.step b).reader.taken bs).count lineEnd :=
        show ([b] ++ (r.step b).reader.taken bs).count lineEnd = _ from List.count_append
      rw [Outcome.andThen_of_none hb, if_pos hb, hcount, UInt32.ofNat_add, ← UInt32.add_assoc, ← line_step]
      exact ih _
    · rw [Outcome.andThen_of_fault hb, if_neg hb, line_step]

/-- The error of a run is that of the first byte refused. -/
theorem error_run_iff {e : SyntaxError} :
    (r.run bs).error? = some e ↔
      ∃ before b after, bs = before ++ b :: after ∧ (r.run before).fault? = none ∧
        ((r.run before).reader.step b).error? = some e := by
  constructor
  · intro h
    induction bs generalizing r with
    | nil => simp [Outcome.error?] at h
    | cons b bs ih =>
      rw [run_cons] at h
      by_cases hb : (r.step b).fault? = none
      · rw [Outcome.andThen_of_none hb] at h
        obtain ⟨before, x, after, rfl, hrun, he⟩ := ih h
        refine ⟨b :: before, x, after, rfl, ?_, ?_⟩
        · rw [run_cons, Outcome.andThen_of_none hb]
          exact hrun
        · rw [run_cons, Outcome.andThen_of_none hb]
          exact he
      · rw [Outcome.andThen_of_fault hb] at h
        exact ⟨[], b, bs, rfl, rfl, h⟩
  · intro hex
    obtain ⟨before, b, after, rfl, hrun, he⟩ := hex
    have hb : ((r.run before).reader.step b).fault? ≠ none := by
      intro hn
      simp [Outcome.error?, hn] at he
    rw [run_append, Outcome.andThen_of_none hrun, run_cons, Outcome.andThen_of_fault hb]
    exact he

/-- A run is stopped at a byte when it gets that far, and no further. -/
theorem stops_at_iff {before after : List UInt8} {b : UInt8} :
    (r.run (before ++ b :: after)).fault? ≠ none ∧ r.taken (before ++ b :: after) = before ++ [b] ↔
      (r.run before).fault? = none ∧ (r.run (before ++ [b])).fault? ≠ none := by
  constructor
  · intro h
    obtain ⟨hfault, htaken⟩ := h
    obtain ⟨f, hf⟩ := Option.ne_none_iff_exists'.mp hfault
    have herror : (r.run (before ++ b :: after)).error? = some ⟨(r.run (before ++ b :: after)).reader.line, f⟩ := by
      simp [Outcome.error?, hf]
    obtain ⟨xs, c, ys, hcut, hxs, hc⟩ := error_run_iff.mp herror
    have hrefused : ((r.run xs).reader.step c).fault? ≠ none := by
      intro hnone
      simp [Outcome.error?, hnone] at hc
    rw [hcut, taken_of_refused hxs hrefused] at htaken
    obtain ⟨rfl, -⟩ := List.append_inj' htaken rfl
    rw [← htaken, fault_snoc hxs]
    exact ⟨hxs, hrefused⟩
  · intro h
    obtain ⟨hbefore, hfault⟩ := h
    have hrefused : ((r.run before).reader.step b).fault? ≠ none := fault_snoc hbefore b ▸ hfault
    have htaken : r.taken (before ++ b :: after) = before ++ [b] := taken_of_refused hbefore hrefused
    refine ⟨?_, htaken⟩
    rw [← run_taken, htaken]
    exact hfault

/-! ## Some lines later -/

def later (k : UInt32) (r : Reader) : Reader := r.onLine (r.line + k)

end Reader

def Outcome.later (k : UInt32) (o : Outcome) : Outcome := { o with reader := o.reader.later k }

namespace Reader

variable {k : UInt32}

theorem count_later (r : Reader) (b : UInt8) (k : UInt32) : (r.later k).count b = (r.count b).later k := by
  unfold count
  split
  · show r.onLine (r.line + k + 1) = r.onLine (r.line + 1 + k)
    rw [UInt32.add_assoc, UInt32.add_assoc, UInt32.add_comm k]
  · rfl

theorem step_later (r : Reader) (b : UInt8) (k : UInt32) : (r.later k).step b = (r.step b).later k := by
  unfold step
  rw [count_later, later, read_onLine, Outcome.later, later, line_read]
  rfl

theorem run_later (r : Reader) (bs : List UInt8) (k : UInt32) : (r.later k).run bs = (r.run bs).later k := by
  induction bs generalizing r with
  | nil => rfl
  | cons b bs ih =>
    rw [run_cons, run_cons, step_later]
    have hfault : ((r.step b).later k).fault? = (r.step b).fault? := rfl
    have hrest : ((r.step b).later k).reader.run bs = ((r.step b).reader.run bs).later k := ih _
    by_cases hb : (r.step b).fault? = none
    · rw [Outcome.andThen_of_none hb, Outcome.andThen_of_none (hfault.trans hb), hrest]
      rfl
    · rw [Outcome.andThen_of_fault hb, Outcome.andThen_of_fault (hfault ▸ hb)]

end Reader

theorem Outcome.ended_later (o : Outcome) (k : UInt32) : (o.later k).ended = o.ended.later k := by
  have hfault : (o.later k).fault? = o.fault? := rfl
  unfold ended andThen
  rw [hfault]
  cases o.fault? <;> rfl

theorem Outcome.error?_later (o : Outcome) (k : UInt32) :
    (o.later k).error? = o.error?.map fun e => { e with line := e.line + k } := by
  show o.fault?.map _ = (o.fault?.map _).map _
  rw [Option.map_map]
  rfl

end Cascade
