/-
  Cascade.Proofs.Reader.Stop — where a reader stops, and what it is then. The byte that
  stops it is not half applied: nothing is reported for it, the mode and the rule stay, and
  so does the answer to whether the input may end (`Leaves`). Only the token may change,
  and only in two ways: it was taken and refused, or a symbol was added to those that are
  in it. What stands after the byte in its chunk is not read. This holds of a reader with
  any past, faults included (`stops_unchanged`).

  The error names the line reached. A line end counts before it is read, so where the byte
  refused is itself a line end, the line named is the next one. This happens just where
  the line end shows that the token before it is none; every other byte refused stands on
  the line named (`line_of_error`).
-/

import Cascade.Proofs.Reader.Language
import Cascade.Proofs.Reader.Token

namespace Cascade.Reader

open Grammar

variable {r r' : Reader} {b : UInt8} {f : Fault} {bs : List UInt8} {e : SyntaxError}

/-! ## What is left of the reader -/

/-- What a refused byte leaves of a reader. -/
structure Leaves (r : Reader) (b : UInt8) (f : Fault) (r' : Reader) : Prop where
  mode : r'.mode = r.mode
  openRule : r'.openRule = r.openRule
  isIdle : r'.isIdle = r.isIdle
  ending : r'.endFault? = r.endFault?
  line : r'.line = lineAfter r.line b
  token : r'.pending = r.pending ∨ (Takes r b ∧ RefusesToken r f ∧ r'.pending = []) ∨
    (r.mode = .combinator ∧ r.pending ≠ [] ∧ (∀ x ∈ b :: r.pending, Sign.of x = .joiner) ∧ r'.pending = b :: r.pending)

theorem refusesToken_count (h : RefusesToken (r.count b) f) : RefusesToken r f := by
  rw [count_eq] at h
  cases h with
  | notText ht => exact .notText ht
  | emptyId hm ht => exact .emptyId hm ht
  | emptyClass hm ht => exact .emptyClass hm ht
  | unknownCombinator hm ht hc => exact .unknownCombinator hm ht hc

theorem takes_count (h : Takes (r.count b) b) : Takes r b := by
  rw [count_eq] at h
  exact h

/-- A reader whose token is such as its mode collects is left so. -/
theorem leaves_of_refuses (hh : Holds r.mode r.pending) (h : Refuses (r.count b) b f r') : Leaves r b f r' := by
  have hmode : r'.mode = r.mode := by rw [(kept_of_refuses h).1, count_eq]
  have hopen : r'.openRule = r.openRule := by rw [(kept_of_refuses h).2, count_eq]
  refine ⟨hmode, hopen, ?_, ?_, ?_, ?_⟩
  · rw [isIdle, isIdle, hmode, hopen]
  · rw [endFault?, endFault?, isIdle, isIdle, hmode, hopen]
  · cases h <;> exact congrArg Reader.line (count_eq r b)
  · cases h with
    | byte => exact Or.inl (by rw [count_eq])
    | token ht hr => exact Or.inr (Or.inl ⟨takes_count ht, refusesToken_count hr, rfl⟩)
    | symbol hm hp hb =>
      rw [count_eq] at hm hp
      rw [hm] at hh
      exact Or.inr (Or.inr ⟨hm, hp, List.forall_mem_cons.mpr ⟨hb, hh⟩, by rw [count_eq]; rfl⟩)

theorem holds_feedAll (chunks : List (List UInt8)) :
    Holds (({} : Reader).feedAll chunks).1.mode (({} : Reader).feedAll chunks).1.pending :=
  @keeps_feedAll {} (fun r _ => Holds r.mode r.pending) [] (fun b h => holds_step h b) (holds_nil _) chunks

/-- A byte that is refused in some chunk, after any chunks before it, stops the reader there: what was read before it
    has been reported, and nothing else; whatever follows has no effect. -/
theorem stops_unchanged (chunks : List (List UInt8)) {before : List UInt8}
    (hbefore : ((({} : Reader).feedAll chunks).1.run before).fault? = none)
    (h : (((({} : Reader).feedAll chunks).1.run before).reader.step b).fault? = some f) :
    let start := (({} : Reader).feedAll chunks).1
    ∃ r', Leaves (start.run before).reader b f r' ∧
      ∀ after, start.run (before ++ b :: after) = ⟨r', (start.run before).events, some f⟩ := by
  intro start
  have hholds : Holds (start.run before).reader.mode (start.run before).reader.pending :=
    @keeps_chunk start (fun r _ => Holds r.mode r.pending) [] (fun b h => holds_step h b) (holds_feedAll chunks) before
  have hrefuses : Refuses ((start.run before).reader.count b) b f ((start.run before).reader.step b).reader :=
    (refused_read _ b f h).2
  exact ⟨_, leaves_of_refuses hholds hrefuses, run_of_refused hbefore h⟩

/-- Two chunks of which each ends in a fault, the symbols that the first leaves being lost by the second. -/
def twoFaults : List (List UInt8) := [[0x61, 0x3E, 0x3E], [0x62]]

/-- After both the reader gets into the block of ` b{p q`, and is stopped by the second word. -/
theorem stops_unchanged_twoFaults :
    let start := (({} : Reader).feedAll twoFaults).1
    let before : List UInt8 := [0x20, 0x62, 0x7B, 0x70, 0x20]
    (start.run before).fault? = none ∧ ((start.run before).reader.step 0x71).fault? = some (.afterName 0x71) ∧
      (start.run before).events = [.combinator .descendant, .tag "b", .selectorEnd, .chainEnd, .name "p"] ∧
      ∃ r', Leaves (start.run before).reader 0x71 (.afterName 0x71) r' ∧
        ∀ after, start.run (before ++ 0x71 :: after) = ⟨r', (start.run before).events, some (.afterName 0x71)⟩ :=
  ⟨by decide, by decide, by decide, stops_unchanged twoFaults (by decide) (by decide)⟩

/-! ## The line of the error -/

/-- A new reader that is between two selectors has the symbol of a combinator, or none. -/
theorem combinator_of_stands {es : List Event} (h : Stands r bs es) (hm : r.mode = .combinator) (hp : r.pending ≠ []) :
    ∃ text c, Utf8.decode? r.token = some text ∧ Combinator.ofToken? text = some c := by
  cases h with
  | after => exact absurd rfl hp
  | symbol _ _ _ hj =>
    obtain ⟨text, ht, hc⟩ := symbol_token hj
    exact ⟨text, _, ht, hc⟩
  | _ => cases hm

/-- A line end is refused only where it ends a token, and the token is none. -/
theorem fault_at_lineEnd {es : List Event} (hs : Stands r bs es) (h : Refuses (r.count lineEnd) lineEnd f r') :
    f = .notText ∨ f = .emptyId ∨ f = .emptyClass := by
  have hsign : Sign.of lineEnd = .space := Sign.of_lineEnd
  cases h with
  | byte hb => cases hb <;> simp_all
  | token ht hr =>
    cases hr with
    | notText => simp
    | emptyId => simp
    | emptyClass => simp
    | unknownCombinator hm ht' hc =>
      rw [count_eq] at hm ht ht'
      have hp : r.pending ≠ [] := by simpa [Takes, show r.mode = .combinator from hm, hsign] using ht
      obtain ⟨text, c, htext, hcombinator⟩ := combinator_of_stands hs hm hp
      cases htext.symm.trans ht'
      cases hcombinator.symm.trans hc
  | symbol _ _ hb => simp [hsign] at hb

/-- The number of a line below the bound of the counter. -/
theorem toNat_line {n : Nat} (h : n < UInt32.size - 1) : (1 + UInt32.ofNat n).toNat = 1 + n := by
  have hn : n < UInt32.size := by omega
  rw [UInt32.toNat_add, UInt32.toNat_ofNat_of_lt' hn]
  exact Nat.mod_eq_of_lt (Nat.add_lt_of_lt_sub' h)

/-- The error of a new reader names the line after all line ends taken, the byte refused included: the line on which
    this byte stands, unless it is a line end. -/
theorem line_of_error (h : (({} : Reader).run bs).error? = some e) (hlines : bs.count lineEnd < UInt32.size - 1) :
    ∃ before b after, bs = before ++ b :: after ∧ (({} : Reader).run before).fault? = none ∧
      ((({} : Reader).run before).reader.step b).error? = some e ∧
      e.line.toNat = 1 + (before ++ [b]).count lineEnd ∧
      (e.line.toNat = 1 + before.count lineEnd ↔ b ≠ lineEnd) ∧
      (b = lineEnd → e.fault = .notText ∨ e.fault = .emptyId ∨ e.fault = .emptyClass) := by
  obtain ⟨before, b, after, rfl, hbefore, herror⟩ := error_run_iff.mp h
  obtain ⟨f, hf, rfl⟩ := Option.map_eq_some_iff.mp herror
  have hcount : (before ++ [b]).count lineEnd = before.count lineEnd + [b].count lineEnd := List.count_append
  have hline : ((({} : Reader).run before).reader.step b).reader.line =
      1 + UInt32.ofNat ((before ++ [b]).count lineEnd) := by
    rw [line_step, line_run, taken_eq hbefore, UInt32.add_assoc, ← UInt32.ofNat_add, ← hcount]
  have hfew : (before ++ [b]).count lineEnd < UInt32.size - 1 := by
    refine Nat.lt_of_le_of_lt (List.Sublist.count_le lineEnd ?_) hlines
    simp
  have hnumber : ((({} : Reader).run before).reader.step b).reader.line.toNat = 1 + (before ++ [b]).count lineEnd := by
    rw [hline, toNat_line hfew]
  refine ⟨before, b, after, rfl, hbefore, herror, hnumber, ?_, ?_⟩
  · show ((({} : Reader).run before).reader.step b).reader.line.toNat = _ ↔ _
    rw [hnumber, hcount, List.count_singleton]
    by_cases hb : b = lineEnd <;> simp [hb]
  · intro hb
    subst hb
    exact fault_at_lineEnd (stands_of_run hbefore) (refused_read _ lineEnd f hf).2

/-- An empty class on the third of four lines. -/
def emptyOnThird : List UInt8 := [0x61, 0x0A, 0x7B, 0x7D, 0x0A, 0x2E, 0x7B, 0x0A, 0x7D]

theorem line_of_error_emptyOnThird :
    emptyOnThird.count lineEnd = 3 ∧ (({} : Reader).run emptyOnThird).error? = some ⟨3, .emptyClass⟩ ∧
      ∃ before b after, emptyOnThird = before ++ b :: after ∧ (({} : Reader).run before).fault? = none ∧
        ((({} : Reader).run before).reader.step b).error? = some ⟨3, .emptyClass⟩ ∧
        (3 : UInt32).toNat = 1 + (before ++ [b]).count lineEnd ∧
        ((3 : UInt32).toNat = 1 + before.count lineEnd ↔ b ≠ lineEnd) ∧
        (b = lineEnd → Fault.emptyClass = .notText ∨ Fault.emptyClass = .emptyId ∨ Fault.emptyClass = .emptyClass) := by
  have herror : (({} : Reader).run emptyOnThird).error? = some ⟨3, .emptyClass⟩ := by decide
  exact ⟨by decide, herror, line_of_error herror (by decide)⟩

/-- The line end of `a#` is refused on the line that it starts, although nothing stands before it on any other line;
    with a blank before the line end the same id is refused on the line on which it stands. -/
theorem a_line_end_is_named_on_the_next_line :
    (({} : Reader).run [0x61, 0x23]).fault? = none ∧ [0x61, 0x23].count lineEnd = 0 ∧
      ((({} : Reader).run [0x61, 0x23]).reader.step lineEnd).error? = some ⟨2, .emptyId⟩ ∧
      (({} : Reader).run [0x61, 0x23, 0x0A, 0x7B, 0x7D]).error? = some ⟨2, .emptyId⟩ ∧
      (({} : Reader).run [0x61, 0x23, 0x20, 0x0A, 0x7B, 0x7D]).error? = some ⟨1, .emptyId⟩ := by
  decide

end Cascade.Reader
