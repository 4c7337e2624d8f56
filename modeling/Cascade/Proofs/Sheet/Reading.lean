/-
  Cascade.Proofs.Sheet.Reading — what comes of reading a sheet, whatever the source does.

  `served` are the bytes that a source hands over before it ends or fails, and `halt?` is
  its failure. A reading is one run of the reader over these bytes, however they were
  cut, the builder on what the run reports, and then the end (`readFrom_eq`). It gives a
  sheet exactly when the bytes are a sheet's text and the source did not fail, and the
  sheet then holds the styles that are `made` of the rules in the text (`read_eq_ok_iff`).
-/

import Cascade.Proofs.Builder.Made
import Cascade.Proofs.Reader.Language
import Cascade.Sheet.Read

namespace Cascade

open Grammar

namespace Source

/-- The bytes that are handed over before the end or a failure. -/
def served : List Reply → List UInt8
  | [] => []
  | .bytes [] :: _ => []
  | .bytes (x :: xs) :: rest => x :: xs ++ served rest
  | .interrupted :: rest => served rest
  | .failed _ :: _ => []

/-- The failure that ends the reading, if the source has not ended before. -/
def halt? : List Reply → Option IoFault
  | [] => none
  | .bytes [] :: _ => none
  | .bytes (_ :: _) :: rest => halt? rest
  | .interrupted :: rest => halt? rest
  | .failed fault :: _ => some fault

theorem served_pieces {pieces : List (List UInt8)} (h : [] ∉ pieces) :
    served (pieces.map .bytes) = pieces.flatten ∧ halt? (pieces.map .bytes) = none := by
  induction pieces with
  | nil => exact ⟨rfl, rfl⟩
  | cons piece rest ih =>
    obtain ⟨hp, hr⟩ := List.ne_and_not_mem_of_not_mem_cons h
    obtain ⟨x, xs, rfl⟩ := List.exists_cons_of_ne_nil (Ne.symm hp)
    obtain ⟨hserved, hhalt⟩ := ih hr
    exact ⟨by simp [served, hserved], by simp [halt?, hhalt]⟩

theorem nil_notMem_cut (bs : List UInt8) : [] ∉ cut bs := by
  fun_induction cut bs with
  | case1 => simp
  | case2 b rest ih =>
    intro h
    rcases List.mem_cons.mp h with h | h
    · simp [readSize] at h
    · exact ih h

/-- A source that holds bytes hands over these and does not fail. -/
theorem served_replies (bs : List UInt8) : served (replies bs) = bs ∧ halt? (replies bs) = none := by
  cases bs with
  | nil => exact ⟨rfl, rfl⟩
  | cons b bs =>
    have h := served_pieces (nil_notMem_cut (b :: bs))
    rw [flatten_cut] at h
    exact h

end Source

namespace Sheet

variable {σ V : Type} (host : Host σ V)

/-- The end of a reading of which the reader's run was `o`. -/
def conclude (b : Builder σ V) (supply : Supply) (o : Outcome) (halt : Option IoFault) : Reading σ V :=
  let (b, supply) := b.addAll host supply o.events
  match o.error?, halt with
  | some e, _ => ⟨.error (.syntactic e), b.memory, supply⟩
  | none, some fault => ⟨.error (.io fault), b.memory, supply⟩
  | none, none => endReading o.reader b supply

theorem conclude_andThen {b : Builder σ V} {supply : Supply} {o : Outcome} {f : Reader → Outcome}
    {halt : Option IoFault} (h : o.fault? = none) :
    conclude host b supply (o.andThen f) halt =
      conclude host (b.addAll host supply o.events).1 (b.addAll host supply o.events).2 (f o.reader) halt := by
  simp [conclude, Outcome.andThen, Outcome.error?, h, Builder.addAll_append]

theorem readFrom_eq (r : Reader) (b : Builder σ V) (supply : Supply) (source : List Reply) :
    readFrom host r b supply source =
      conclude host b supply (r.run (Source.served source)) (Source.halt? source) := by
  induction source generalizing r b supply with
  | nil => rfl
  | cons reply rest ih =>
    rcases reply with ⟨_ | ⟨x, xs⟩⟩ | _ | fault
    · rfl
    · simp only [readFrom, Source.served, Source.halt?]
      rw [Reader.run_append]
      cases h : (r.run (x :: xs)).fault? with
      | none => simp [conclude_andThen host h, Outcome.error?, h, ih]
      | some f => simp [conclude, Outcome.andThen, Outcome.error?, h]
    · exact ih r b supply
    · rfl

/-- At the end of the events of rules the styles are those made of them. -/
theorem conclude_events (memory : σ) (supply : Supply) (l : UInt32) (rs : List Rule) :
    conclude host (Builder.between memory []) supply ⟨{ line := l }, events rs, none⟩ none =
      ⟨.ok (ofStyles (made host memory supply rs).styles), (made host memory supply rs).memory,
        (made host memory supply rs).supply⟩ := by
  have hmade := Builder.addAll_events host supply memory [] rs
  unfold conclude
  rw [hmade]
  simp [Outcome.error?, endReading, Reader.endError?, Reader.endFault?, Reader.isIdle, Builder.between,
    Builder.finished]

/-- A source that does not fail and whose bytes are run through with the events of rules gives the styles made of
    these. -/
theorem read_of_run {source : List Reply} {l : UInt32} {rs : List Rule} (memory : σ) (supply : Supply)
    (h : ({} : Reader).run (Source.served source) = ⟨{ line := l }, events rs, none⟩)
    (hh : Source.halt? source = none) :
    read host memory supply source =
      ⟨.ok (ofStyles (made host memory supply rs).styles), (made host memory supply rs).memory,
        (made host memory supply rs).supply⟩ := by
  unfold read
  rw [readFrom_eq, h, hh]
  exact conclude_events host memory supply l rs

theorem read_replies_of_run {bs : List UInt8} {l : UInt32} {rs : List Rule} (memory : σ) (supply : Supply)
    (h : ({} : Reader).run bs = ⟨{ line := l }, events rs, none⟩) :
    read host memory supply (Source.replies bs) =
      ⟨.ok (ofStyles (made host memory supply rs).styles), (made host memory supply rs).memory,
        (made host memory supply rs).supply⟩ := by
  obtain ⟨hserved, hhalt⟩ := Source.served_replies bs
  exact read_of_run host memory supply (by rw [hserved, h]) hhalt

/-- A source that does not fail and whose bytes are the text of rules gives the styles made of them. -/
theorem read_of_sheet {source : List Reply} {rs : List Rule} (memory : σ) (supply : Supply)
    (h : SheetText (Source.served source) rs) (hh : Source.halt? source = none) :
    read host memory supply source =
      ⟨.ok (ofStyles (made host memory supply rs).styles), (made host memory supply rs).memory,
        (made host memory supply rs).supply⟩ := by
  obtain ⟨l, hrun⟩ := Reader.run_sheet h
  exact read_of_run host memory supply hrun hh

theorem sheet_of_conclude {b : Builder σ V} {supply : Supply} {o : Outcome} {halt : Option IoFault} {S : Sheet V}
    (h : (conclude host b supply o halt).result = .ok S) :
    o.fault? = none ∧ halt = none ∧ o.reader.isIdle = true := by
  unfold conclude at h
  cases hf : o.fault? with
  | some f => simp [Outcome.error?, hf] at h
  | none =>
    cases halt with
    | some fault => simp [Outcome.error?, hf] at h
    | none =>
      refine ⟨rfl, rfl, Reader.endFault?_eq_none_iff.mp ?_⟩
      cases he : o.reader.endFault? with
      | none => rfl
      | some f => simp [Outcome.error?, hf, endReading, Reader.endError?, he] at h

/-- A reading gives a sheet exactly when the source does not fail and its bytes are the text of rules. -/
theorem read_eq_ok_iff {memory : σ} {supply : Supply} {source : List Reply} {S : Sheet V} :
    (read host memory supply source).result = .ok S ↔
      Source.halt? source = none ∧
        ∃ rs, SheetText (Source.served source) rs ∧ S = ofStyles (made host memory supply rs).styles := by
  constructor
  · intro h
    have hread := h
    unfold read at h
    rw [readFrom_eq] at h
    obtain ⟨hfault, hhalt, hidle⟩ := sheet_of_conclude host h
    obtain ⟨rs, hsheet, -⟩ := Reader.sheet_of_run hfault hidle
    rw [read_of_sheet host memory supply hsheet hhalt] at hread
    exact ⟨hhalt, rs, hsheet, (Except.ok.inj hread).symm⟩
  · intro h
    obtain ⟨hhalt, rs, hsheet, hS⟩ := h
    rw [read_of_sheet host memory supply hsheet hhalt, hS]

/-- The text at hand is read in one run. -/
theorem parse_eq (memory : σ) (supply : Supply) (css : String) :
    parse host memory supply css = conclude host { memory } supply (({} : Reader).run (Utf8.bytes css)) none := by
  obtain ⟨hserved, hhalt⟩ := Source.served_replies (Utf8.bytes css)
  unfold parse Sheet.read
  rw [readFrom_eq, hserved, hhalt]

theorem parse_of_sheet {css : String} {rs : List Rule} (memory : σ) (supply : Supply)
    (h : SheetText (Utf8.bytes css) rs) :
    parse host memory supply css =
      ⟨.ok (ofStyles (made host memory supply rs).styles), (made host memory supply rs).memory,
        (made host memory supply rs).supply⟩ := by
  obtain ⟨l, hrun⟩ := Reader.run_sheet h
  exact read_replies_of_run host memory supply hrun

end Sheet

end Cascade
