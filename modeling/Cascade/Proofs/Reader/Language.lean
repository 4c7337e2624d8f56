/-
  Cascade.Proofs.Reader.Language — the language of a reader. A new reader gets to the end
  of a text, and the text may end there, exactly when the text is a sheet
  (`accepts_exactly_sheets`); it has then reported what stands in the sheet, and nothing
  else, whichever derivation one looks at.
-/

import Cascade.Proofs.Reader.Derives
import Cascade.Proofs.Reader.Reads

namespace Cascade.Reader

open Grammar

variable {r : Reader} {bs : List UInt8} {es : List Event} {rs : List Rule}

/-- An input that ends well was read without a fault, up to a place where it may end. -/
theorem ended_fault?_eq_none_iff {o : Outcome} :
    o.ended.fault? = none ↔ o.fault? = none ∧ o.reader.isIdle = true := by
  rw [← endFault?_eq_none_iff]
  unfold Outcome.ended Outcome.andThen
  cases h : o.fault? with
  | none => simp
  | some f => simp [h]

theorem ended_events (o : Outcome) : o.ended.events = o.events := by
  unfold Outcome.ended Outcome.andThen
  cases o.fault? with
  | none => simp
  | some f => rfl

theorem sheet_of_run (h : (({} : Reader).run bs).fault? = none) (hi : (({} : Reader).run bs).reader.isIdle = true) :
    ∃ rs, SheetText bs rs ∧ (({} : Reader).run bs).events = events rs :=
  sheet_of_stands (stands_of_run h) hi

/-- What is accepted is a sheet, and what was reported is what stands in it. -/
theorem sheet_of_accepted (h : (({} : Reader).run bs).ended.fault? = none) :
    ∃ rs, SheetText bs rs ∧ (({} : Reader).run bs).events = events rs := by
  obtain ⟨hfault, hidle⟩ := ended_fault?_eq_none_iff.mp h
  exact sheet_of_run hfault hidle

theorem accepted_of_sheet (h : SheetText bs rs) :
    (({} : Reader).run bs).ended.fault? = none ∧ (({} : Reader).run bs).events = events rs := by
  obtain ⟨l, hrun⟩ := run_sheet h
  rw [hrun]
  exact ⟨rfl, rfl⟩

/-- What is accepted is a sheet, and every sheet is accepted; what is reported of it is what stands in it. -/
theorem accepts_exactly_sheets (bs : List UInt8) (es : List Event) :
    ((({} : Reader).run bs).ended.fault? = none ∧ (({} : Reader).run bs).ended.events = es) ↔
      ∃ rs, SheetText bs rs ∧ events rs = es := by
  rw [ended_events]
  constructor
  · intro h
    obtain ⟨haccepted, rfl⟩ := h
    obtain ⟨rs, hsheet, hevents⟩ := sheet_of_accepted haccepted
    exact ⟨rs, hsheet, hevents.symm⟩
  · intro h
    obtain ⟨rs, hsheet, rfl⟩ := h
    exact accepted_of_sheet hsheet

end Cascade.Reader
