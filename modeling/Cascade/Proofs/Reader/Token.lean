/-
  Cascade.Proofs.Reader.Token — what a token can be made of. In each mode the bytes of the
  token are such as the mode collects, and where nothing is collected there are none
  (`Holds`). Every byte keeps this, whether it is accepted or refused, so a reader that
  goes on after a fault never glues two tokens together.
-/

import Cascade.Proofs.Reader.Refusal

namespace Cascade.Reader

open Grammar

/-- A mode can hold these bytes as its token. -/
def Holds (mode : Mode) (token : List UInt8) : Prop :=
  match mode with
  | .idle | .block | .colon | .terminator => token = []
  | .selector _ => ∀ b ∈ token, Sign.of b = .plain
  | .combinator => ∀ b ∈ token, Sign.of b = .joiner
  | .name => ∀ b ∈ token, NameByte b
  | .value => ∀ b ∈ token, ValueByte b

variable {r r' : Reader} {b : UInt8} {es : List Event} {f : Fault}

theorem holds_nil (mode : Mode) : Holds mode [] := by cases mode <;> simp [Holds]

theorem holds_accepts (h : Holds r.mode r.pending) (ha : Accepts r b es r') : Holds r'.mode r'.pending := by
  cases ha with
  | idleSpace | blockSpace | blockSemicolon | blockClosing | colonSpace | terminatorSpace | terminatorSemicolon
  | terminatorClosing => exact h
  | idleMark | colonColon =>
    cases h
    exact holds_nil _
  | idleTag hb | blockName hb =>
    cases h
    exact List.forall_mem_singleton.mpr hb
  | partPlain hb | nameByte hb | valueByte hb => exact List.forall_mem_cons.mpr ⟨hb, h⟩
  | partJoiner hb | combinatorJoiner hb | combinatorTag hb => exact List.forall_mem_singleton.mpr hb
  | _ => exact holds_nil _

theorem holds_refuses (h : Holds r.mode r.pending) (hr : Refuses r b f r') : Holds r'.mode r'.pending := by
  cases hr with
  | byte => exact h
  | token => exact holds_nil _
  | symbol hm _ hb =>
    show Holds r.mode (b :: r.pending)
    rw [hm] at h ⊢
    exact List.forall_mem_cons.mpr ⟨hb, h⟩

theorem holds_count (h : Holds r.mode r.pending) (b : UInt8) : Holds (r.count b).mode (r.count b).pending := by
  rw [count_eq]
  exact h

theorem holds_step (h : Holds r.mode r.pending) (b : UInt8) : Holds (r.step b).reader.mode (r.step b).reader.pending := by
  rcases step_cases r b with ⟨-, ha⟩ | ⟨f, -, -, hr⟩
  · exact holds_accepts (holds_count h b) ha
  · exact holds_refuses (holds_count h b) hr

end Cascade.Reader
