/-
  Cascade.Proofs.Sheet.History — what a sheet is after any history. `Store.added` keeps,
  without sorting anything, the styles that were added to each sheet in the order in which
  they were added: a text adds the styles that are made of it, in its order; an appended
  sheet adds all that was added to it, and is left with nothing.

  Every sheet is at all times the one stable sort by rank of what was added to it
  (`sheets_of_history`): one action keeps this (`kept_step`), and so every history does.
-/

import Cascade.Proofs.Sheet.Genuine

namespace Cascade

variable {σ V : Type}

/-- The styles that were added to the sheet at a place, in the order in which they were added. -/
def Additions (V : Type) : Type := Nat → List (Style V)

namespace Additions

/-- Nothing was added to any sheet but these styles to this one. -/
def put (added : Additions V) (i : Nat) (styles : List (Style V)) : Additions V :=
  fun k => if k = i then styles else added k

/-- A reading that comes to a sheet adds the styles that are made of the bytes; another adds none. -/
def finish (added : Additions V) (i : Nat) (host : Host σ V) (memory : σ) (supply : Supply) (source : List Reply) :
    Additions V :=
  match (Sheet.read host memory supply source).result with
  | .ok _ => added.put i (Sheet.buildWhole host memory supply (Source.served source)).1.finished
  | .error _ => added

/-- What was added after one more action of a program. -/
def next (added : Additions V) (st : Store V) : Action V → Additions V
  | .new i => added.put i []
  | .read i host memory source => added.finish i host memory st.supply source
  | .parse i host memory css => added.finish i host memory st.supply (Source.replies (Utf8.bytes css))
  | .build i host memory events => added.put i (({ memory } : Builder _ V).addAll host st.supply events).1.finished
  | .ofStyles i ks => added.put i (st.picked ks)
  | .insert i k => added.put i (added i ++ (st.styles[k]?).toList)
  | .append i j => if i = j then added else (added.put i (added i ++ added j)).put j []
  | .block _ | .style _ _ | .copy _ _ | .sort _ => added

/-- What was added after more actions, the first of them on `st`. -/
def along (added : Additions V) (st : Store V) : List (Action V) → Additions V
  | [] => added
  | a :: actions => (added.next st a).along (st.step a) actions

end Additions

/-- What was added to each sheet, starting with nothing. -/
def Store.added (actions : List (Action V)) : Additions V := Additions.along (fun _ => []) {} actions

/-! ## One action -/

/-- Every sheet is the stable sort by rank of what was added to it. -/
def Kept (st : Store V) (added : Additions V) : Prop := ∀ i, st.sheet i = .ofStyles (added i)

variable {st : Store V} {added : Additions V}

theorem kept_put (h : Kept st added) {i : Nat} {s : Sheet V} {styles : List (Style V)} (hs : s = .ofStyles styles) :
    Kept (st.put i s) (added.put i styles) := by
  intro k
  by_cases e : k = i
  · subst e
    simp [Additions.put, hs]
  · rw [Store.put_ne st s e, h k]
    simp [Additions.put, e]

theorem kept_finish (h : Kept st added) (host : Host σ V) (memory : σ) (source : List Reply) (i : Nat) :
    Kept (st.finish i (Sheet.read host memory st.supply source)) (added.finish i host memory st.supply source) := by
  unfold Store.finish Additions.finish
  cases hr : (Sheet.read host memory st.supply source).result with
  | error e => exact h
  | ok s =>
    have hstore : Kept { st with supply := (Sheet.read host memory st.supply source).supply } added := h
    exact kept_put hstore (Sheet.sheet_read host memory st.supply hr)

theorem kept_insert (h : Kept st added) (i k : Nat) :
    Kept (st.step (.insert i k)) (added.next st (.insert i k)) := by
  have hsame : added.put i (added i) = added := by
    funext j
    by_cases e : j = i <;> simp [Additions.put, e]
  simp only [Store.step, Additions.next]
  cases st.styles[k]? with
  | none => simpa [hsame] using h
  | some x =>
    refine kept_put h ?_
    rw [h i]
    exact Sheet.insert_ofStyles (added i) x

/-- One action keeps every sheet what it is. -/
theorem kept_step (h : Kept st added) (a : Action V) : Kept (st.step a) (added.next st a) := by
  have hempty : Sheet.empty = Sheet.ofStyles ([] : List (Style V)) := by simp [Sheet.ofStyles, Sheet.empty]
  cases a with
  | new i => exact kept_put h hempty
  | read i host memory source => exact kept_finish h host memory source i
  | parse i host memory css => exact kept_finish h host memory _ i
  | build i host memory events =>
    have hstore : Kept { st with supply := (({ memory } : Builder _ V).addAll host st.supply events).2 } added := h
    exact kept_put hstore rfl
  | ofStyles i ks => exact kept_put h rfl
  | insert i k => exact kept_insert h i k
  | append i j =>
    simp only [Store.step, Additions.next]
    split
    · exact h
    · refine kept_put (kept_put h ?_) hempty
      rw [h i, h j]
      exact Sheet.ofStyles_append (added i) (added j)
  | sort i =>
    have hsort : (st.sheet i).sort = st.sheet i := by
      rw [h i]
      exact Sheet.ofStyles_ofStyles (added i)
    intro k
    by_cases e : k = i
    · subst e
      rw [Store.step, Store.put_same, hsort]
      exact h k
    · rw [Store.step, Store.put_ne st _ e]
      exact h k
  | block declarations => exact h
  | style chain k =>
    simp only [Store.step]
    split <;> exact h
  | copy i k =>
    simp only [Store.step]
    split <;> exact h

/-! ## Histories -/

theorem kept_run (h : Kept st added) (actions : List (Action V)) : Kept (st.run actions) (added.along st actions) := by
  induction actions generalizing st added with
  | nil => exact h
  | cons a actions ih => exact ih (kept_step h a)

theorem kept_after (actions : List (Action V)) : Kept (Store.after actions) (Store.added actions) := by
  refine kept_run ?_ actions
  intro i
  simp [Sheet.ofStyles, Sheet.empty]

theorem sheet_after (actions : List (Action V)) (i : Nat) :
    (Store.after actions).sheet i = .ofStyles (Store.added actions i) :=
  kept_after actions i

/-- Whatever a program did, every sheet has just the styles that were added to it, by rank, and those of one rank in
    the order in which they were added; no other list does. A style ranks as its chain does. Styles inserted one by
    one come to the sheet that all of them come to at once. -/
theorem sheets_of_history (actions : List (Action V)) :
    (∀ i l, Sheet.Ranked (Store.added actions i) l ↔ l = ((Store.after actions).sheet i).styles) ∧
      (∀ i, ∀ x ∈ ((Store.after actions).sheet i).styles, x.specificity = x.chain.specificity) ∧
      ∀ styles : List (Style V), styles.foldl Sheet.insert .empty = .ofStyles styles := by
  refine ⟨fun i l => ?_, fun i x hx => ?_, Sheet.foldl_insert⟩
  · rw [sheet_after]
    exact Sheet.ranked_iff
  · exact (Store.sound_after actions).ranks x (Or.inr ⟨i, hx⟩)

end Cascade
