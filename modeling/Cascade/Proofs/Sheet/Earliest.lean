/-
  Cascade.Proofs.Sheet.Earliest — which of the styles that were added to a sheet answers a
  query. Of those that decide (`Sheet.decides`) it is one that no other outranks, and of
  these the one that was added first (`Prevails`); it gives the value and the rank, and
  the cursor stays where its walk ends (`query_after`).

  Every style is tried from the cursor's home, so a query does not depend on where the
  cursor is (`query_atHome`), and queries one after the other on one cursor have the
  answers that each has on a new one (`queryAll_eq`).
-/

import Cascade.Proofs.Sheet.History
import Cascade.Proofs.Sheet.Winner

namespace Cascade.Sheet

variable {V : Type} {d : Document} {p : PropertyId} {i : d.Place} {styles : List (Style V)} {x : Style V}

/-! ## The cursor -/

/-- Only the cursor's home plays a part. -/
theorem query_atHome (s : Sheet V) (p : PropertyId) (c : Cursor d) : s.query p c = s.query p (Cursor.atHome c.home) := by
  unfold query
  cases s.styles with
  | nil => rfl
  | cons x rest => rfl

/-- Queries one after the other, each on the cursor as the one before has left it. -/
def queryAll (c : Cursor d) : List (Sheet V × PropertyId) → List (Answer d V)
  | [] => []
  | q :: rest =>
    let a := q.1.query q.2 c
    a :: queryAll a.cursor rest

theorem home_query (s : Sheet V) (p : PropertyId) (c : Cursor d) : (s.query p c).cursor.home = c.home := by
  unfold query
  rw [(queryStyles_eq p s.styles c).2.2]
  cases s.styles.find? (decides p c.home) with
  | none => rfl
  | some x => exact Chain.home_walk x.chain _

theorem queryAll_eq (c : Cursor d) (queries : List (Sheet V × PropertyId)) :
    queryAll c queries = queries.map fun q => q.1.query q.2 (Cursor.atHome c.home) := by
  induction queries generalizing c with
  | nil => rfl
  | cons q rest ih => rw [queryAll, List.map_cons, ih, home_query, query_atHome]

/-! ## The style that answers -/

/-- The style decides; of those added before it none that decides ranks as high, and of those added after it none
    ranks higher. -/
def Prevails (styles : List (Style V)) (p : PropertyId) (i : d.Place) (x : Style V) : Prop :=
  decides p i x = true ∧ ∃ before after, styles = before ++ x :: after ∧
    (∀ y ∈ before, decides p i y = true → y.specificity < x.specificity) ∧
    ∀ y ∈ after, decides p i y = true → y.specificity ≤ x.specificity

theorem rank_lt {a b : Specificity} (h : a ≤ b) (hne : a ≠ b) : a < b := by
  rcases UInt32.lt_or_eq_of_le h with h | h
  · exact h
  · exact absurd (congrArg Specificity.mk h) hne

/-- The first of the sorted styles that decides prevails among them as they were added. -/
theorem prevails_of_find (h : (ofStyles styles).styles.find? (decides p i) = some x) : Prevails styles p i x := by
  have hwins := wins_of_find (sorted_ofStyles styles) h
  -- sorting keeps the styles of the winner's rank in order, so it is the first of its rank that decides
  have hrank : (styles.filter (·.specificity = x.specificity)).find? (decides p i) = some x := by
    rw [← (ranked_ofStyles styles).stable, List.find?_filter]
    obtain ⟨hx, before, after, hsplit, hbefore⟩ := List.find?_eq_some_iff_append.mp h
    refine List.find?_eq_some_iff_append.mpr ⟨by simp [hx], before, after, hsplit, ?_⟩
    intro y hy
    have hno := hbefore y hy
    simp only [Bool.not_eq_true'] at hno ⊢
    simp [hno]
  rw [List.find?_filter] at hrank
  obtain ⟨-, before, after, hsplit, hbefore⟩ := List.find?_eq_some_iff_append.mp hrank
  have hle : ∀ y ∈ styles, decides p i y = true → y.specificity ≤ x.specificity := fun y hy =>
    hwins.highest y ((perm_ofStyles styles).mem_iff.mpr hy)
  refine ⟨hwins.decides, before, after, hsplit, ?_, ?_⟩
  · intro y hy hd
    refine rank_lt (hle y ?_ hd) ?_
    · rw [hsplit]
      exact List.mem_append_left _ hy
    · intro e
      simpa [hd, e] using hbefore y hy
  · intro y hy hd
    refine hle y ?_ hd
    rw [hsplit]
    exact List.mem_append_right _ (List.mem_cons_of_mem _ hy)

theorem value_isSome_iff (s : Sheet V) (p : PropertyId) (c : Cursor d) :
    (s.query p c).value.isSome = true ↔ ∃ x ∈ s.styles, decides p c.home x = true := by
  unfold query
  rw [(queryStyles_eq p s.styles c).1]
  cases hf : s.styles.find? (decides p c.home) with
  | none =>
    have hnone := List.find?_eq_none.mp hf
    simpa using hnone
  | some x =>
    have hx : decides p c.home x = true := List.find?_some hf
    have hvalue : (x.block.declarations.get? p).isSome = true := (Bool.and_eq_true_iff.mp hx).2
    simpa [hvalue] using ⟨x, List.mem_of_find?_eq_some hf, hx⟩

theorem query_ofStyles (styles : List (Style V)) (p : PropertyId) (c : Cursor d) :
    let s := ofStyles styles
    let answer := s.query p c
    (∃ x, Prevails styles p c.home x ∧ answer.value = x.block.declarations.get? p ∧
        answer.specificity = x.specificity ∧ answer.cursor = (x.chain.walk (Cursor.atHome c.home)).cursor) ∨
      (∀ x ∈ s.styles, decides p c.home x = false) ∧ answer.value = none ∧ answer.specificity = .zero ∧
        answer.cursor = Cursor.atHome c.home := by
  intro s answer
  obtain ⟨hvalue, hrank, hcursor⟩ := queryStyles_eq p s.styles c
  cases hf : s.styles.find? (decides p c.home) with
  | none =>
    rw [hf] at hvalue hrank hcursor
    exact Or.inr ⟨by simpa using hf, hvalue, hrank, hcursor⟩
  | some x =>
    rw [hf] at hvalue hrank hcursor
    exact Or.inl ⟨x, prevails_of_find hf, hvalue, hrank, hcursor⟩

/-- After any history a query is answered by the style that prevails among those that were added to the sheet, from
    where the cursor then is; or no style matches the node and declares the property, and the cursor goes home.
    Where the cursor was before, and what was asked on it, plays no part. -/
theorem query_after (actions : List (Action V)) (k : Nat) (p : PropertyId) (c : Cursor d) :
    let s := (Store.after actions).sheet k
    let answer := s.query p c
    (answer.value.isSome = true ↔ ∃ x ∈ s.styles, (x.chain.walk (Cursor.atHome c.home)).found = true ∧
        (x.block.declarations.get? p).isSome = true) ∧
      ((∃ x, Prevails (Store.added actions k) p c.home x ∧ answer.value = x.block.declarations.get? p ∧
          answer.specificity = x.specificity ∧ answer.cursor = (x.chain.walk (Cursor.atHome c.home)).cursor) ∨
        (∀ x ∈ s.styles, decides p c.home x = false) ∧ answer.value = none ∧ answer.specificity = .zero ∧
          answer.cursor = Cursor.atHome c.home) ∧
      answer = s.query p (Cursor.atHome c.home) ∧
      ∀ queries : List (Sheet V × PropertyId),
        queryAll c queries = queries.map fun q => q.1.query q.2 (Cursor.atHome c.home) := by
  intro s answer
  have hs : s = ofStyles (Store.added actions k) := sheet_after actions k
  refine ⟨?_, ?_, query_atHome s p c, queryAll_eq c⟩
  · have hfound := value_isSome_iff s p c
    simpa only [decides, Bool.and_eq_true] using hfound
  · have hcases := query_ofStyles (Store.added actions k) p c
    rw [← hs] at hcases
    exact hcases

end Cascade.Sheet
