/-
  Cascade.Proofs.Sheet.Winner — which style answers a query. A style `decides` where it
  matches the node and declares the property. In a sheet that is sorted by rank the first
  style that decides has the highest rank of those that do: it `Wins`, and the answer is
  its value and its rank; if none decides there is no value (`query_cases`). Where the
  cursor was before plays no part, since every style is tried from the cursor's home.
-/

import Cascade.Proofs.Sheet.Order
import Cascade.Sheet.Query

namespace Cascade

variable {V : Type} {d : Document}

/-! ## A walk keeps its home -/

namespace Cursor

theorem home_hop (dir : Direction) (s : Selector) (c : Cursor d) : (c.hop dir s).cursor.home = c.home := by
  unfold hop
  split <;> rfl

theorem home_seek (dir : Direction) (s : Selector) (c : Cursor d) : (c.seek dir s).cursor.home = c.home := by
  fun_induction seek dir s c with
  | case1 => rfl
  | case2 c i h hs ih => exact ih
  | case3 => rfl

theorem home_relate (s : Selector) (c : Cursor d) : (c.relate s).cursor.home = c.home := by
  unfold relate
  cases s.combinator with
  | none => rfl
  | descendant => exact home_seek .up s c
  | child => exact home_hop .up s c
  | next => exact home_hop .left s c
  | subsequent => exact home_seek .left s c

theorem home_climb (rest : List Selector) (c : Cursor d) : (c.climb rest).cursor.home = c.home := by
  induction rest generalizing c with
  | nil => rfl
  | cons s rest ih =>
    rw [climb]
    split
    · exact (ih _).trans (home_relate s c)
    · exact home_relate s c

end Cursor

theorem Chain.home_walk (chain : Chain) (c : Cursor d) : (chain.walk c).cursor.home = c.home := by
  unfold Chain.walk
  split
  · rfl
  · split
    · exact Cursor.home_climb _ c
    · rfl

namespace Sheet

/-! ## The style that decides -/

/-- The style matches the node and declares the property. -/
def decides (p : PropertyId) (i : d.Place) (x : Style V) : Bool :=
  (x.chain.walk (Cursor.atHome i)).found && (x.block.declarations.get? p).isSome

variable {p : PropertyId} {i : d.Place} {styles : List (Style V)} {x : Style V}

/-- The first style either decides, or leaves the question to the others. -/
theorem queryStyles_cons (p : PropertyId) (x : Style V) (rest : List (Style V)) (c : Cursor d) :
    queryStyles p (x :: rest) c =
      let w := x.chain.walk (Cursor.atHome c.home)
      if decides p c.home x then ⟨x.block.declarations.get? p, x.specificity, w.cursor, .reset :: w.moves⟩
      else afterMoves (.reset :: w.moves) (queryStyles p rest w.cursor) := by
  have hwalk : x.chain.walk (Cursor.atHome c.home) = x.chain.walk c.reset := rfl
  rw [queryStyles]
  split
  · rename_i v hfound hv
    have hx : decides p c.home x = true := by simp [decides, hwalk, hfound, hv]
    simp [hx, hv, hwalk]
  · rename_i hnot
    have hx : ¬ decides p c.home x = true := by
      intro hx
      obtain ⟨hfound, hsome⟩ := Bool.and_eq_true_iff.mp hx
      obtain ⟨v, hv⟩ := Option.isSome_iff_exists.mp hsome
      exact hnot v hfound hv
    simp [hx, hwalk]

/-- The first style that decides gives the value and the rank, and the cursor stays where its walk ends. -/
theorem queryStyles_eq (p : PropertyId) (styles : List (Style V)) (c : Cursor d) :
    let first := styles.find? (decides p c.home)
    (queryStyles p styles c).value = first.bind (·.block.declarations.get? p) ∧
      (queryStyles p styles c).specificity = (first.map (·.specificity)).getD .zero ∧
      (queryStyles p styles c).cursor =
        (first.map fun x => (x.chain.walk (Cursor.atHome c.home)).cursor).getD (Cursor.atHome c.home) := by
  induction styles generalizing c with
  | nil => exact ⟨rfl, rfl, rfl⟩
  | cons x rest ih =>
    rw [queryStyles_cons]
    by_cases hx : decides p c.home x = true
    · rw [List.find?_cons_of_pos hx, if_pos hx]
      exact ⟨rfl, rfl, rfl⟩
    · have hrest := ih (x.chain.walk (Cursor.atHome c.home)).cursor
      rw [Chain.home_walk] at hrest
      rw [List.find?_cons_of_neg hx, if_neg hx]
      exact hrest

/-- The style decides, and no style that does has a higher rank. -/
structure Wins (styles : List (Style V)) (p : PropertyId) (i : d.Place) (x : Style V) : Prop where
  mem : x ∈ styles
  decides : decides p i x = true
  highest : ∀ y ∈ styles, Sheet.decides p i y = true → y.specificity ≤ x.specificity

theorem wins_of_find (hs : styles.Pairwise fun a b => b.specificity ≤ a.specificity)
    (h : styles.find? (decides p i) = some x) : Wins styles p i x := by
  obtain ⟨hx, before, after, hsplit, hbefore⟩ := List.find?_eq_some_iff_append.mp h
  refine ⟨List.mem_of_find?_eq_some h, hx, ?_⟩
  intro y hy hd
  rw [hsplit] at hy hs
  rcases List.mem_append.mp hy with hy | hy
  · have hno := hbefore y hy
    rw [hd] at hno
    cases hno
  · rcases List.mem_cons.mp hy with rfl | hy
    · exact UInt32.le_refl _
    · exact (List.pairwise_cons.mp (List.pairwise_append.mp hs).2.1).1 y hy

/-- A query is answered by a style that wins, or no style decides. -/
theorem query_cases {s : Sheet V} (hs : s.styles.Pairwise fun a b => b.specificity ≤ a.specificity)
    (c : Cursor d) (p : PropertyId) :
    (∃ x, Wins s.styles p c.home x ∧ (s.query p c).value = x.block.declarations.get? p ∧
        (s.query p c).specificity = x.specificity) ∨
      (∀ x ∈ s.styles, decides p c.home x = false) ∧ (s.query p c).value = none ∧
        (s.query p c).specificity = .zero := by
  obtain ⟨hvalue, hrank, -⟩ := queryStyles_eq p s.styles c
  unfold query
  rw [hvalue, hrank]
  cases hf : s.styles.find? (decides p c.home) with
  | none => exact Or.inr ⟨by simpa using hf, rfl, rfl⟩
  | some x => exact Or.inl ⟨x, wins_of_find hs hf, rfl, rfl⟩

end Sheet

end Cascade
