/-
  Cascade.Proofs.Sheet.Appended — what a query finds after one sheet was appended to
  another. The styles of both are then ranked as one list, those of the receiver first
  among equals. So the answer is one of the two that the sheets gave alone: that of the
  appended sheet where it has one and the receiver has none or a lower one, and else that
  of the receiver (`query_append`).

  The style that answers is the one that prevails, and only one does (`prevails_unique`).
  A style that prevails in one of two lists prevails in both together unless the other
  list has one to set against it: for a style of the first list one that ranks higher
  (`prevails_append_left`), for a style of the second one that ranks as high
  (`prevails_append_right`).
-/

import Cascade.NameTable
import Cascade.Proofs.Sheet.Earliest

namespace Cascade.Sheet

variable {V : Type} {d : Document} {p : PropertyId} {i : d.Place} {styles xs ys : List (Style V)} {x y : Style V}

/-! ## The style that prevails -/

/-- Of two styles that decide, one that ranks above all before it and one that ranks as high as all after it, the
    second does not stand before the first. -/
theorem eq_of_gap {gap after after' : List (Style V)} (h : x :: after = gap ++ y :: after')
    (hx : decides p i x = true) (hy : decides p i y = true)
    (hgap : ∀ z ∈ gap, decides p i z = true → z.specificity < y.specificity)
    (hafter : ∀ z ∈ after, decides p i z = true → z.specificity ≤ x.specificity) : x = y := by
  cases gap with
  | nil => exact (List.cons.inj h).1
  | cons z gap =>
    obtain ⟨rfl, rfl⟩ := List.cons.inj h
    exact absurd (hgap x (by simp) hx) (UInt32.not_lt.mpr (hafter y (by simp) hy))

/-- Of two styles that prevail neither was added before the other. -/
theorem prevails_unique (hx : Prevails styles p i x) (hy : Prevails styles p i y) : x = y := by
  obtain ⟨hdx, beforeX, afterX, hsplit, hbeforeX, hafterX⟩ := hx
  obtain ⟨hdy, beforeY, afterY, hsplit', hbeforeY, hafterY⟩ := hy
  rw [hsplit] at hsplit'
  rcases List.append_eq_append_iff.mp hsplit' with ⟨gap, rfl, hgap⟩ | ⟨gap, rfl, hgap⟩
  · exact eq_of_gap hgap hdx hdy (fun z hz => hbeforeY z (List.mem_append_right _ hz)) hafterX
  · exact (eq_of_gap hgap hdy hdx (fun z hz => hbeforeX z (List.mem_append_right _ hz)) hafterY).symm

/-- The style that prevails is the first of the sorted styles that decides. -/
theorem find_eq_some_iff : (ofStyles styles).styles.find? (decides p i) = some x ↔ Prevails styles p i x := by
  refine ⟨prevails_of_find, fun h => ?_⟩
  obtain ⟨hx, before, after, rfl, -, -⟩ := id h
  cases hf : (ofStyles (before ++ x :: after)).styles.find? (decides p i) with
  | none =>
    have hmem : x ∈ (ofStyles (before ++ x :: after)).styles := (perm_ofStyles _).mem_iff.mpr (by simp)
    exact absurd hx (List.find?_eq_none.mp hf x hmem)
  | some y => rw [prevails_unique (prevails_of_find hf) h]

theorem find_eq_none_iff :
    (ofStyles styles).styles.find? (decides p i) = none ↔ ∀ x ∈ styles, ¬ decides p i x = true := by
  rw [List.find?_eq_none]
  exact forall_congr' fun x => by rw [(perm_ofStyles styles).mem_iff]

/-- Where none of the others ranks higher, the earlier style goes on to prevail. -/
theorem prevails_append_left (h : Prevails xs p i x)
    (hys : ∀ y ∈ ys, decides p i y = true → y.specificity ≤ x.specificity) : Prevails (xs ++ ys) p i x := by
  obtain ⟨hx, before, after, rfl, hbefore, hafter⟩ := h
  refine ⟨hx, before, after ++ ys, by simp, hbefore, fun y hy hd => ?_⟩
  rcases List.mem_append.mp hy with hy | hy
  · exact hafter y hy hd
  · exact hys y hy hd

/-- Where none of the others ranks as high, the later style goes on to prevail. -/
theorem prevails_append_right (h : Prevails ys p i y)
    (hxs : ∀ x ∈ xs, decides p i x = true → x.specificity < y.specificity) : Prevails (xs ++ ys) p i y := by
  obtain ⟨hy, before, after, rfl, hbefore, hafter⟩ := h
  refine ⟨hy, xs ++ before, after, by simp, fun x hx hd => ?_, hafter⟩
  rcases List.mem_append.mp hx with hx | hx
  · exact hxs x hx hd
  · exact hbefore x hx hd

/-- No style that decides ranks higher than the one that prevails. -/
theorem rank_le_of_prevails (h : Prevails styles p i x) :
    ∀ y ∈ styles, decides p i y = true → y.specificity ≤ x.specificity := by
  obtain ⟨-, before, after, rfl, hbefore, hafter⟩ := h
  intro y hy hd
  rcases List.mem_append.mp hy with hy | hy
  · exact UInt32.le_of_lt (hbefore y hy hd)
  · rcases List.mem_cons.mp hy with rfl | hy
    · exact UInt32.le_refl _
    · exact hafter y hy hd

/-! ## Two sheets -/

/-- Of the styles that prevail in two lists the one that prevails in both together. -/
def prevailing : Option (Style V) → Option (Style V) → Option (Style V)
  | none, second => second
  | some x, none => some x
  | some x, some y => if x.specificity < y.specificity then some y else some x

theorem find_append (xs ys : List (Style V)) (p : PropertyId) (i : d.Place) :
    (ofStyles (xs ++ ys)).styles.find? (decides p i) =
      prevailing ((ofStyles xs).styles.find? (decides p i)) ((ofStyles ys).styles.find? (decides p i)) := by
  cases hx : (ofStyles xs).styles.find? (decides p i) with
  | none =>
    have hxs := find_eq_none_iff.mp hx
    cases hy : (ofStyles ys).styles.find? (decides p i) with
    | none =>
      have hys := find_eq_none_iff.mp hy
      exact find_eq_none_iff.mpr fun z hz => (List.mem_append.mp hz).elim (hxs z) (hys z)
    | some y =>
      exact find_eq_some_iff.mpr (prevails_append_right (find_eq_some_iff.mp hy) fun x hx hd => absurd hd (hxs x hx))
  | some x =>
    have hpx := find_eq_some_iff.mp hx
    cases hy : (ofStyles ys).styles.find? (decides p i) with
    | none =>
      have hys := find_eq_none_iff.mp hy
      exact find_eq_some_iff.mpr (prevails_append_left hpx fun y hy hd => absurd hd (hys y hy))
    | some y =>
      have hpy := find_eq_some_iff.mp hy
      rw [prevailing]
      split
      · rename_i hlt
        refine find_eq_some_iff.mpr (prevails_append_right hpy fun z hz hd => ?_)
        exact UInt32.lt_of_le_of_lt (rank_le_of_prevails hpx z hz hd) hlt
      · rename_i hlt
        refine find_eq_some_iff.mpr (prevails_append_left hpx fun z hz hd => ?_)
        exact UInt32.le_trans (rank_le_of_prevails hpy z hz hd) (UInt32.not_lt.mp hlt)

/-! ## Queries -/

/-- Sheets in which the same style is the first that decides give the same answer. -/
theorem query_congr {s t : Sheet V} {c : Cursor d}
    (h : s.styles.find? (decides p c.home) = t.styles.find? (decides p c.home)) :
    (s.query p c).value = (t.query p c).value ∧ (s.query p c).specificity = (t.query p c).specificity ∧
      (s.query p c).cursor = (t.query p c).cursor := by
  obtain ⟨hvalue, hrank, hcursor⟩ := queryStyles_eq p s.styles c
  obtain ⟨hvalue', hrank', hcursor'⟩ := queryStyles_eq p t.styles c
  rw [h] at hvalue hrank hcursor
  exact ⟨hvalue.trans hvalue'.symm, hrank.trans hrank'.symm, hcursor.trans hcursor'.symm⟩

theorem query_of_find_eq_none {s : Sheet V} {c : Cursor d} (h : s.styles.find? (decides p c.home) = none) :
    (s.query p c).value = none := by
  have hvalue := (queryStyles_eq p s.styles c).1
  rwa [h] at hvalue

theorem query_of_find_eq_some {s : Sheet V} {c : Cursor d} (h : s.styles.find? (decides p c.home) = some x) :
    (s.query p c).value.isSome = true ∧ (s.query p c).specificity = x.specificity := by
  obtain ⟨hvalue, hrank, -⟩ := queryStyles_eq p s.styles c
  rw [h] at hvalue hrank
  refine ⟨?_, hrank⟩
  have hx : decides p c.home x = true := List.find?_some h
  have hdeclared : (x.block.declarations.get? p).isSome = true := (Bool.and_eq_true_iff.mp hx).2
  exact (congrArg Option.isSome hvalue).trans hdeclared

/-- Which of two styles prevails can be told from the answers that they give. -/
theorem prevailing_eq (s t : Sheet V) (p : PropertyId) (c : Cursor d) :
    prevailing (s.styles.find? (decides p c.home)) (t.styles.find? (decides p c.home)) =
      if (t.query p c).value.isSome ∧ ((s.query p c).value.isNone ∨ (s.query p c).specificity < (t.query p c).specificity)
        then t.styles.find? (decides p c.home) else s.styles.find? (decides p c.home) := by
  cases ht : t.styles.find? (decides p c.home) with
  | none =>
    rw [query_of_find_eq_none ht]
    cases s.styles.find? (decides p c.home) <;> simp [prevailing]
  | some y =>
    obtain ⟨hsome, hrank⟩ := query_of_find_eq_some ht
    rw [hsome, hrank]
    cases hs : s.styles.find? (decides p c.home) with
    | none => simp [query_of_find_eq_none hs, prevailing]
    | some x =>
      obtain ⟨hsome', hrank'⟩ := query_of_find_eq_some hs
      obtain ⟨v, hv⟩ := Option.isSome_iff_exists.mp hsome'
      simp [hv, hrank', prevailing]

/-- After any history, a sheet to which another was appended answers as the other did where that one found a value
    and the first found none or one of a lower rank; otherwise it answers as it did before. -/
theorem query_append (actions : List (Action V)) (k l : Nat) (p : PropertyId) (c : Cursor d) :
    let s := (Store.after actions).sheet k
    let t := (Store.after actions).sheet l
    let first := s.query p c
    let second := t.query p c
    let whole := (s.append t).1.query p c
    let answer := if second.value.isSome ∧ (first.value.isNone ∨ first.specificity < second.specificity) then second
      else first
    whole.value = answer.value ∧ whole.specificity = answer.specificity ∧ whole.cursor = answer.cursor := by
  intro s t first second whole answer
  have hs : s = ofStyles (Store.added actions k) := sheet_after actions k
  have ht : t = ofStyles (Store.added actions l) := sheet_after actions l
  have hwhole : (s.append t).1 = ofStyles (Store.added actions k ++ Store.added actions l) := by
    rw [hs, ht]
    exact ofStyles_append _ _
  have hfind : (s.append t).1.styles.find? (decides p c.home) =
      prevailing (s.styles.find? (decides p c.home)) (t.styles.find? (decides p c.home)) := by
    rw [hwhole, find_append, ← hs, ← ht]
  rw [prevailing_eq] at hfind
  by_cases hsecond : second.value.isSome ∧ (first.value.isNone ∨ first.specificity < second.specificity)
  · rw [if_pos hsecond] at hfind
    rw [show answer = second from if_pos hsecond]
    exact query_congr hfind
  · rw [if_neg hsecond] at hfind
    rw [show answer = first from if_neg hsecond]
    exact query_congr hfind

/-- `a.x`, alone. -/
def classed : Document := { nodes := #[{ tag := "a", classes := ["x"] }], parents_first := by decide }

/-- The value that `a.x` has for the property and its rank: in the sheet of each text, and in the first sheet when
    the second has been appended. -/
def answers (first second : String) : List (Option String × String) :=
  let store : Store String := .after [.parse 0 NameTable.host {} first, .parse 1 NameTable.host {} second]
  [store.sheet 0, store.sheet 1, ((store.sheet 0).append (store.sheet 1)).1].map fun s =>
    let answer := s.query 0 (Cursor.atHome (d := classed) (0 : Fin 1))
    (answer.value, answer.specificity.text)

-- the second ranks higher
example : answers "a\x7bfill:1\x7d" ".x\x7bfill:2\x7d" =
    [(some "1", "(0,0,1)"), (some "2", "(0,1,0)"), (some "2", "(0,1,0)")] := by
  cbv

-- of equal ranks the first stays
example : answers "a\x7bfill:1\x7d" "a\x7bfill:2\x7d" =
    [(some "1", "(0,0,1)"), (some "2", "(0,0,1)"), (some "1", "(0,0,1)")] := by
  cbv

-- the second has a value, of rank zero, where the first has none
example : answers "b\x7bfill:1\x7d" "*\x7bfill:2\x7d" =
    [(none, "(0,0,0)"), (some "2", "(0,0,0)"), (some "2", "(0,0,0)")] := by
  cbv

end Cascade.Sheet
