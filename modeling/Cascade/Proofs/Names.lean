/-
  Cascade.Proofs.Names — the numbers that a table gives to names.

  1. A table only grows, and a name keeps its number. So what is made of rules with a
     table that learns their names on the way is what is made of them with the table that
     comes of it (`made_learn`).
  2. A table that was empty holds each name once, in the order in which the names first
     came (`idxOf_learn`).
-/

import Cascade.NameTable
import Cascade.Proofs.Builder.Made

namespace Cascade

open Grammar

namespace NameTable

variable {t u : NameTable} {name : String} {ns : List String}

/-- The table after these names. -/
def learn (t : NameTable) (ns : List String) : NameTable := ns.foldl (fun t name => (t.number name).2) t

theorem learn_cons (t : NameTable) (name : String) (ns : List String) :
    t.learn (name :: ns) = (t.number name).2.learn ns := rfl

theorem learn_append (t : NameTable) (ms ns : List String) : t.learn (ms ++ ns) = (t.learn ms).learn ns :=
  List.foldl_append

/-! ## One name -/

theorem number_known (h : name ∈ t.names) : t.number name = (.ofNat (t.names.idxOf name), t) := by
  unfold number
  cases hi : t.names.idxOf? name with
  | none => exact absurd h (List.idxOf?_eq_none_iff.mp hi)
  | some i => simp [List.idxOf_eq_getD_idxOf?, hi]

theorem number_new (h : name ∉ t.names) : t.number name = (.ofNat t.names.length, ⟨t.names ++ [name]⟩) := by
  simp [number, List.idxOf?_eq_none_iff.mpr h]

/-- Where a name is after it has come decides its number, whether it was known or not. -/
theorem number_eq (t : NameTable) (name : String) :
    (t.number name).1 = .ofNat ((t.number name).2.names.idxOf name) := by
  by_cases h : name ∈ t.names
  · rw [number_known h]
  · rw [number_new h]
    simp [List.idxOf_append_of_notMem h]

theorem mem_number {other : String} : other ∈ (t.number name).2.names ↔ other ∈ t.names ∨ other = name := by
  by_cases h : name ∈ t.names
  · rw [number_known h]
    constructor
    · exact Or.inl
    · rintro (h' | rfl)
      · exact h'
      · exact h
  · rw [number_new h]
    simp

theorem prefix_number (t : NameTable) (name : String) : t.names <+: (t.number name).2.names := by
  by_cases h : name ∈ t.names
  · simp only [number_known h, List.prefix_refl]
  · rw [number_new h]
    exact List.prefix_append _ _

theorem nodup_number (h : t.names.Nodup) : (t.number name).2.names.Nodup := by
  by_cases hn : name ∈ t.names
  · rw [number_known hn]
    exact h
  · rw [number_new hn]
    have hother : ∀ n ∈ t.names, n ≠ name := fun n hmem e => hn (e ▸ hmem)
    simpa [List.nodup_append, h] using hother

/-- A table that has grown gives the name the number that it was given. -/
theorem number_grown (h : (t.number name).2.names <+: u.names) : u.number name = ((t.number name).1, u) := by
  have hmem : name ∈ (t.number name).2.names := mem_number.mpr (Or.inr rfl)
  obtain ⟨rest, hrest⟩ := h
  rw [number_eq, number_known (hrest ▸ List.mem_append_left rest hmem), ← hrest, List.idxOf_append_of_mem hmem]

/-! ## Several names -/

theorem prefix_learn (t : NameTable) (ns : List String) : t.names <+: (t.learn ns).names := by
  induction ns generalizing t with
  | nil => exact List.prefix_refl _
  | cons name ns ih => exact (prefix_number t name).trans (ih _)

theorem mem_learn : name ∈ (t.learn ns).names ↔ name ∈ t.names ∨ name ∈ ns := by
  induction ns generalizing t with
  | nil => simp [learn]
  | cons n ns ih => rw [learn_cons, ih, mem_number, List.mem_cons, or_assoc]

theorem nodup_learn (h : t.names.Nodup) : (t.learn ns).names.Nodup := by
  induction ns generalizing t with
  | nil => exact h
  | cons n ns ih => exact ih (nodup_number h)

theorem idxOf_snoc {l : List String} {x n : String} (hn : n ∈ l ++ [x]) :
    (l ++ [x]).idxOf n = if n ∈ l then l.idxOf n else l.length := by
  split
  · rename_i h
    exact List.idxOf_append_of_mem h
  · rename_i h
    rw [List.idxOf_append_of_notMem h, List.mem_singleton.mp ((List.mem_append.mp hn).resolve_left h)]
    simp

theorem learn_known (h : ∀ n ∈ ns, n ∈ t.names) : t.learn ns = t := by
  induction ns with
  | nil => rfl
  | cons n ns ih =>
    rw [learn_cons, number_known (h n List.mem_cons_self)]
    exact ih fun m hm => h m (List.mem_cons_of_mem _ hm)

/-- A table that was empty has its names in the order in which they first came. -/
theorem idxOf_learn (ns : List String) {a b : String} (ha : a ∈ ns) (hb : b ∈ ns) :
    (({} : NameTable).learn ns).names.idxOf a < (({} : NameTable).learn ns).names.idxOf b ↔
      ns.idxOf a < ns.idxOf b := by
  induction ns using List.reverseRecOn with
  | nil => cases ha
  | append_singleton ns x ih =>
    have hmem {n : String} : n ∈ (({} : NameTable).learn ns).names ↔ n ∈ ns := by simp [mem_learn]
    have hstep : ({} : NameTable).learn (ns ++ [x]) = ((({} : NameTable).learn ns).number x).2 := learn_append _ _ _
    rw [hstep]
    by_cases hx : x ∈ ns
    · have hold {n : String} (h : n ∈ ns ++ [x]) : n ∈ ns := by
        rcases List.mem_append.mp h with h | h
        · exact h
        · exact List.mem_singleton.mp h ▸ hx
      rw [number_known (hmem.mpr hx), List.idxOf_append_of_mem (hold ha), List.idxOf_append_of_mem (hold hb)]
      exact ih (hold ha) (hold hb)
    -- a new name comes last, in the table as in the list
    · have hnew : x ∉ (({} : NameTable).learn ns).names := fun h => hx (hmem.mp h)
      have hplace {n : String} (h : n ∈ ns ++ [x]) : n ∈ (({} : NameTable).learn ns).names ++ [x] := by
        simpa [hmem] using h
      have hlt {l : List String} {n : String} (h : n ∈ l) : l.idxOf n < l.length := List.idxOf_lt_length_of_mem h
      rw [number_new hnew]
      simp only [idxOf_snoc (hplace ha), idxOf_snoc (hplace hb), idxOf_snoc ha, idxOf_snoc hb, hmem]
      by_cases ha' : a ∈ ns
      · by_cases hb' : b ∈ ns
        · simpa only [if_pos ha', if_pos hb'] using ih ha' hb'
        · simp only [if_pos ha', if_neg hb', hlt ha', hlt (hmem.mpr ha')]
      · by_cases hb' : b ∈ ns
        · simp only [if_neg ha', if_pos hb', Nat.lt_asymm (hlt hb'), Nat.lt_asymm (hlt (hmem.mpr hb'))]
        · simp only [if_neg ha', if_neg hb', Nat.lt_irrefl]

/-! ## What is made with a table -/

theorem declare_eq (t : NameTable) (ds : Declarations String) (name text : String) :
    declare host t ds name text = ((t.number name).2, ds.insert (t.number name).1 text) := rfl

theorem declareAll_learn {l : List (String × String)} (h : (t.learn (l.map Prod.fst)).names <+: u.names)
    (ds : Declarations String) :
    declareAll host t ds l = (t.learn (l.map Prod.fst), (declareAll host u ds l).2) ∧ (declareAll host u ds l).1 = u := by
  induction l generalizing t ds with
  | nil => exact ⟨rfl, rfl⟩
  | cons d l ih =>
    have hd : (t.number d.1).2.names <+: u.names := (prefix_learn _ _).trans h
    rw [declareAll_cons, declareAll_cons, declare_eq, declare_eq, number_grown hd]
    exact ih h (ds.insert (t.number d.1).1 d.2)

/-- A table that knows the names stays as it is. -/
theorem declareAll_known {l : List (String × String)} (h : ∀ n ∈ l.map Prod.fst, n ∈ t.names)
    (ds : Declarations String) : (declareAll host t ds l).1 = t := by
  have hgrown : (t.learn (l.map Prod.fst)).names <+: t.names := by simp only [learn_known h, List.prefix_refl]
  exact (declareAll_learn hgrown ds).2

/-- Rules give the same styles with a table that learns their names on the way and with one that knows them. -/
theorem made_learn {rs : List Rule} (h : (t.learn (rs.flatMap Rule.names)).names <+: u.names) (supply : Supply) :
    (made host t supply rs).styles = (made host u supply rs).styles ∧
      (made host t supply rs).memory = t.learn (rs.flatMap Rule.names) := by
  induction rs generalizing t supply with
  | nil => exact ⟨rfl, rfl⟩
  | cons r rs ih =>
    rw [List.flatMap_cons, learn_append] at h
    have hr : (t.learn r.names).names <+: u.names := (prefix_learn _ _).trans h
    obtain ⟨hdeclared, hknown⟩ := declareAll_learn hr .empty
    have hrule : madeRule host t supply r = ⟨(madeRule host u supply r).styles, t.learn r.names,
        (madeRule host u supply r).supply⟩ := by
      simp only [madeRule, hdeclared]
      rfl
    obtain ⟨hstyles, hmemory⟩ := ih h (madeRule host u supply r).supply
    have hu : (madeRule host u supply r).memory = u := hknown
    rw [made, made, hrule, hu, List.flatMap_cons, learn_append]
    exact ⟨by simp [hstyles], hmemory⟩

end NameTable

end Cascade
