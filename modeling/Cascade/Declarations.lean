/-
  Cascade.Declarations — the properties that one block declares: at most one value per
  property, in the order of the properties' numbers. A later declaration of a property
  replaces the earlier one (`get?_insert`).
-/

namespace Cascade

/-- A property by the number that the embedder gave it. -/
abbrev PropertyId := UInt32

structure Declarations (V : Type) where
  entries : List (PropertyId × V) := []
  sorted : entries.Pairwise (·.1 < ·.1) := by exact .nil
  deriving DecidableEq, Repr

namespace Declarations

variable {V : Type}

def insertEntry (p : PropertyId) (v : V) : List (PropertyId × V) → List (PropertyId × V)
  | [] => [(p, v)]
  | e :: rest =>
    if p < e.1 then (p, v) :: e :: rest
    else if e.1 < p then e :: insertEntry p v rest
    else (p, v) :: rest

theorem mem_insertEntry {p : PropertyId} {v : V} {es : List (PropertyId × V)} {e : PropertyId × V}
    (h : e ∈ insertEntry p v es) : e = (p, v) ∨ e ∈ es := by
  induction es with
  | nil => simpa [insertEntry] using h
  | cons f rest ih =>
    unfold insertEntry at h
    split at h
    · simpa using h
    · split at h
      · rcases List.mem_cons.mp h with h | h
        · exact Or.inr (h ▸ List.mem_cons_self)
        · rcases ih h with h | h
          · exact Or.inl h
          · exact Or.inr (List.mem_cons_of_mem _ h)
      · rcases List.mem_cons.mp h with h | h
        · exact Or.inl h
        · exact Or.inr (List.mem_cons_of_mem _ h)

theorem sorted_insertEntry (p : PropertyId) (v : V) {es : List (PropertyId × V)}
    (h : es.Pairwise (·.1 < ·.1)) : (insertEntry p v es).Pairwise (·.1 < ·.1) := by
  induction es with
  | nil => exact List.pairwise_singleton _ _
  | cons e rest ih =>
    obtain ⟨he, hr⟩ := List.pairwise_cons.mp h
    unfold insertEntry
    split
    · rename_i hp
      refine List.pairwise_cons.mpr ⟨fun f hf => ?_, h⟩
      rcases List.mem_cons.mp hf with rfl | hf
      · exact hp
      · exact UInt32.lt_trans hp (he f hf)
    · rename_i hp
      split
      · rename_i hp'
        refine List.pairwise_cons.mpr ⟨fun f hf => ?_, ih hr⟩
        rcases mem_insertEntry hf with rfl | hf
        · exact hp'
        · exact he f hf
      · rename_i hp'
        have : p = e.1 := UInt32.le_antisymm (UInt32.not_lt.mp hp') (UInt32.not_lt.mp hp)
        exact List.pairwise_cons.mpr ⟨fun f hf => this ▸ he f hf, hr⟩

def empty : Declarations V := {}

def insert (d : Declarations V) (p : PropertyId) (v : V) : Declarations V :=
  ⟨insertEntry p v d.entries, sorted_insertEntry p v d.sorted⟩

def get? (d : Declarations V) (p : PropertyId) : Option V := d.entries.lookup p

def size (d : Declarations V) : Nat := d.entries.length

/-- The declarations made in this order. -/
def ofList (es : List (PropertyId × V)) : Declarations V := 
  es.foldl (fun (d : Declarations V) e => d.insert e.1 e.2) empty

@[simp] theorem get?_empty (p : PropertyId) : (empty : Declarations V).get? p = none := rfl

theorem lookup_entry (q : PropertyId) (e : PropertyId × V) (es : List (PropertyId × V)) :
    (e :: es).lookup q = if q = e.1 then some e.2 else es.lookup q := by
  obtain ⟨p, v⟩ := e
  by_cases h : q = p <;> simp [List.lookup_cons, h, beq_false_of_ne]

theorem lookup_insertEntry (p q : PropertyId) (v : V) (es : List (PropertyId × V)) :
    (insertEntry p v es).lookup q = if q = p then some v else es.lookup q := by
  induction es with
  | nil => exact lookup_entry q (p, v) []
  | cons e rest ih =>
    unfold insertEntry
    split
    · exact lookup_entry q (p, v) (e :: rest)
    · rename_i hp
      split
      · rename_i hp'
        rw [lookup_entry, lookup_entry, ih]
        split
        · rename_i hq
          exact (if_neg fun h => UInt32.lt_irrefl p (by rwa [← hq, h] at hp')).symm
        · rfl
      · rename_i hp'
        have : p = e.1 := UInt32.le_antisymm (UInt32.not_lt.mp hp') (UInt32.not_lt.mp hp)
        rw [lookup_entry, lookup_entry, ← this]
        split <;> rfl

theorem get?_insert (d : Declarations V) (p q : PropertyId) (v : V) :
    (d.insert p v).get? q = if q = p then some v else d.get? q :=
  lookup_insertEntry p q v d.entries

theorem mem_entries_iff_lookup {es : List (PropertyId × V)} (h : es.Pairwise (·.1 < ·.1)) {p : PropertyId} {v : V} :
    (p, v) ∈ es ↔ es.lookup p = some v := by
  induction es with
  | nil => simp
  | cons e rest ih =>
    obtain ⟨he, hr⟩ := List.pairwise_cons.mp h
    obtain ⟨q, w⟩ := e
    rw [List.mem_cons, lookup_entry, ih hr]
    by_cases hp : p = q
    · subst hp
      -- the rest holds larger numbers only
      have hrest : rest.lookup p ≠ some v := by
        intro hv
        exact UInt32.lt_irrefl p (he (p, v) ((ih hr).mpr hv))
      simp [hrest, eq_comm]
    · simp [hp]

/-- What is declared is what can be looked up. -/
theorem mem_entries_iff {d : Declarations V} {p : PropertyId} {v : V} : (p, v) ∈ d.entries ↔ d.get? p = some v :=
  mem_entries_iff_lookup d.sorted

end Declarations

end Cascade
