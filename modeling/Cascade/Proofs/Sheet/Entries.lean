/-
  Cascade.Proofs.Sheet.Entries — the text of a sheet that was read, out of the rules that
  were read. Every rule is an entry of its own: its chains as they came, and of its
  declarations what the host made of them (`tidy`). The order of the styles in the sheet
  plays no part; the entries of the sheet are those of the rules, sorted (`entries_made`).
-/

import Cascade.Proofs.Sheet.RoundTrip

namespace Cascade.Sheet

open Grammar

variable {σ V : Type} {host : Host σ V} {memory : σ} {r : Rendering V} {supply : Supply} {indent : String}
  {rs : List Rule}

/-! ## Rule by rule -/

/-- The styles of rules, rule by rule. -/
def groupsOf (host : Host σ V) (memory : σ) (supply : Supply) : List Rule → List (List (Style V))
  | [] => []
  | rule :: rest =>
    let first := madeRule host memory supply rule
    first.styles :: groupsOf host first.memory first.supply rest

theorem flatten_groupsOf (host : Host σ V) (memory : σ) (supply : Supply) (rs : List Rule) :
    (groupsOf host memory supply rs).flatten = (made host memory supply rs).styles := by
  induction rs generalizing memory supply with
  | nil => rfl
  | cons rule rs ih => rw [groupsOf, List.flatten_cons, ih, made]

theorem madeRule_ne_nil {rule : Rule} (h : rule.chains ≠ []) : (madeRule host memory supply rule).styles ≠ [] := by
  simpa [madeRule, Supply.newBlock, Supply.newStyles] using h

theorem serials_madeRule (rule : Rule) :
    (madeRule host memory supply rule).styles.Pairwise fun x y => x.serial < y.serial :=
  List.pairwise_map.mpr (serials_zipIdx _ supply.serial)

/-- A rule is made on a block of its own, one rule after the other. -/
theorem rising_groupsOf (h : ∀ rule ∈ rs, rule.chains ≠ []) : Rising (groupsOf host memory supply rs) := by
  induction rs generalizing memory supply with
  | nil => exact ⟨by simp [groupsOf], by simp [groupsOf], .nil, by simp [groupsOf]⟩
  | cons rule rs ih =>
    have hrest : Rising (groupsOf host (madeRule host memory supply rule).memory
        (madeRule host memory supply rule).supply rs) := ih fun k hk => h k (List.mem_cons_of_mem _ hk)
    have hfirst : ∀ x ∈ (madeRule host memory supply rule).styles, x.block.number = supply.block := by
      intro x hx
      rw [(mem_madeRule hx).1]
    refine ⟨?_, ?_, ?_, ?_⟩
    · intro hn
      rcases List.mem_cons.mp hn with hn | hn
      · exact madeRule_ne_nil (h rule List.mem_cons_self) hn.symm
      · exact hrest.nonempty hn
    · intro g hg x hx y hy
      rcases List.mem_cons.mp hg with rfl | hg
      · rw [hfirst x hx, hfirst y hy]
      · exact hrest.block g hg x hx y hy
    · refine List.pairwise_cons.mpr ⟨?_, hrest.numbers⟩
      intro g hg x hx y hy
      have hy' := List.mem_flatten.mpr ⟨g, hg, hy⟩
      rw [flatten_groupsOf] at hy'
      have hle : supply.block + 1 ≤ y.block.number := (mem_made hy').1
      have hx' := hfirst x hx
      omega
    · intro g hg
      rcases List.mem_cons.mp hg with rfl | hg
      · exact serials_madeRule rule
      · exact hrest.serials g hg

/-- The blocks of a sheet that was made of rules are the rules', whatever the order of its styles. -/
theorem byBlock_made {styles : List (Style V)} (h : ∀ rule ∈ rs, rule.chains ≠ [])
    (hp : styles.Perm (made host memory supply rs).styles) : byBlock styles = groupsOf host memory supply rs := by
  apply byBlock_eq (rising_groupsOf h)
  rw [flatten_groupsOf]
  exact hp

/-! ## Entries -/

/-- The entry that says what a rule says. -/
def Entry.ofRule (indent : String) (rule : Rule) : Entry where
  selectors := ", ".intercalate (rule.chains.map fun c => c.chain.text)
  declarations := String.join (rule.declarations.map (line indent))

/-- A rule with what is written of its declarations. -/
def tidy (host : Host σ V) (memory : σ) (r : Rendering V) (rule : Rule) : Rule :=
  { rule with declarations := written r (declareAll host memory .empty rule.declarations).2 }

theorem entry_ruleOf {g : List (Style V)} (h : Legible r g) :
    Entry.ofRule indent (ruleOf r g) = Entry.ofStyles indent r g := by
  have hchains : (ruleOf r g).chains.map (fun c => c.chain.text) = g.map (·.chain.text) := by
    rw [ruleOf, List.map_map]
    apply List.map_congr_left
    intro x hx
    simp [chain_trailOf (h.chains x hx)]
  unfold Entry.ofRule
  rw [hchains, ← declarations_ofStyles indent r h.nonempty]
  rfl

theorem entry_madeRule {rule : Rule} (h : rule.chains ≠ []) :
    Entry.ofStyles indent r (madeRule host memory supply rule).styles =
      Entry.ofRule indent (tidy host memory r rule) := by
  obtain ⟨c, cs, hc⟩ := List.exists_cons_of_ne_nil h
  have hselectors : (madeRule host memory supply rule).styles.map (·.chain.text) =
      rule.chains.map fun c => c.chain.text := by
    have hfst : (((rule.chains.map Trail.chain).zipIdx supply.serial).map Prod.fst).map Chain.text =
        rule.chains.map fun c => c.chain.text := by
      rw [List.zipIdx_map_fst, List.map_map]
      rfl
    rw [← hfst, List.map_map]
    exact List.map_map
  unfold Entry.ofStyles Entry.ofRule
  rw [hselectors, tidy, ← declarationsText_eq]
  simp [madeRule, Supply.newBlock, Supply.newStyles, Style.of, hc, List.zipIdx_cons]

/-- Where the host learns nothing from the declarations, every rule is an entry. -/
theorem entries_groupsOf (hc : ∀ rule ∈ rs, rule.chains ≠ [])
    (hm : ∀ rule ∈ rs, (declareAll host memory .empty rule.declarations).1 = memory) :
    (groupsOf host memory supply rs).map (Entry.ofStyles indent r) =
      rs.map fun rule => Entry.ofRule indent (tidy host memory r rule) := by
  induction rs generalizing supply with
  | nil => rfl
  | cons rule rs ih =>
    have hmemory : (madeRule host memory supply rule).memory = memory := hm rule List.mem_cons_self
    rw [groupsOf, List.map_cons, List.map_cons, entry_madeRule (hc rule List.mem_cons_self), hmemory]
    exact congrArg _ (ih (fun k hk => hc k (List.mem_cons_of_mem _ hk)) fun k hk => hm k (List.mem_cons_of_mem _ hk))

theorem entries_made (hc : ∀ rule ∈ rs, rule.chains ≠ [])
    (hm : ∀ rule ∈ rs, (declareAll host memory .empty rule.declarations).1 = memory) :
    (ofStyles (made host memory supply rs).styles).entries indent r =
      (rs.map fun rule => Entry.ofRule indent (tidy host memory r rule)).mergeSort Entry.before := by
  unfold entries
  rw [byBlock_made hc (perm_ofStyles _), entries_groupsOf hc hm]

end Cascade.Sheet
