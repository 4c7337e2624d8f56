/-
  Cascade.Proofs.Sheet.Gathered — one pass over the styles of a sheet finds its blocks.

  Whatever styles have been passed, a group holds all of them that are on one block, as
  they stand in the sheet, and the index says where the group of a block is (`Agrees`).
  So after the pass the groups are those of `byBlock`, though in another order
  (`perm_groups`), and that order is lost when the entries are sorted: two entries that
  are level are the same entry. The text of the pass is the text of the sheet
  (`gatheredText_eq`), for every sheet.
-/

import Cascade.Proofs.Sheet.Text
import Cascade.Sheet.Gather

namespace Cascade

variable {V : Type} {styles : List (Style V)}

/-- The styles of the block with this number, as they stand. -/
def onBlock (n : Nat) (styles : List (Style V)) : List (Style V) := styles.filter (·.block.number = n)

@[simp] theorem mem_onBlock {n : Nat} {x : Style V} : x ∈ onBlock n styles ↔ x ∈ styles ∧ x.block.number = n := by
  simp [onBlock]

theorem onBlock_same (x : Style V) : onBlock x.block.number (styles ++ [x]) = onBlock x.block.number styles ++ [x] := by
  simp [onBlock]

theorem onBlock_other {n : Nat} {x : Style V} (h : x.block.number ≠ n) :
    onBlock n (styles ++ [x]) = onBlock n styles := by
  simp [onBlock, h]

/-! ## The pass -/

namespace Gathering

/-- The groups of these styles, and the index to them. -/
structure Agrees (g : Gathering V) (styles : List (Style V)) : Prop where
  indexed : ∀ n i, g.index[n]? = some i → g.groups[i]? = some (onBlock n styles)
  missing : ∀ n, g.index[n]? = none → onBlock n styles = []
  nonempty : [] ∉ g.groups
  grouped : ∀ i group, g.groups[i]? = some group → ∀ x : Style V, x ∈ group → g.index[x.block.number]? = some i

variable {g : Gathering V} {x : Style V} {i : Nat}

/-- A style joins the group of its block. -/
theorem agrees_join (h : g.Agrees styles) (hi : g.index[x.block.number]? = some i) :
    Agrees { g with groups := g.groups.modify i (· ++ [x]) } (styles ++ [x]) where
  indexed := by
    intro n j hj
    have hold := h.indexed n j hj
    rw [List.getElem?_modify, hold]
    by_cases hn : x.block.number = n
    · subst hn
      obtain rfl : i = j := Option.some.inj (hi.symm.trans hj)
      simp [onBlock_same]
    · have hij : i ≠ j := by
        rintro rfl
        -- one place would be that of two blocks
        have hgroup := Option.some.inj ((h.indexed _ _ hi).symm.trans hold)
        obtain ⟨y, hy⟩ := List.exists_mem_of_ne_nil _ (ne_of_mem_of_not_mem (List.mem_of_getElem? hold) h.nonempty)
        exact hn ((mem_onBlock.mp (hgroup ▸ hy)).2.symm.trans (mem_onBlock.mp hy).2)
      simp [hij, onBlock_other hn]
  missing := by
    intro n hn
    have hne : x.block.number ≠ n := by
      rintro rfl
      simp [hi] at hn
    rw [onBlock_other hne]
    exact h.missing n hn
  nonempty := by
    intro hmem
    obtain ⟨j, hj⟩ := List.mem_iff_getElem?.mp hmem
    rw [List.getElem?_modify] at hj
    obtain ⟨group, hgroup, hnil⟩ := Option.map_eq_some_iff.mp hj
    split at hnil
    · simp at hnil
    · exact h.nonempty (hnil ▸ List.mem_of_getElem? hgroup)
  grouped := by
    intro j group' hj y hy
    rw [List.getElem?_modify] at hj
    obtain ⟨group, hgroup, rfl⟩ := Option.map_eq_some_iff.mp hj
    have hold := h.grouped j group hgroup
    split at hy
    · rename_i hij
      rcases List.mem_append.mp hy with hy | hy
      · exact hold y hy
      · rw [List.mem_singleton.mp hy, ← hij]
        exact hi
    · exact hold y hy

/-- A style of a block that has not come before starts a group. -/
theorem agrees_start (h : g.Agrees styles) (hi : g.index[x.block.number]? = none) :
    Agrees ⟨g.index.insert x.block.number g.groups.length, g.groups ++ [[x]]⟩ (styles ++ [x]) where
  indexed := by
    intro n j hj
    rw [Std.HashMap.getElem?_insert] at hj
    by_cases hn : x.block.number = n
    · subst hn
      obtain rfl : g.groups.length = j := by simpa using hj
      simp [onBlock_same, h.missing _ hi]
    · have hold := h.indexed n j (by simpa [hn] using hj)
      obtain ⟨hlt, -⟩ := List.getElem?_eq_some_iff.mp hold
      rw [onBlock_other hn, List.getElem?_append_left hlt]
      exact hold
  missing := by
    intro n hn
    rw [Std.HashMap.getElem?_insert] at hn
    by_cases hx : x.block.number = n
    · simp [hx] at hn
    · rw [onBlock_other hx]
      exact h.missing n (by simpa [hx] using hn)
  nonempty := by simpa using h.nonempty
  grouped := by
    intro j group hj y hy
    rw [Std.HashMap.getElem?_insert]
    by_cases hlt : j < g.groups.length
    · rw [List.getElem?_append_left hlt] at hj
      have hold := h.grouped j group hj y hy
      have hne : x.block.number ≠ y.block.number := by
        intro e
        simp [← e, hi] at hold
      simpa [hne] using hold
    · rw [List.getElem?_append_right (Nat.le_of_not_lt hlt), List.getElem?_singleton] at hj
      obtain ⟨hfirst, rfl⟩ := Option.ite_some_none_eq_some.mp hj
      have hlast : j = g.groups.length := by omega
      simp [List.mem_singleton.mp hy, hlast]

theorem agrees_add (h : g.Agrees styles) (x : Style V) : (g.add x).Agrees (styles ++ [x]) := by
  unfold add
  split
  · exact agrees_join h ‹_›
  · exact agrees_start h ‹_›

theorem agrees_ofStyles (styles : List (Style V)) : (ofStyles styles).Agrees styles := by
  induction styles using List.reverseRecOn with
  | nil => exact ⟨by simp [ofStyles], by simp [onBlock], by simp [ofStyles], by simp [ofStyles]⟩
  | append_singleton styles x ih =>
    rw [ofStyles, List.foldl_append]
    exact agrees_add ih x

/-- The group of a style is that of its block. -/
theorem group_eq (h : g.Agrees styles) {group : List (Style V)} (hg : group ∈ g.groups) (hx : x ∈ group) :
    group = onBlock x.block.number styles := by
  obtain ⟨i, hi⟩ := List.mem_iff_getElem?.mp hg
  exact Option.some.inj (hi.symm.trans (h.indexed _ _ (h.grouped i group hi x hx)))

theorem onBlock_mem (h : g.Agrees styles) (hx : x ∈ styles) : onBlock x.block.number styles ∈ g.groups := by
  cases hi : g.index[x.block.number]? with
  | none =>
    have hmem : x ∈ onBlock x.block.number styles := mem_onBlock.mpr ⟨hx, rfl⟩
    rw [h.missing _ hi] at hmem
    cases hmem
  | some i => exact List.mem_of_getElem? (h.indexed _ i hi)

theorem distinct (h : g.Agrees styles) :
    g.groups.Pairwise fun a b => ∀ x ∈ a, ∀ y ∈ b, x.block.number ≠ y.block.number := by
  rw [List.pairwise_iff_getElem]
  intro i j hi hj hlt x hx y hy e
  have hxi := h.grouped i _ (List.getElem?_eq_getElem hi) x hx
  have hyj := h.grouped j _ (List.getElem?_eq_getElem hj) y hy
  rw [e, hyj] at hxi
  exact Nat.ne_of_gt hlt (Option.some.inj hxi)

end Gathering

/-! ## The blocks of a sheet -/

namespace Sheet

/-- The styles of one block as they were made. -/
def madeOn (n : Nat) (styles : List (Style V)) : List (Style V) := (onBlock n styles).mergeSort serialBefore

@[simp] theorem mem_madeOn {n : Nat} {x : Style V} : x ∈ madeOn n styles ↔ x ∈ styles ∧ x.block.number = n := by
  simp [madeOn]

theorem nodup_of_distinct {gs : List (List (Style V))} (hne : [] ∉ gs)
    (hd : gs.Pairwise fun g h => ∀ x ∈ g, ∀ y ∈ h, x.block.number ≠ y.block.number) : gs.Nodup := by
  refine hd.imp_of_mem ?_
  rintro g h hg - hgh rfl
  obtain ⟨x, hx⟩ := List.exists_mem_of_ne_nil g (ne_of_mem_of_not_mem hg hne)
  exact hgh x hx x hx rfl

theorem mem_groups {s : Sheet V} {g : List (Style V)} :
    g ∈ s.groups ↔ ∃ x ∈ s.styles, g = madeOn x.block.number s.styles := by
  have hagrees := Gathering.agrees_ofStyles s.styles
  simp only [groups, List.mem_map]
  constructor
  · rintro ⟨group, hgroup, rfl⟩
    obtain ⟨x, hx⟩ := List.exists_mem_of_ne_nil group (ne_of_mem_of_not_mem hgroup hagrees.nonempty)
    obtain rfl := Gathering.group_eq hagrees hgroup hx
    exact ⟨x, (mem_onBlock.mp hx).1, rfl⟩
  · rintro ⟨x, hx, rfl⟩
    exact ⟨_, Gathering.onBlock_mem hagrees hx, rfl⟩

theorem nodup_groups (s : Sheet V) : s.groups.Nodup := by
  have hagrees := Gathering.agrees_ofStyles s.styles
  apply nodup_of_distinct
  · intro hnil
    obtain ⟨x, hx, he⟩ := mem_groups.mp hnil
    exact List.not_mem_nil (he ▸ mem_madeOn.mpr ⟨hx, rfl⟩)
  · refine List.pairwise_map.mpr ((Gathering.distinct hagrees).imp ?_)
    intro g h hgh x hx y hy
    exact hgh x (List.mem_mergeSort.mp hx) y (List.mem_mergeSort.mp hy)

/-- Groups are found again in the list of their styles. -/
theorem onBlock_flatten {gs : List (List (Style V))} (h : Groups gs) {g : List (Style V)} (hg : g ∈ gs) {x : Style V}
    (hx : x ∈ g) : onBlock x.block.number gs.flatten = g := by
  obtain ⟨before, after, rfl⟩ := List.append_of_mem hg
  obtain ⟨-, hafter, hbefore⟩ := List.pairwise_append.mp h.distinct
  have hfirst : onBlock x.block.number before.flatten = [] := by
    simp only [onBlock, List.filter_eq_nil_iff, List.mem_flatten, decide_eq_true_eq]
    rintro y ⟨k, hk, hy⟩
    exact hbefore k hk g List.mem_cons_self y hy x hx
  have hlast : onBlock x.block.number after.flatten = [] := by
    simp only [onBlock, List.filter_eq_nil_iff, List.mem_flatten, decide_eq_true_eq]
    rintro y ⟨k, hk, hy⟩
    exact ((List.pairwise_cons.mp hafter).1 k hk x hx y hy).symm
  have hgroup : onBlock x.block.number g = g := by
    simp only [onBlock, List.filter_eq_self, decide_eq_true_eq]
    intro y hy
    exact h.block g hg y hy x hx
  simp only [onBlock] at hfirst hlast hgroup ⊢
  simp [hfirst, hlast, hgroup]

/-- Within a block the serial numbers alone are the order. -/
theorem madeOn_eq (n : Nat) (styles : List (Style V)) : madeOn n styles = onBlock n (byBlock styles).flatten := by
  have hsame : (onBlock n styles).mergeSort serialBefore = (onBlock n styles).mergeSort madeBefore := by
    have hmap := List.map_mergeSort (r := serialBefore) (s := madeBefore) (f := id) (l := onBlock n styles) (by
      intro a ha b hb
      simp [serialBefore, madeBefore, (mem_onBlock.mp ha).2, (mem_onBlock.mp hb).2])
    simpa using hmap
  rw [madeOn, hsame, flatten_byBlock]
  exact mergeSort_filter madeBefore_trans madeBefore_total _

theorem mem_byBlock {g : List (Style V)} : g ∈ byBlock styles ↔ ∃ x ∈ styles, g = madeOn x.block.number styles := by
  have hgroups := groups_byBlock styles
  have hperm := perm_byBlock styles
  constructor
  · intro hg
    obtain ⟨x, hx⟩ := List.exists_mem_of_ne_nil g (ne_of_mem_of_not_mem hg hgroups.nonempty)
    refine ⟨x, hperm.mem_iff.mp (List.mem_flatten.mpr ⟨g, hg, hx⟩), ?_⟩
    rw [madeOn_eq, onBlock_flatten hgroups hg hx]
  · rintro ⟨x, hx, rfl⟩
    obtain ⟨g, hg, hxg⟩ := List.mem_flatten.mp (hperm.mem_iff.mpr hx)
    rwa [madeOn_eq, onBlock_flatten hgroups hg hxg]

theorem perm_groups (s : Sheet V) : s.groups.Perm (byBlock s.styles) := by
  have hgroups := groups_byBlock s.styles
  refine (List.perm_ext_iff_of_nodup s.nodup_groups (nodup_of_distinct hgroups.nonempty hgroups.distinct)).mpr ?_
  intro g
  rw [mem_groups, mem_byBlock]

/-- Both ways to find the blocks of a sheet come to the same text. -/
theorem gatheredText_eq (s : Sheet V) (indent : String) (r : Rendering V) :
    s.gatheredText indent r = s.toText indent r := by
  unfold gatheredText toText entries
  rw [sort_entries (s.perm_groups.map _)]

end Sheet

end Cascade
