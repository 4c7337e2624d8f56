/-
  Cascade.Proofs.Sheet.Partition — the groups of a sheet are its styles, sorted by block and
  nothing else (`Partition`).

  1. Every style stands in one group, as often as in the sheet, and no group is empty.
  2. Two styles stand in one group exactly where they share their block.
  3. The styles of a group stand in the order in which they were made.

  So the text of a sheet has an entry for every block that its styles have, and in all
  entries together a chain's text for every style (`groups_partition`). This holds of every
  sheet, whatever is shared in it and copied, and however the styles of a block are
  scattered. A program's blocks are told apart by their numbers alone (`sharing_after`).
-/

import Cascade.Proofs.Sheet.Gathered
import Cascade.Proofs.Sheet.Genuine
import Mathlib.Data.Finset.Card

namespace Cascade

variable {V : Type} {styles xs : List (Style V)} {gs : List (List (Style V))}

namespace Sheet

/-- These groups are the styles, each in the group of its block. -/
structure Partition (styles : List (Style V)) (gs : List (List (Style V))) : Prop where
  nonempty : [] ∉ gs
  /-- No style is lost or added. -/
  whole : gs.flatten.Perm styles
  /-- A style stands in one group. -/
  one : ∀ x ∈ styles, ∃! i, ∃ h : i < gs.length, x ∈ gs[i]
  /-- A group is all that there is of its block, each style as often as it is there. -/
  often : ∀ g ∈ gs, ∀ x ∈ g, g.Perm (onBlock x.block.number styles)
  shared : ∀ i j (hi : i < gs.length) (hj : j < gs.length), ∀ x ∈ gs[i], ∀ y ∈ gs[j],
    i = j ↔ x.block.number = y.block.number
  made : ∀ g ∈ gs, g.Pairwise fun x y => x.serial ≤ y.serial

theorem shared_of_groups (h : Groups gs) {i j : Nat} (hi : i < gs.length) (hj : j < gs.length) {x y : Style V}
    (hx : x ∈ gs[i]) (hy : y ∈ gs[j]) : i = j ↔ x.block.number = y.block.number := by
  constructor
  · rintro rfl
    exact h.block _ (List.getElem_mem hi) x hx y hy
  · intro hn
    have hdistinct := List.pairwise_iff_getElem.mp h.distinct
    rcases Nat.lt_trichotomy i j with hij | rfl | hji
    · exact absurd hn (hdistinct i j hi hj hij x hx y hy)
    · rfl
    · exact absurd hn.symm (hdistinct j i hj hi hji y hy x hx)

theorem partition_of_groups (h : Groups gs) (hp : gs.flatten.Perm styles) : Partition styles gs where
  nonempty := h.nonempty
  whole := hp
  one := by
    intro x hx
    obtain ⟨g, hg, hxg⟩ := List.mem_flatten.mp (hp.mem_iff.mpr hx)
    obtain ⟨i, hi, rfl⟩ := List.getElem_of_mem hg
    refine ⟨i, ⟨hi, hxg⟩, ?_⟩
    rintro j ⟨hj, hxj⟩
    exact (shared_of_groups h hj hi hxj hxg).mpr rfl
  often := by
    intro g hg x hx
    have hflatten := hp.filter (·.block.number = x.block.number)
    rwa [← onBlock, onBlock_flatten h hg hx] at hflatten
  shared := fun i j hi hj x hx y hy => shared_of_groups h hi hj hx hy
  made := h.made

theorem partition_groups (s : Sheet V) : Partition s.styles s.groups :=
  partition_of_groups (groups_perm (groups_byBlock s.styles) s.perm_groups.symm)
    (s.perm_groups.flatten.trans (perm_byBlock s.styles))

/-! ## What is written -/

/-- The numbers of the blocks that styles have. -/
def numbers (styles : List (Style V)) : Finset Nat := (styles.map (·.block.number)).toFinset

theorem numbers_perm (h : xs.Perm styles) : numbers xs = numbers styles :=
  List.toFinset_eq_of_perm _ _ (h.map _)

/-- The number of a group's block. -/
def groupNumber (g : List (Style V)) : Nat := (g.head?.map (·.block.number)).getD 0

theorem groupNumber_eq (h : Groups gs) {g : List (Style V)} (hg : g ∈ gs) {x : Style V} (hx : x ∈ g) :
    groupNumber g = x.block.number := by
  cases g with
  | nil => cases hx
  | cons y ys => exact h.block _ hg y List.mem_cons_self x hx

theorem length_of_groups (h : Groups gs) : gs.length = (numbers gs.flatten).card := by
  have hnodup : (gs.map groupNumber).Nodup := by
    refine List.pairwise_map.mpr (h.distinct.imp_of_mem ?_)
    intro g k hg hk hgk
    obtain ⟨x, hx⟩ := List.exists_mem_of_ne_nil g (ne_of_mem_of_not_mem hg h.nonempty)
    obtain ⟨y, hy⟩ := List.exists_mem_of_ne_nil k (ne_of_mem_of_not_mem hk h.nonempty)
    rw [groupNumber_eq h hg hx, groupNumber_eq h hk hy]
    exact hgk x hx y hy
  have hsame : (gs.map groupNumber).toFinset = numbers gs.flatten := by
    ext n
    simp only [numbers, List.mem_toFinset, List.mem_map, List.mem_flatten]
    constructor
    · rintro ⟨g, hg, rfl⟩
      obtain ⟨x, hx⟩ := List.exists_mem_of_ne_nil g (ne_of_mem_of_not_mem hg h.nonempty)
      exact ⟨x, ⟨g, hg, hx⟩, (groupNumber_eq h hg hx).symm⟩
    · rintro ⟨x, ⟨g, hg, hx⟩, rfl⟩
      exact ⟨g, hg, groupNumber_eq h hg hx⟩
  rw [← hsame, List.toFinset_card_of_nodup hnodup, List.length_map]

theorem sharing_after (actions : List (Action V)) (i : Nat) : Sharing ((Store.after actions).sheet i).styles := by
  have hsound := Store.sound_after actions
  intro x hx y hy hn
  exact hsound.sameBlock _ _ (Store.hasBlock_of_holds (Or.inr ⟨i, hx⟩)) (Store.hasBlock_of_holds (Or.inr ⟨i, hy⟩)) hn

/-- The groups of a sheet are its styles sorted by block, and its text has an entry for each block and a chain's text
    for each style; the blocks of a program's sheet are told apart by their numbers. -/
theorem groups_partition (s : Sheet V) (indent : String) (r : Rendering V) :
    Partition s.styles s.groups ∧
    (∃ gs : List (List (Style V)), gs.Perm s.groups ∧
      s.toText indent r = String.join (gs.map fun g => (Entry.ofStyles indent r g).text indent) ∧
      gs.length = (numbers s.styles).card ∧
      (gs.flatMap fun g => g.map (·.chain.text)).Perm (s.styles.map (·.chain.text))) ∧
    ∀ (actions : List (Action V)) (i : Nat), Sharing ((Store.after actions).sheet i).styles := by
  refine ⟨partition_groups s, ?_, sharing_after⟩
  obtain ⟨gs, hgs, hentries⟩ := exists_entries s indent r
  have hwhole : gs.flatten.Perm s.styles := hgs.flatten.trans (perm_byBlock s.styles)
  refine ⟨gs, hgs.trans s.perm_groups.symm, ?_, ?_, ?_⟩
  · rw [toText, ← hentries, List.map_map]
    rfl
  · rw [length_of_groups (groups_perm (groups_byBlock s.styles) hgs.symm), numbers_perm hwhole]
  · rw [List.flatMap_def, ← List.map_flatten]
    exact hwhole.map _

end Sheet

end Cascade
