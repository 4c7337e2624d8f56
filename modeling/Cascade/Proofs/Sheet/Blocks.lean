/-
  Cascade.Proofs.Sheet.Blocks — the styles of a sheet, block by block.

  `byBlock` loses no style and adds none (`perm_byBlock`), and its groups are what they
  are meant to be (`groups_byBlock`): a group is the styles of one block as they were
  made, and no block has two groups. Where the numbers of blocks and styles rise from
  group to group, `byBlock` finds these groups again, in whatever order the styles come
  (`byBlock_eq`).
-/

import Cascade.Sheet.Canonical
import Cascade.Proofs.Stable
import Mathlib.Data.List.SplitBy

namespace Cascade.Sheet

variable {V : Type} {styles : List (Style V)} {gs hs : List (List (Style V))}

/-- Styles by block: every group is of one block, in the order in which they were made, and
    different groups are of different blocks. -/
structure Groups (gs : List (List (Style V))) : Prop where
  nonempty : [] ∉ gs
  block : ∀ g ∈ gs, ∀ x ∈ g, ∀ y ∈ g, x.block.number = y.block.number
  distinct : gs.Pairwise fun g h => ∀ x ∈ g, ∀ y ∈ h, x.block.number ≠ y.block.number
  made : ∀ g ∈ gs, g.Pairwise fun x y => x.serial ≤ y.serial

theorem groups_perm (h : Groups gs) (hp : gs.Perm hs) : Groups hs where
  nonempty := fun hn => h.nonempty (hp.mem_iff.mpr hn)
  block := fun g hg => h.block g (hp.mem_iff.mpr hg)
  distinct := h.distinct.perm hp fun hd x hx y hy e => hd y hy x hx e.symm
  made := fun g hg => h.made g (hp.mem_iff.mpr hg)

/-- The groups stand in the order of their blocks' numbers, and the styles of each in the order of theirs. -/
structure Rising (gs : List (List (Style V))) : Prop where
  nonempty : [] ∉ gs
  block : ∀ g ∈ gs, ∀ x ∈ g, ∀ y ∈ g, x.block.number = y.block.number
  numbers : gs.Pairwise fun g h => ∀ x ∈ g, ∀ y ∈ h, x.block.number < y.block.number
  serials : ∀ g ∈ gs, g.Pairwise fun x y => x.serial < y.serial

/-! ## The groups of a list -/

def sameBlock (a b : Style V) : Bool := a.block.number == b.block.number

theorem sorted_madeBefore (styles : List (Style V)) : (styles.mergeSort madeBefore).Pairwise (madeBefore · ·) :=
  List.pairwise_mergeSort madeBefore_trans madeBefore_total styles

theorem madeBefore_iff {a b : Style V} : madeBefore a b = true ↔
    a.block.number < b.block.number ∨ (a.block.number = b.block.number ∧ a.serial ≤ b.serial) := by
  simp [madeBefore]

theorem number_le {a b : Style V} (h : madeBefore a b = true) : a.block.number ≤ b.block.number := by
  rw [madeBefore_iff] at h
  omega

theorem serial_le {a b : Style V} (h : madeBefore a b = true) (hn : a.block.number = b.block.number) :
    a.serial ≤ b.serial := by
  rw [madeBefore_iff] at h
  omega

theorem flatten_byBlock (styles : List (Style V)) : (byBlock styles).flatten = styles.mergeSort madeBefore :=
  List.flatten_splitBy _ _

theorem perm_byBlock (styles : List (Style V)) : (byBlock styles).flatten.Perm styles := by
  rw [flatten_byBlock]
  exact List.mergeSort_perm styles madeBefore

theorem number_eq_head {a : Style V} {g : List (Style V)} (h : (a :: g).IsChain fun x y => sameBlock x y = true) :
    ∀ x ∈ a :: g, x.block.number = a.block.number := by
  induction g generalizing a with
  | nil => simp
  | cons b g ih =>
    obtain ⟨hab, hb⟩ := List.isChain_cons_cons.mp h
    have hn : a.block.number = b.block.number := by simpa [sameBlock] using hab
    intro x hx
    rcases List.mem_cons.mp hx with rfl | hx
    · rfl
    · rw [ih hb x hx, hn]

/-- Groups of which each stands before the next, and no two neighbours are of one block, rise. -/
theorem numbers_rise (hne : [] ∉ gs) (hb : ∀ g ∈ gs, ∀ x ∈ g, ∀ y ∈ g, x.block.number = y.block.number)
    (hle : gs.Pairwise fun g h => ∀ x ∈ g, ∀ y ∈ h, x.block.number ≤ y.block.number)
    (hn : gs.IsChain fun g h => ∃ hg hh, sameBlock (g.getLast hg) (h.head hh) = false) :
    gs.Pairwise fun g h => ∀ x ∈ g, ∀ y ∈ h, x.block.number < y.block.number := by
  induction gs with
  | nil => exact .nil
  | cons g gs ih =>
    obtain ⟨hge, hre⟩ := List.ne_and_not_mem_of_not_mem_cons hne
    obtain ⟨hgle, hrle⟩ := List.pairwise_cons.mp hle
    have hrest := ih hre (fun k hk => hb k (List.mem_cons_of_mem _ hk)) hrle hn.tail
    refine List.pairwise_cons.mpr ⟨?_, hrest⟩
    cases gs with
    | nil => intro k hk; cases hk
    | cons h rest =>
      obtain ⟨⟨hg, hh, hne'⟩, -⟩ := List.isChain_cons_cons.mp hn
      have hfirst : ∀ x ∈ g, ∀ y ∈ h, x.block.number < y.block.number := by
        intro x hx y hy
        have hx' := hb g List.mem_cons_self x hx _ (List.getLast_mem hg)
        have hy' := hb h (List.mem_cons_of_mem _ List.mem_cons_self) y hy _ (List.head_mem hh)
        have hle' := hgle h List.mem_cons_self x hx y hy
        simp only [sameBlock, beq_eq_false_iff_ne] at hne'
        omega
      intro k hk x hx y hy
      rcases List.mem_cons.mp hk with rfl | hk
      · exact hfirst x hx y hy
      -- a group further on is compared through the first style of the next one
      · have hxh := hfirst x hx _ (List.head_mem hh)
        have hhy := (List.pairwise_cons.mp hrest).1 k hk _ (List.head_mem hh) y hy
        omega

theorem groups_byBlock (styles : List (Style V)) : Groups (byBlock styles) := by
  have hsorted := sorted_madeBefore styles
  rw [← flatten_byBlock, List.pairwise_flatten] at hsorted
  have hnonempty : [] ∉ byBlock styles := List.nil_notMem_splitBy _ _
  have hblock : ∀ g ∈ byBlock styles, ∀ x ∈ g, ∀ y ∈ g, x.block.number = y.block.number := by
    intro g hg x hx y hy
    have hchain : g.IsChain fun x y => sameBlock x y = true := List.isChain_of_mem_splitBy hg
    cases g with
    | nil => cases hx
    | cons a g => rw [number_eq_head hchain x hx, number_eq_head hchain y hy]
  have hle : (byBlock styles).Pairwise fun g h => ∀ x ∈ g, ∀ y ∈ h, x.block.number ≤ y.block.number :=
    hsorted.2.imp fun h x hx y hy => number_le (h x hx y hy)
  have hrise := numbers_rise hnonempty hblock hle (List.isChain_getLast_head_splitBy _ _)
  refine ⟨hnonempty, hblock, ?_, ?_⟩
  · exact hrise.imp fun h x hx y hy => Nat.ne_of_lt (h x hx y hy)
  · intro g hg
    refine (hsorted.1 g hg).imp_of_mem ?_
    intro x y hx hy hxy
    exact serial_le hxy (hblock g hg x hx y hy)

/-! ## Styles that are changed one by one -/

section

variable {φ : Style V → Style V} {indent : String} {r : Rendering V}

/-- If a change keeps which styles stand before which, and which share a block, it keeps the groups. -/
theorem byBlock_map (hmade : ∀ x ∈ styles, ∀ y ∈ styles, madeBefore x y = madeBefore (φ x) (φ y))
    (hblock : ∀ x ∈ styles, ∀ y ∈ styles, sameBlock x y = sameBlock (φ x) (φ y)) :
    byBlock (styles.map φ) = (byBlock styles).map (·.map φ) := by
  have hmem : ∀ g ∈ byBlock styles, ∀ x ∈ g, x ∈ styles := by
    intro g hg x hx
    exact (perm_byBlock styles).mem_iff.mp (List.mem_flatten.mpr ⟨g, hg, hx⟩)
  have hmap : (styles.mergeSort madeBefore).map φ = (styles.map φ).mergeSort madeBefore := List.map_mergeSort hmade
  have hflat : (styles.map φ).mergeSort madeBefore = ((byBlock styles).map (·.map φ)).flatten := by
    rw [← List.map_flatten, flatten_byBlock, hmap]
  rw [byBlock, hflat]
  refine List.splitBy_flatten ?_ ?_ ?_
  · intro hnil
    obtain ⟨g, hg, he⟩ := List.mem_map.mp hnil
    exact (groups_byBlock styles).nonempty (List.map_eq_nil_iff.mp he ▸ hg)
  · intro m hm
    obtain ⟨g, hg, rfl⟩ := List.mem_map.mp hm
    have hchain : g.IsChain fun x y => sameBlock x y = true := List.isChain_of_mem_splitBy hg
    refine (List.isChain_map _).mpr (hchain.imp_of_mem_imp fun x y hx hy hxy => ?_)
    exact (hblock x (hmem g hg x hx) y (hmem g hg y hy)).symm.trans hxy
  · have hends := List.isChain_getLast_head_splitBy (fun x y => sameBlock x y) (styles.mergeSort madeBefore)
    refine (List.isChain_map _).mpr (hends.imp_of_mem_imp ?_)
    rintro g k hg hk ⟨hgne, hkne, hne⟩
    refine ⟨by simpa using hgne, by simpa using hkne, ?_⟩
    rw [List.getLast_map, List.head_map]
    exact (hblock _ (hmem g hg _ (List.getLast_mem hgne)) _ (hmem k hk _ (List.head_mem hkne))).symm.trans hne

theorem entry_map (hchain : ∀ x, (φ x).chain = x.chain)
    (hdeclared : ∀ x, (φ x).block.declarations = x.block.declarations) (g : List (Style V)) :
    Entry.ofStyles indent r (g.map φ) = Entry.ofStyles indent r g := by
  unfold Entry.ofStyles
  simp only [List.map_map, List.head?_map, Option.map_map, Function.comp_def, hchain, hdeclared]

/-- Such a change keeps the text too if it keeps the chains and the declarations. -/
theorem toText_map (hmade : ∀ x ∈ styles, ∀ y ∈ styles, madeBefore x y = madeBefore (φ x) (φ y))
    (hblock : ∀ x ∈ styles, ∀ y ∈ styles, sameBlock x y = sameBlock (φ x) (φ y))
    (hchain : ∀ x, (φ x).chain = x.chain) (hdeclared : ∀ x, (φ x).block.declarations = x.block.declarations) :
    toText ⟨styles.map φ⟩ indent r = toText ⟨styles⟩ indent r := by
  have hentry : Entry.ofStyles indent r ∘ (·.map φ) = Entry.ofStyles indent r :=
    funext (entry_map hchain hdeclared)
  unfold toText entries
  rw [byBlock_map hmade hblock, List.map_map, hentry]

end

/-! ## Groups that are found again -/

theorem madeBefore_of_number {a b : Style V} (h : a.block.number < b.block.number) : madeBefore a b = true := by
  simp [madeBefore, h]

theorem madeBefore_of_serial {a b : Style V} (hn : a.block.number = b.block.number) (h : a.serial < b.serial) :
    madeBefore a b = true := by
  simp [madeBefore, hn, Nat.le_of_lt h]

/-- Strictly before, by block and then as they were made. -/
def Before (a b : Style V) : Prop :=
  a.block.number < b.block.number ∨ (a.block.number = b.block.number ∧ a.serial < b.serial)

theorem before_of_rising (h : Rising gs) : gs.flatten.Pairwise Before := by
  rw [List.pairwise_flatten]
  constructor
  · intro g hg
    refine (h.serials g hg).imp_of_mem ?_
    intro x y hx hy hxy
    exact Or.inr ⟨h.block g hg x hx y hy, hxy⟩
  · exact h.numbers.imp fun hlt x hx y hy => Or.inl (hlt x hx y hy)

theorem madeBefore_of_before {a b : Style V} (h : Before a b) : madeBefore a b = true := by
  rcases h with h | ⟨hn, hs⟩
  · exact madeBefore_of_number h
  · exact madeBefore_of_serial hn hs

/-- Of two different styles of rising groups only one may stand before the other. -/
theorem eq_of_madeBefore (h : gs.flatten.Pairwise Before) {a b : Style V} (ha : a ∈ gs.flatten) (hb : b ∈ gs.flatten)
    (hab : madeBefore a b = true) (hba : madeBefore b a = true) : a = b := by
  by_contra hne
  have : Std.Symm fun a b : Style V => Before a b ∨ Before b a := ⟨fun _ _ => Or.symm⟩
  have heither := (h.imp Or.inl).forall (R := fun a b : Style V => Before a b ∨ Before b a) ha hb hne
  rw [madeBefore_iff] at hab hba
  unfold Before at heither
  omega

/-- Rising groups are found again, in whatever order their styles come. -/
theorem byBlock_eq (h : Rising gs) (hp : styles.Perm gs.flatten) : byBlock styles = gs := by
  have hbefore := before_of_rising h
  have hsort : styles.mergeSort madeBefore = gs.flatten := by
    rw [mergeSort_of_perm madeBefore_trans madeBefore_total ?_ hp]
    · exact List.mergeSort_of_pairwise (hbefore.imp madeBefore_of_before)
    · intro a ha b hb
      exact eq_of_madeBefore hbefore (hp.mem_iff.mp ha) (hp.mem_iff.mp hb)
  unfold byBlock
  rw [hsort]
  refine List.splitBy_flatten h.nonempty ?_ ?_
  · intro g hg
    refine (h.serials g hg).isChain.imp_of_mem_imp ?_
    intro x y hx hy _
    simp [h.block g hg x hx y hy]
  · apply h.numbers.isChain.imp_of_mem_imp
    intro g k hg hk hlt
    have hg' : g ≠ [] := ne_of_mem_of_not_mem hg h.nonempty
    have hk' : k ≠ [] := ne_of_mem_of_not_mem hk h.nonempty
    have hn := hlt _ (List.getLast_mem hg') _ (List.head_mem hk')
    exact ⟨hg', hk', by simp; omega⟩

end Cascade.Sheet
