/-
  Cascade.Proofs.Sheet.Renumbered — styles with other numbers. What a sheet looks like does
  not hang on the numbers of its styles and blocks, but only on which of them is the smaller
  one and which are equal. So if the numbers are exchanged for others in the same order
  (`Relabels`), the sheet has the same styles in the same order, the same ones share a block
  (`alike_renumber`), and its text is the same (`toText_renumber`).

  - `Renumbers f l m n`: the numbers from `l` on and before `m` get others before `n`. Of all
    other numbers nothing is said, so a relabelling can go on when more numbers are handed
    out on both sides (`onward`).
-/

import Cascade.Proofs.Sheet.Blocks
import Cascade.Proofs.Sheet.Concat

namespace Cascade

variable {V : Type}

/-! ## Numbers -/

/-- New numbers for those from `l` on and before `m`: in the same order, and all before `n`. -/
structure Renumbers (f : Nat → Nat) (l m n : Nat) : Prop where
  rises : ∀ j k, l ≤ j → j < k → k < m → f j < f k
  below : ∀ k, l ≤ k → k < m → f k < n

/-- The numbers from `m` on become those from `n` on. -/
def onward (f : Nat → Nat) (m n k : Nat) : Nat := if k < m then f k else n + (k - m)

section

variable {f : Nat → Nat} {l m n j k : Nat}

theorem renumbers_none : Renumbers f l l n where
  rises := fun j k hj hjk hk => by omega
  below := fun k hk hk' => by omega

theorem Renumbers.later (h : Renumbers f l m n) {n' : Nat} (hn : n ≤ n') : Renumbers f l m n' :=
  ⟨h.rises, fun k hk hk' => Nat.lt_of_lt_of_le (h.below k hk hk') hn⟩

theorem Renumbers.lt_iff (h : Renumbers f l m n) (hj : l ≤ j ∧ j < m) (hk : l ≤ k ∧ k < m) : f j < f k ↔ j < k := by
  rcases Nat.lt_trichotomy j k with hlt | rfl | hlt
  · exact iff_of_true (h.rises j k hj.1 hlt hk.2) hlt
  · exact iff_of_false (Nat.lt_irrefl _) (Nat.lt_irrefl _)
  · have hrise := h.rises k j hk.1 hlt hj.2
    omega

theorem Renumbers.le_iff (h : Renumbers f l m n) (hj : l ≤ j ∧ j < m) (hk : l ≤ k ∧ k < m) : f j ≤ f k ↔ j ≤ k := by
  have hkj := h.lt_iff hk hj
  omega

theorem Renumbers.eq_iff (h : Renumbers f l m n) (hj : l ≤ j ∧ j < m) (hk : l ≤ k ∧ k < m) : f j = f k ↔ j = k := by
  have hjk := h.lt_iff hj hk
  have hkj := h.lt_iff hk hj
  omega

theorem onward_old (h : k < m) : onward f m n k = f k := if_pos h

theorem onward_new (f : Nat → Nat) (m n k : Nat) : onward f m n (m + k) = n + k := by
  rw [onward, if_neg (by omega)]
  omega

/-- The next numbers on both sides belong together. -/
theorem Renumbers.onward (h : Renumbers f l m n) (c : Nat) : Renumbers (onward f m n) l (m + c) (n + c) where
  rises := by
    intro j k hj hjk hk
    by_cases hkm : k < m
    · rw [onward_old hkm, onward_old (by omega)]
      exact h.rises j k hj hjk hkm
    · obtain ⟨k, rfl⟩ := Nat.exists_eq_add_of_le (Nat.not_lt.mp hkm)
      rw [onward_new]
      by_cases hjm : j < m
      · rw [onward_old hjm]
        have hbelow := h.below j hj hjm
        omega
      · obtain ⟨j, rfl⟩ := Nat.exists_eq_add_of_le (Nat.not_lt.mp hjm)
        rw [onward_new]
        omega
  below := by
    intro k hk hkm
    by_cases hold : k < m
    · rw [onward_old hold]
      have hbelow := h.below k hk hold
      omega
    · obtain ⟨k, rfl⟩ := Nat.exists_eq_add_of_le (Nat.not_lt.mp hold)
      rw [onward_new]
      omega

end

/-! ## Styles -/

/-- The numbers that `start` had not handed out yet and `s` had. -/
structure Style.Within (start s : Supply) (x : Style V) : Prop where
  block : start.block ≤ x.block.number ∧ x.block.number < s.block
  serial : start.serial ≤ x.serial ∧ x.serial < s.serial

def Style.renumber (f g : Nat → Nat) (x : Style V) : Style V :=
  { x with block := { x.block with number := f x.block.number }, serial := g x.serial }

@[simp] theorem Style.number_renumber (f g : Nat → Nat) (x : Style V) :
    (x.renumber f g).block.number = f x.block.number := rfl

@[simp] theorem Style.serial_renumber (f g : Nat → Nat) (x : Style V) : (x.renumber f g).serial = g x.serial := rfl

/-- Numbers handed out between `start` and `s`, and those that `t` has handed out for them. -/
structure Relabels (f g : Nat → Nat) (start s t : Supply) : Prop where
  block : Renumbers f start.block s.block t.block
  serial : Renumbers g start.serial s.serial t.serial

variable {f g : Nat → Nat} {start s t : Supply} {xs : List (Style V)}

theorem madeBefore_renumber (h : Relabels f g start s t) {x y : Style V} (hx : x.Within start s) (hy : y.Within start s) :
    Sheet.madeBefore x y = Sheet.madeBefore (x.renumber f g) (y.renumber f g) := by
  rw [Bool.eq_iff_iff, Sheet.madeBefore_iff, Sheet.madeBefore_iff]
  simp only [Style.number_renumber, Style.serial_renumber, h.block.lt_iff hx.block hy.block,
    h.block.eq_iff hx.block hy.block, h.serial.le_iff hx.serial hy.serial]

theorem sameBlock_renumber (h : Relabels f g start s t) {x y : Style V} (hx : x.Within start s) (hy : y.Within start s) :
    Sheet.sameBlock x y = Sheet.sameBlock (x.renumber f g) (y.renumber f g) := by
  rw [Bool.eq_iff_iff]
  simp only [Sheet.sameBlock, beq_iff_eq, Style.number_renumber]
  exact (h.block.eq_iff hx.block hy.block).symm

theorem alike_renumber (h : Relabels f g start s t) (hx : ∀ x ∈ xs, x.Within start s) :
    Alike (xs.map (Style.renumber f g)) xs := by
  refine ⟨?_, ?_⟩
  · rw [List.map_map]
    rfl
  · have hzip : (xs.map (Style.renumber f g)).zip xs = xs.map fun x => (x.renumber f g, x) := by
      conv_lhs => rw [← List.map_id xs, List.map_map, List.zip_map']
      rfl
    rw [hzip]
    intro p hp q hq
    obtain ⟨x, hxs, rfl⟩ := List.mem_map.mp hp
    obtain ⟨y, hys, rfl⟩ := List.mem_map.mp hq
    exact h.block.eq_iff (hx x hxs).block (hx y hys).block

/-! ## Sheets -/

namespace Sheet

theorem ofStyles_renumber (f g : Nat → Nat) (xs : List (Style V)) :
    ofStyles (xs.map (Style.renumber f g)) = ⟨(ofStyles xs).styles.map (Style.renumber f g)⟩ :=
  ofStyles_map (Style.renumber f g) (fun _ => rfl) xs

theorem within_ofStyles (hx : ∀ x ∈ xs, x.Within start s) : ∀ x ∈ (ofStyles xs).styles, x.Within start s :=
  fun x h => hx x ((perm_ofStyles xs).mem_iff.mp h)

/-- A sheet of styles with other numbers has the same styles, in the same order and on the same blocks. -/
theorem alike_ofStyles_renumber (h : Relabels f g start s t) (hx : ∀ x ∈ xs, x.Within start s) :
    Alike (ofStyles (xs.map (Style.renumber f g))).styles (ofStyles xs).styles := by
  rw [ofStyles_renumber]
  exact alike_renumber h (within_ofStyles hx)

theorem toText_renumber (h : Relabels f g start s t) (hx : ∀ x ∈ xs, x.Within start s) (indent : String)
    (r : Rendering V) : (ofStyles (xs.map (Style.renumber f g))).toText indent r = (ofStyles xs).toText indent r := by
  have hwithin := within_ofStyles hx
  rw [ofStyles_renumber]
  exact toText_map (fun x hx y hy => madeBefore_renumber h (hwithin x hx) (hwithin y hy))
    (fun x hx y hy => sameBlock_renumber h (hwithin x hx) (hwithin y hy)) (fun _ => rfl) fun _ => rfl

end Sheet

end Cascade
