/-
  Cascade.Proofs.Sheet.RoundTrip — writing a sheet and reading the text again.

  1. The new sheet has the styles of the old one (`parse_toText`): each with its chain and
     its declarations, two of them on one block exactly when they were before, and those
     of a block made in the same order. Ranks are not written, and serial numbers are new.
  2. What was read and written once does not change any more (`toText_parse_toText`).

  Both ask that every declared property has a name that can be read and that the host
  takes for the property (`Echoes`): a property whose name is not known is not written.
-/

import Cascade.NameTable
import Cascade.Proofs.Selector.WellFormed
import Cascade.Proofs.Sheet.Reading
import Cascade.Proofs.Sheet.Text

namespace Cascade.Sheet

open Grammar

variable {σ V : Type} {host : Host σ V} {memory : σ} {r : Rendering V} {supply : Supply} {gs : List (List (Style V))}

/-- The property has a name that can be read and that stands for it. -/
def Named (host : Host σ V) (memory : σ) (r : Rendering V) (p : PropertyId) : Prop :=
  ∃ name, r.name p = some name ∧ Name name ∧ host.identify memory name = (some p, memory)

/-- The text of a declaration can be read and gives the declaration again. -/
structure Echoes (host : Host σ V) (memory : σ) (r : Rendering V) (p : PropertyId) (v : V) : Prop where
  named : Named host memory r p
  value : Value (r.value p v)
  interpret : host.interpret memory p (r.value p v) = (some v, memory)

/-- How the styles `as` come to be the styles `bs`: every one with its chain and its declarations, the
    same ones on a block together, and those of a block in the same order. -/
structure Matching (as bs : List (Style V)) (pairs : List (Style V × Style V)) : Prop where
  left : (pairs.map Prod.fst).Perm as
  right : (pairs.map Prod.snd).Perm bs
  content : ∀ x ∈ pairs, x.2.chain = x.1.chain ∧ x.2.block.declarations = x.1.block.declarations
  sharing : ∀ x ∈ pairs, ∀ y ∈ pairs, x.2.block.number = y.2.block.number ↔ x.1.block.number = y.1.block.number
  order : ∀ x ∈ pairs, ∀ y ∈ pairs, x.1.block.number = y.1.block.number →
    x.1.serial < y.1.serial → x.2.serial < y.2.serial

def Remade (as bs : List (Style V)) : Prop := ∃ pairs, Matching as bs pairs

/-! ## Declarations -/

theorem declarations_ext {d e : Declarations V} (h : d.entries = e.entries) : d = e := by
  cases d; cases e; cases h; rfl

theorem insertEntry_last {p : PropertyId} {v : V} {es : List (PropertyId × V)} (h : ∀ e ∈ es, e.1 < p) :
    Declarations.insertEntry p v es = es ++ [(p, v)] := by
  induction es with
  | nil => rfl
  | cons e es ih =>
    have he : e.1 < p := h e List.mem_cons_self
    have hnot : ¬ p < e.1 := by
      intro hp
      exact UInt32.lt_irrefl p (UInt32.lt_trans hp he)
    rw [Declarations.insertEntry, if_neg hnot, if_pos he, ih fun f hf => h f (List.mem_cons_of_mem _ hf)]
    rfl

theorem writtenOne_of_echoes {p : PropertyId} {v : V} (h : Echoes host memory r p v) :
    ∃ name, writtenOne r p v = some (name, r.value p v) ∧ Name name ∧
      host.identify memory name = (some p, memory) := by
  obtain ⟨name, hr, hn, hid⟩ := h.named
  refine ⟨name, ?_, hn, hid⟩
  have hempty : name.isEmpty = false := by simpa using hn.1
  simp [writtenOne, hr, hempty]

/-- Declarations that are written in their order are made again one after the other. -/
theorem declareAll_entries (acc : Declarations V) {es : List (PropertyId × V)}
    (hs : (acc.entries ++ es).Pairwise (·.1 < ·.1)) (h : ∀ e ∈ es, Echoes host memory r e.1 e.2) :
    declareAll host memory acc (es.filterMap fun e => writtenOne r e.1 e.2) = (memory, ⟨acc.entries ++ es, hs⟩) := by
  induction es generalizing acc with
  | nil =>
    refine Prod.ext rfl (declarations_ext ?_)
    simp [declareAll]
  | cons e es ih =>
    have he := h e List.mem_cons_self
    obtain ⟨name, hone, -, hid⟩ := writtenOne_of_echoes he
    have hlast : ∀ f ∈ acc.entries, f.1 < e.1 := by
      intro f hf
      exact (List.pairwise_append.mp hs).2.2 f hf e List.mem_cons_self
    have hinsert : (acc.insert e.1 e.2).entries = acc.entries ++ [e] := insertEntry_last hlast
    have hdeclare : declare host memory acc name (r.value e.1 e.2) = (memory, acc.insert e.1 e.2) := by
      simp [declare, hid, he.interpret]
    have hs' : ((acc.insert e.1 e.2).entries ++ es).Pairwise (·.1 < ·.1) := by
      rw [hinsert]
      simpa using hs
    have hrest := ih _ hs' fun f hf => h f (List.mem_cons_of_mem _ hf)
    rw [List.filterMap_cons, hone]
    show declareAll host memory acc ((name, r.value e.1 e.2) :: es.filterMap fun e => writtenOne r e.1 e.2) = _
    rw [declareAll_cons, hdeclare, hrest]
    refine Prod.ext rfl (declarations_ext ?_)
    simp [hinsert]

theorem declareAll_written {d : Declarations V} (h : ∀ e ∈ d.entries, Echoes host memory r e.1 e.2) :
    declareAll host memory .empty (written r d) = (memory, d) :=
  declareAll_entries .empty d.sorted h

/-! ## Copies of groups -/

/-- The supply after a group has been made again. -/
def afterGroup (supply : Supply) (g : List (Style V)) : Supply := ⟨supply.block + 1, supply.serial + g.length⟩

/-- A group made again: its styles, each with its copy. -/
def copyGroup (supply : Supply) (g : List (Style V)) : List (Style V × Style V) :=
  (g.zipIdx supply.serial).map fun e => (e.1, Style.of e.1.chain ⟨supply.block, e.1.block.declarations⟩ e.2)

def copies (supply : Supply) : List (List (Style V)) → List (List (Style V × Style V))
  | [] => []
  | g :: gs => copyGroup supply g :: copies (afterGroup supply g) gs

theorem fst_copyGroup (supply : Supply) (g : List (Style V)) : (copyGroup supply g).map Prod.fst = g := by
  simp [copyGroup, Function.comp_def]

theorem fst_copies (supply : Supply) (gs : List (List (Style V))) :
    (copies supply gs).map (·.map Prod.fst) = gs := by
  induction gs generalizing supply with
  | nil => rfl
  | cons g gs ih => rw [copies, List.map_cons, fst_copyGroup, ih]

theorem mem_copyGroup {g : List (Style V)} {x : Style V × Style V} (h : x ∈ copyGroup supply g) :
    x.2.chain = x.1.chain ∧ x.2.block.declarations = x.1.block.declarations ∧ x.2.block.number = supply.block := by
  obtain ⟨e, he, rfl⟩ := List.mem_map.mp h
  exact ⟨rfl, rfl, rfl⟩

theorem mem_copies {p : List (Style V × Style V)} (h : p ∈ copies supply gs) :
    ∀ x ∈ p, x.2.chain = x.1.chain ∧ x.2.block.declarations = x.1.block.declarations ∧
      supply.block ≤ x.2.block.number := by
  induction gs generalizing supply with
  | nil => cases h
  | cons g gs ih =>
    intro x hx
    rcases List.mem_cons.mp h with rfl | h
    · obtain ⟨h1, h2, h3⟩ := mem_copyGroup hx
      exact ⟨h1, h2, Nat.le_of_eq h3.symm⟩
    · obtain ⟨h1, h2, h3⟩ := ih h x hx
      have hle : supply.block + 1 ≤ x.2.block.number := h3
      exact ⟨h1, h2, by omega⟩

theorem serials_zipIdx {α : Type} (l : List α) (n : Nat) : (l.zipIdx n).Pairwise fun x y => x.2 < y.2 := by
  have h : ((l.zipIdx n).map Prod.snd).Pairwise (· < ·) := by
    rw [List.zipIdx_map_snd]
    exact List.pairwise_lt_range'
  exact List.pairwise_map.mp h

theorem serials_copyGroup (supply : Supply) (g : List (Style V)) :
    (copyGroup supply g).Pairwise fun x y => x.2.serial < y.2.serial :=
  List.pairwise_map.mpr (serials_zipIdx g supply.serial)

/-- The copies are on new blocks, one for each group, and made one after the other. -/
theorem rising_copies (h : [] ∉ gs) (supply : Supply) : Rising ((copies supply gs).map (·.map Prod.snd)) := by
  induction gs generalizing supply with
  | nil => exact ⟨by simp [copies], by simp [copies], .nil, by simp [copies]⟩
  | cons g gs ih =>
    obtain ⟨hg, hgs⟩ := List.ne_and_not_mem_of_not_mem_cons h
    have hrest := ih hgs (afterGroup supply g)
    have hfirst : ∀ x ∈ (copyGroup supply g).map Prod.snd, x.block.number = supply.block := by
      intro x hx
      obtain ⟨e, he, rfl⟩ := List.mem_map.mp hx
      exact (mem_copyGroup he).2.2
    refine ⟨?_, ?_, ?_, ?_⟩
    · intro hn
      rcases List.mem_cons.mp hn with hn | hn
      · have hnil := congrArg List.length hn
        simp only [List.length_nil, List.length_map, copyGroup, List.length_zipIdx] at hnil
        exact hg (List.length_eq_zero_iff.mp hnil.symm).symm
      · exact hrest.nonempty hn
    · intro k hk x hx y hy
      rcases List.mem_cons.mp hk with rfl | hk
      · rw [hfirst x hx, hfirst y hy]
      · exact hrest.block k hk x hx y hy
    · refine List.pairwise_cons.mpr ⟨?_, hrest.numbers⟩
      intro k hk x hx y hy
      obtain ⟨p, hp, rfl⟩ := List.mem_map.mp hk
      obtain ⟨e, he, rfl⟩ := List.mem_map.mp hy
      have hle : supply.block + 1 ≤ e.2.block.number := (mem_copies hp e he).2.2
      have hx' := hfirst x hx
      omega
    · intro k hk
      rcases List.mem_cons.mp hk with rfl | hk
      · exact List.pairwise_map.mpr (serials_copyGroup supply g)
      · exact hrest.serials k hk

/-- Two styles of groups and their copies, where the first style stands before the second. -/
def Agree (x y : Style V × Style V) : Prop :=
  (x.2.block.number = y.2.block.number ↔ x.1.block.number = y.1.block.number) ∧
    (x.1.block.number = y.1.block.number → x.1.serial ≤ y.1.serial ∧ x.2.serial < y.2.serial)

theorem agree_copies (h : Groups gs) (supply : Supply) : (copies supply gs).flatten.Pairwise Agree := by
  have hrising := rising_copies h.nonempty supply
  have hgs := fst_copies supply gs
  have hmem : ∀ p ∈ copies supply gs, p.map Prod.fst ∈ gs := by
    intro p hp
    rw [← hgs]
    exact List.mem_map_of_mem hp
  have hcopy : ∀ p ∈ copies supply gs, p.map Prod.snd ∈ (copies supply gs).map (·.map Prod.snd) := by
    intro p hp
    exact List.mem_map_of_mem hp
  rw [List.pairwise_flatten]
  constructor
  · intro p hp
    have hmade := List.pairwise_map.mp (h.made _ (hmem p hp))
    have hserial := List.pairwise_map.mp (hrising.serials _ (hcopy p hp))
    refine (hmade.and hserial).imp_of_mem ?_
    intro x y hx hy hxy
    have h1 := h.block _ (hmem p hp) _ (List.mem_map_of_mem hx) _ (List.mem_map_of_mem hy)
    have h2 := hrising.block _ (hcopy p hp) _ (List.mem_map_of_mem hx) _ (List.mem_map_of_mem hy)
    exact ⟨⟨fun _ => h1, fun _ => h2⟩, fun _ => hxy⟩
  · have hd := h.distinct
    rw [← hgs] at hd
    have hold := List.pairwise_map.mp hd
    have hnew := List.pairwise_map.mp hrising.numbers
    refine (hold.and hnew).imp ?_
    intro p q hpq x hx y hy
    have h1 := hpq.1 _ (List.mem_map_of_mem hx) _ (List.mem_map_of_mem hy)
    have h2 := hpq.2 _ (List.mem_map_of_mem hx) _ (List.mem_map_of_mem hy)
    exact ⟨⟨fun e => absurd e (Nat.ne_of_lt h2), fun e => absurd e h1⟩, fun e => absurd e h1⟩

/-- Groups and their copies match, in whatever order the styles come on both sides. -/
theorem matching_copies {as bs : List (Style V)} (h : Groups gs) (supply : Supply) (ha : gs.flatten.Perm as)
    (hb : ((copies supply gs).flatten.map Prod.snd).Perm bs) : Matching as bs (copies supply gs).flatten := by
  have hagree : ∀ x ∈ (copies supply gs).flatten, ∀ y ∈ (copies supply gs).flatten, x ≠ y → Agree x y ∨ Agree y x := by
    have : Std.Symm fun x y : Style V × Style V => Agree x y ∨ Agree y x := ⟨fun _ _ => Or.symm⟩
    intro x hx y hy hne
    exact ((agree_copies h supply).imp Or.inl).forall (R := fun x y => Agree x y ∨ Agree y x) hx hy hne
  refine ⟨?_, hb, ?_, ?_, ?_⟩
  · rw [List.map_flatten, fst_copies]
    exact ha
  · intro x hx
    obtain ⟨p, hp, hxp⟩ := List.mem_flatten.mp hx
    obtain ⟨h1, h2, -⟩ := mem_copies hp x hxp
    exact ⟨h1, h2⟩
  · intro x hx y hy
    by_cases e : x = y
    · subst e; simp
    · rcases hagree x hx y hy e with hxy | hyx
      · exact hxy.1
      · rw [eq_comm, hyx.1, eq_comm]
  · intro x hx y hy hn hs
    by_cases e : x = y
    · subst e; exact absurd hs (Nat.lt_irrefl _)
    · rcases hagree x hx y hy e with hxy | hyx
      · exact (hxy.2 hn).2
      · have hle := (hyx.2 hn.symm).1
        omega

/-! ## Groups that are made again -/

/-- The group is made again when its rule is read: it is of one block, its chains can be written, and
    its declarations give themselves again. -/
structure Stable (host : Host σ V) (memory : σ) (r : Rendering V) (g : List (Style V)) : Prop where
  nonempty : g ≠ []
  block : ∀ x ∈ g, ∀ y ∈ g, x.block = y.block
  chains : ∀ x ∈ g, x.chain.Writable
  echoes : ∀ x ∈ g, ∀ e ∈ x.block.declarations.entries, Echoes host memory r e.1 e.2

variable {g : List (Style V)}

theorem legible_of_stable (h : Stable host memory r g) : Legible r g := by
  refine ⟨h.nonempty, h.chains, ?_⟩
  obtain ⟨x, xs, rfl⟩ := List.exists_cons_of_ne_nil h.nonempty
  intro d hd
  obtain ⟨e, he, hone⟩ := List.mem_filterMap.mp hd
  have hecho := h.echoes x List.mem_cons_self e he
  obtain ⟨name, hw, hn, -⟩ := writtenOne_of_echoes hecho
  rw [hw] at hone
  cases hone
  exact ⟨hn, hecho.value⟩

theorem madeRule_ruleOf (h : Stable host memory r g) (supply : Supply) :
    madeRule host memory supply (ruleOf r g) =
      ⟨(copyGroup supply g).map Prod.snd, memory, afterGroup supply g⟩ := by
  obtain ⟨x, xs, rfl⟩ := List.exists_cons_of_ne_nil h.nonempty
  have hdeclared : declareAll host memory .empty (ruleOf r (x :: xs)).declarations = (memory, x.block.declarations) :=
    declareAll_written (h.echoes x List.mem_cons_self)
  have hchains : (ruleOf r (x :: xs)).chains.map Trail.chain = (x :: xs).map (·.chain) := by
    simp only [ruleOf, List.map_map]
    apply List.map_congr_left
    intro y hy
    exact chain_trailOf (h.chains y hy)
  have hcopies : (copyGroup supply (x :: xs)).map Prod.snd =
      (((x :: xs).map (·.chain)).zipIdx supply.serial).map fun c =>
        Style.of c.1 ⟨supply.block, x.block.declarations⟩ c.2 := by
    rw [List.zipIdx_map, copyGroup, List.map_map, List.map_map]
    apply List.map_congr_left
    intro e he
    have hblock := h.block e.1 (List.fst_mem_of_mem_zipIdx he) x List.mem_cons_self
    simp [hblock]
  unfold madeRule
  rw [hchains, hcopies, hdeclared]
  simp [Supply.newBlock, Supply.newStyles, afterGroup]

theorem made_rules (h : ∀ g ∈ gs, Stable host memory r g) (supply : Supply) :
    (made host memory supply (gs.map (ruleOf r))).styles = (copies supply gs).flatten.map Prod.snd ∧
      (made host memory supply (gs.map (ruleOf r))).memory = memory := by
  induction gs generalizing supply with
  | nil => exact ⟨rfl, rfl⟩
  | cons g gs ih =>
    have hrest := ih (fun k hk => h k (List.mem_cons_of_mem _ hk)) (afterGroup supply g)
    rw [List.map_cons, made, madeRule_ruleOf (h g List.mem_cons_self)]
    exact ⟨by simp [copies, hrest.1], hrest.2⟩

/-! ## Reading what was written -/

variable {s : Sheet V} {indent : String}

theorem stable_byBlock (hshare : Sharing s.styles) (hchains : ∀ x ∈ s.styles, x.chain.Writable)
    (hecho : ∀ x ∈ s.styles, ∀ e ∈ x.block.declarations.entries, Echoes host memory r e.1 e.2) :
    ∀ g ∈ byBlock s.styles, Stable host memory r g := by
  intro g hg
  have hgroups := groups_byBlock s.styles
  have hmem : ∀ x ∈ g, x ∈ s.styles := by
    intro x hx
    exact (perm_byBlock s.styles).mem_iff.mp (List.mem_flatten.mpr ⟨g, hg, hx⟩)
  refine ⟨?_, ?_, fun x hx => hchains x (hmem x hx), fun x hx => hecho x (hmem x hx)⟩
  · rintro rfl
    exact hgroups.nonempty hg
  · intro x hx y hy
    exact hshare x (hmem x hx) y (hmem y hy) (hgroups.block g hg x hx y hy)

/-- Reading the text makes copies of the groups, in the order of the entries. -/
theorem parse_entries (hi : Blank (Utf8.bytes indent)) (he : gs.map (Entry.ofStyles indent r) = s.entries indent r)
    (hg : ∀ g ∈ gs, Stable host memory r g) (supply : Supply) :
    (parse host memory supply (s.toText indent r)).result =
      .ok (ofStyles ((copies supply gs).flatten.map Prod.snd)) := by
  have htext := sheetText_toText hi he fun g hg' => legible_of_stable (hg g hg')
  rw [parse_of_sheet host memory supply htext, (made_rules hg supply).1]

/-- Writing a sheet and reading the text loses nothing of the styles: their chains and declarations, which
    of them share a block, and in what order those that share one were made. -/
theorem parse_toText (hshare : Sharing s.styles) (hchains : ∀ x ∈ s.styles, x.chain.Writable)
    (hecho : ∀ x ∈ s.styles, ∀ e ∈ x.block.declarations.entries, Echoes host memory r e.1 e.2)
    (hi : Blank (Utf8.bytes indent)) (supply : Supply) :
    ∃ t, (parse host memory supply (s.toText indent r)).result = .ok t ∧ Remade s.styles t.styles := by
  obtain ⟨gs, hperm, he⟩ := exists_entries s indent r
  have hstable : ∀ g ∈ gs, Stable host memory r g := by
    intro g hg
    exact stable_byBlock hshare hchains hecho g (hperm.mem_iff.mp hg)
  have hgroups : Groups gs := groups_perm (groups_byBlock s.styles) hperm.symm
  refine ⟨_, parse_entries hi he hstable supply, _, matching_copies hgroups supply ?_ (perm_ofStyles _).symm⟩
  exact hperm.flatten.trans (perm_byBlock s.styles)

/-- `#d` has an empty block, and `.b` and `a > c` share another. -/
def threeStyles : Sheet String where
  styles :=
    let filled : Block String := ⟨1, { entries := [(0, "red"), (1, "1px")], sorted := by decide }⟩
    [Style.of ⟨[{ id := "d" }]⟩ ⟨0, .empty⟩ 0, Style.of ⟨[{ classes := ["b"] }]⟩ filled 1,
      Style.of ⟨[{ tag := "a", combinator := .child }, { tag := "c" }]⟩ filled 2]

def paintNames : NameTable := ⟨["fill", "stroke"]⟩

theorem declared_threeStyles {x : Style String} {e : PropertyId × String} (hx : x ∈ threeStyles.styles)
    (he : e ∈ x.block.declarations.entries) : e = (0, "red") ∨ e = (1, "1px") := by
  simp only [threeStyles, List.mem_cons, List.not_mem_nil, or_false] at hx
  rcases hx with rfl | rfl | rfl
  · cases he
  · simpa [Style.of] using he
  · simpa [Style.of] using he

theorem parse_toText_threeStyles :
    ∃ t, (parse NameTable.host paintNames {} (threeStyles.toText "\t" paintNames.rendering)).result = .ok t ∧
      Remade threeStyles.styles t.styles := by
  have hchains : ∀ x ∈ threeStyles.styles, x.chain.Writable := by
    intro x hx
    simp only [threeStyles, List.mem_cons, List.not_mem_nil, or_false] at hx
    rcases hx with rfl | rfl | rfl
    · exact ⟨[], _, rfl, by simp, ⟨rfl, by decide, by decide, by decide⟩, rfl⟩
    · exact ⟨[], _, rfl, by simp, ⟨rfl, by decide, by decide, by decide⟩, rfl⟩
    · refine ⟨[_], _, rfl, ?_, ⟨rfl, by decide, by decide, by decide⟩, rfl⟩
      intro s hs
      rw [List.mem_singleton.mp hs]
      exact ⟨⟨rfl, by decide, by decide, by decide⟩, by decide⟩
  have hecho : ∀ x ∈ threeStyles.styles, ∀ e ∈ x.block.declarations.entries,
      Echoes NameTable.host paintNames paintNames.rendering e.1 e.2 := by
    intro x hx e he
    rcases declared_threeStyles hx he with rfl | rfl
    · exact ⟨⟨"fill", rfl, by decide, rfl⟩, by decide, rfl⟩
    · exact ⟨⟨"stroke", rfl, by decide, rfl⟩, by decide, rfl⟩
  exact parse_toText (by decide) hchains hecho (by decide) {}

/-! ## Writing what was read -/

theorem entry_copyGroup {p : List (Style V × Style V)}
    (h : ∀ x ∈ p, x.2.chain = x.1.chain ∧ x.2.block.declarations = x.1.block.declarations) :
    Entry.ofStyles indent r (p.map Prod.snd) = Entry.ofStyles indent r (p.map Prod.fst) := by
  have hchains : (p.map Prod.snd).map (·.chain.text) = (p.map Prod.fst).map (·.chain.text) := by
    rw [List.map_map, List.map_map]
    apply List.map_congr_left
    intro x hx
    simp [(h x hx).1]
  unfold Entry.ofStyles
  rw [hchains]
  cases p with
  | nil => rfl
  | cons x p => simp [(h x List.mem_cons_self).2]

/-- A sheet that is made again from the entries of another has the same entries. -/
theorem entries_copies {t : Sheet V} (he : gs.map (Entry.ofStyles indent r) = s.entries indent r) (hne : [] ∉ gs)
    (ht : t.styles.Perm ((copies supply gs).flatten.map Prod.snd)) : t.entries indent r = s.entries indent r := by
  have hblocks : byBlock t.styles = (copies supply gs).map (·.map Prod.snd) := by
    refine byBlock_eq (rising_copies hne supply) ?_
    rw [← List.map_flatten]
    exact ht
  have hentries : (byBlock t.styles).map (Entry.ofStyles indent r) = s.entries indent r := by
    rw [← he, hblocks, List.map_map, ← fst_copies supply gs, List.map_map, fst_copies]
    apply List.map_congr_left
    intro p hp
    apply entry_copyGroup
    intro x hx
    obtain ⟨h1, h2, -⟩ := mem_copies hp x hx
    exact ⟨h1, h2⟩
  unfold entries
  rw [hentries]
  -- they are in place already
  exact List.mergeSort_of_pairwise (sorted_entries s indent r)

/-- Where every value is taken as it is, the values of a sheet that was read can be read, and its chains
    can be written. -/
theorem legible_read {host : Host σ String} (hval : ∀ m p text, host.interpret m p text = (some text, m))
    {source : List Reply} {s : Sheet String} (hs : (read host memory supply source).result = .ok s) :
    Sharing s.styles ∧ (∀ x ∈ s.styles, x.chain.Writable) ∧
      ∀ x ∈ s.styles, ∀ e ∈ x.block.declarations.entries, Value e.2 := by
  have hchains := writable_of_read hs
  obtain ⟨-, rs, htext, rfl⟩ := (read_eq_ok_iff host).mp hs
  have hmem : ∀ x ∈ (ofStyles (made host memory supply rs).styles).styles, x ∈ (made host memory supply rs).styles := by
    intro x hx
    exact (perm_ofStyles _).mem_iff.mp hx
  refine ⟨?_, hchains, ?_⟩
  · intro x hx y hy
    exact sharing_made host memory supply rs x (hmem x hx) y (hmem y hy)
  · intro x hx e he
    obtain ⟨-, rule, hrule, -, before, hds⟩ := mem_made (hmem x hx)
    rw [hds] at he
    rcases mem_declareAll he with he | ⟨d, hd, m, m', p, hint⟩
    · cases he
    · rw [hval] at hint
      have hvalue : d.2 = e.2 := Option.some.inj (Prod.mk.inj hint).1
      rw [← hvalue]
      exact ((parts_of_sheet htext rule hrule).2 d hd).2

/-- The text of a sheet that was read does not change when it is read and written again. -/
theorem toText_parse_toText {host : Host σ String} {r : Rendering String}
    (hval : ∀ m p text, host.interpret m p text = (some text, m)) (hr : ∀ p v, r.value p v = v)
    {source : List Reply} {s : Sheet String} (hs : (read host memory supply source).result = .ok s)
    (hnamed : ∀ x ∈ s.styles, ∀ e ∈ x.block.declarations.entries,
      Named host (read host memory supply source).memory r e.1)
    (hi : Blank (Utf8.bytes indent)) (supply' : Supply) :
    ∃ t, (parse host (read host memory supply source).memory supply' (s.toText indent r)).result = .ok t ∧
      t.toText indent r = s.toText indent r := by
  obtain ⟨hshare, hchains, hvalues⟩ := legible_read hval hs
  have hecho : ∀ x ∈ s.styles, ∀ e ∈ x.block.declarations.entries,
      Echoes host (read host memory supply source).memory r e.1 e.2 := by
    intro x hx e he
    refine ⟨hnamed x hx e he, ?_, ?_⟩
    · rw [hr]
      exact hvalues x hx e he
    · rw [hr, hval]
  obtain ⟨gs, hperm, he⟩ := exists_entries s indent r
  have hstable : ∀ g ∈ gs, Stable host (read host memory supply source).memory r g := by
    intro g hg
    exact stable_byBlock hshare hchains hecho g (hperm.mem_iff.mp hg)
  have hne : [] ∉ gs := by
    intro hn
    exact (hstable [] hn).nonempty rfl
  refine ⟨_, parse_entries hi he hstable supply', ?_⟩
  unfold toText
  rw [entries_copies he hne (perm_ofStyles _)]

/-- A text of the three styles, in two reads. -/
def threeReplies : List Reply :=
  [.bytes (Utf8.bytes "#d\x7b\x7d .b,a>c\x7bfill : red;;str"), .interrupted, .bytes (Utf8.bytes "oke:1px \x7d")]

/-- The empty block is written first. -/
theorem toText_threeStyles : threeStyles.toText " " paintNames.rendering =
    " #d \x7b\n \x7d\n .b, a > c \x7b\n \tfill: red;\n \tstroke: 1px;\n \x7d\n" := by
  have hrising : Rising [threeStyles.styles.take 1, threeStyles.styles.drop 1] :=
    ⟨by decide, by decide, by decide, by decide⟩
  rw [toText_of_rising (s := threeStyles) hrising (List.Perm.refl _), if_pos (by decide +kernel)]
  rfl

/-- The styles that are read, their text, and that the text is the same after another reading. -/
theorem toText_parse_toText_threeReplies :
    (read NameTable.host {} {} threeReplies).result = .ok threeStyles ∧
      threeStyles.styles.map (fun x => (x.chain.text, x.block.number, x.block.declarations.entries)) =
        [("#d", 0, []), (".b", 1, [(0, "red"), (1, "1px")]), ("a > c", 1, [(0, "red"), (1, "1px")])] ∧
      threeStyles.toText " " paintNames.rendering =
        " #d \x7b\n \x7d\n .b, a > c \x7b\n \tfill: red;\n \tstroke: 1px;\n \x7d\n" ∧
      ∃ t, (parse NameTable.host (read NameTable.host {} {} threeReplies).memory {}
          (threeStyles.toText " " paintNames.rendering)).result = .ok t ∧
        t.toText " " paintNames.rendering = threeStyles.toText " " paintNames.rendering := by
  have hsort : ofStyles threeStyles.styles = threeStyles := sort_eq (by decide)
  have hread : (read NameTable.host {} {} threeReplies).result = .ok threeStyles := by
    rw [← hsort]
    rfl
  have hnamed : ∀ x ∈ threeStyles.styles, ∀ e ∈ x.block.declarations.entries,
      Named NameTable.host (read NameTable.host {} {} threeReplies).memory paintNames.rendering e.1 := by
    intro x hx e he
    rcases declared_threeStyles hx he with rfl | rfl
    · exact ⟨"fill", rfl, by decide, rfl⟩
    · exact ⟨"stroke", rfl, by decide, rfl⟩
  refine ⟨hread, by decide, toText_threeStyles, ?_⟩
  exact toText_parse_toText (fun _ _ _ => rfl) (fun _ _ => rfl) hread hnamed (by decide) {}

end Cascade.Sheet
