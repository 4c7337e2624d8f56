/-
  Cascade.Proofs.Sheet.Multiset — the text of a sheet says which styles the sheet has, and
  nothing of how it came to have them.

  1. Styles with one serial number are one style. So the styles of each block, in the order
     in which they were made, are the same whatever the order in the sheet
     (`byBlock_perm`), and their ranks play no part (`toText_unranked`).
  2. A text of rules is blanks and then pieces, each a rule with the blanks after it; pieces
     in another order are a text as well (`sheet_pieces`, `pieces_of_sheet`). Every rule
     is an entry of its own, and entries are put into one order only.

  Both are in `toText_unordered`.
-/

import Cascade.Proofs.Sheet.Entries
import Cascade.Proofs.Sheet.Gathered
import Cascade.Proofs.Sheet.Genuine

namespace Cascade

open Grammar

variable {σ V : Type} {r : Rendering V} {indent : String}

/-- What a style is, whatever its rank: its chain, its block and its serial number. -/
def Style.identity (x : Style V) : Chain × Block V × Nat := (x.chain, x.block, x.serial)

namespace Sheet

/-! ## The order of the styles -/

/-- A serial number is that of one style. -/
def Told (styles : List (Style V)) : Prop := ∀ x ∈ styles, ∀ y ∈ styles, x.serial = y.serial → x = y

theorem byBlock_perm {xs ys : List (Style V)} (h : Told xs) (hp : xs.Perm ys) : byBlock xs = byBlock ys := by
  unfold byBlock
  rw [mergeSort_of_perm madeBefore_trans madeBefore_total ?_ hp]
  intro x hx y hy hxy hyx
  -- two styles that are level are on one block and have one serial number
  have hnumber := Nat.le_antisymm (number_le hxy) (number_le hyx)
  exact h x hx y hy (Nat.le_antisymm (serial_le hxy hnumber) (serial_le hyx hnumber.symm))

/-! ## The ranks -/

/-- The style at the lowest rank. -/
def unranked (x : Style V) : Style V := { x with specificity := ⟨0⟩ }

theorem toText_unranked (styles : List (Style V)) : toText ⟨styles.map unranked⟩ indent r = toText ⟨styles⟩ indent r :=
  toText_map (fun _ _ _ _ => rfl) (fun _ _ _ _ => rfl) (fun _ => rfl) fun _ => rfl

/-- The text depends on which styles there are, not on their order or their ranks. -/
theorem toText_perm {s t : Sheet V} (h : Told s.styles)
    (hp : (t.styles.map Style.identity).Perm (s.styles.map Style.identity)) :
    t.toText indent r = s.toText indent r := by
  have hlowest : (t.styles.map unranked).Perm (s.styles.map unranked) := by
    have hmap := hp.map fun k => (⟨k.1, k.2.1, ⟨0⟩, k.2.2⟩ : Style V)
    rwa [List.map_map, List.map_map] at hmap
  have htold : Told (s.styles.map unranked) := by
    intro x hx y hy hserial
    obtain ⟨a, ha, rfl⟩ := List.mem_map.mp hx
    obtain ⟨b, hb, rfl⟩ := List.mem_map.mp hy
    rw [h a ha b hb hserial]
  rw [← toText_unranked t.styles, ← toText_unranked s.styles]
  unfold toText entries
  rw [byBlock_perm htold hlowest.symm]

/-! ## The sheets of a program -/

variable {st : Store V}

theorem told_of_sound (h : st.Sound) {styles : List (Style V)} (hs : ∀ x ∈ styles, st.Holds x) : Told styles :=
  fun x hx y hy => h.sameStyle x y (hs x hx) (hs y hy)

theorem step_append {i j : Nat} (h : i ≠ j) :
    (st.step (.append i j)).sheet i = ofStyles ((st.sheet i).styles ++ (st.sheet j).styles) := by
  simp [Store.step, h, append]

theorem toText_append (h : st.Sound) (i j : Nat) :
    ((st.step (.append i j)).sheet i).toText indent r = ((st.step (.append j i)).sheet j).toText indent r := by
  by_cases e : i = j
  · rw [e]
  rw [step_append e, step_append (Ne.symm e)]
  have hperm : ((st.sheet j).styles ++ (st.sheet i).styles).Perm ((st.sheet i).styles ++ (st.sheet j).styles) :=
    List.perm_append_comm
  apply toText_perm
  · apply told_of_sound h
    intro x hx
    rcases List.mem_append.mp ((perm_ofStyles _).mem_iff.mp hx) with hx | hx
    · exact Or.inr ⟨j, hx⟩
    · exact Or.inr ⟨i, hx⟩
  · exact (((perm_ofStyles _).trans hperm.symm).trans (perm_ofStyles _).symm).map _

/-! ## The order of the rules -/

/-- The text of a rule and the blanks after it. -/
structure Piece where
  text : List UInt8
  after : List UInt8
  rule : Rule
  isRule : RuleText text rule
  isBlank : Blank after

def Piece.bytes (p : Piece) : List UInt8 := p.text ++ p.after

theorem sheet_pieces {bs : List UInt8} {rs : List Rule} (h : SheetText bs rs) (ps : List Piece) :
    SheetText (bs ++ ps.flatMap Piece.bytes) (rs ++ ps.map Piece.rule) := by
  induction ps generalizing bs rs with
  | nil => simpa using h
  | cons p ps ih => simpa [Piece.bytes] using ih (h.rule p.isRule p.isBlank)

theorem pieces_of_sheet {bs : List UInt8} {rs : List Rule} (h : SheetText bs rs) :
    ∃ (w : List UInt8) (ps : List Piece), Blank w ∧ bs = w ++ ps.flatMap Piece.bytes ∧ rs = ps.map Piece.rule := by
  induction h with
  | blank hw => exact ⟨_, [], hw, by simp, rfl⟩
  | rule _ hq hv ih =>
    obtain ⟨w, ps, hw, rfl, rfl⟩ := ih
    exact ⟨w, ps ++ [⟨_, _, _, hq, hv⟩], hw, by simp [Piece.bytes], by simp⟩

/-- Each of the rules leaves the host with the memory that it had; one with a fixed table of names has no other. -/
def Unmoved (host : Host σ V) (memory : σ) (rs : List Rule) : Prop :=
  ∀ rule ∈ rs, (declareAll host memory .empty rule.declarations).1 = memory

theorem toText_made {host : Host σ V} {memory : σ} {rs ss : List Rule} (hc : ∀ rule ∈ rs, rule.chains ≠ [])
    (hm : Unmoved host memory rs) (hp : rs.Perm ss) (supply supply' : Supply) :
    (ofStyles (made host memory supply rs).styles).toText indent r =
      (ofStyles (made host memory supply' ss).styles).toText indent r := by
  have hc' : ∀ rule ∈ ss, rule.chains ≠ [] := fun rule h => hc rule (hp.mem_iff.mpr h)
  have hm' : Unmoved host memory ss := fun rule h => hm rule (hp.mem_iff.mpr h)
  unfold toText
  rw [entries_made hc hm, entries_made hc' hm', sort_entries (hp.map _)]

/-- The source hands over blanks and then these pieces, and does not fail. -/
def Gives (source : List Reply) (w : List UInt8) (ps : List Piece) : Prop :=
  Source.halt? source = none ∧ Source.served source = w ++ ps.flatMap Piece.bytes

theorem read_of_gives {host : Host σ V} {source : List Reply} {w : List UInt8} {ps : List Piece}
    (h : Gives source w ps) (hw : Blank w) (memory : σ) (supply : Supply) :
    (read host memory supply source).result = .ok (ofStyles (made host memory supply (ps.map Piece.rule)).styles) := by
  have hsheet := sheet_pieces (.blank hw) ps
  rw [read_of_sheet host memory supply (h.2 ▸ hsheet) h.1, List.nil_append]

/-! ## The text -/

/-- The text of a sheet depends on the chains, blocks and serial numbers of its styles, not on their order in the sheet
    or on their ranks, and so it is the same whichever of two sheets is appended to the other; one pass over the sheet
    in its order writes it too. The rules of a text that is read may stand in any order, where the host's names are
    fixed. -/
theorem toText_unordered (actions : List (Action V)) (indent : String) (r : Rendering V) :
    (∀ (i : Nat) (t : Sheet V),
        (t.styles.map Style.identity).Perm (((Store.after actions).sheet i).styles.map Style.identity) →
          t.toText indent r = ((Store.after actions).sheet i).toText indent r) ∧
      (∀ i j : Nat,
        (((Store.after actions).step (.append i j)).sheet i).toText indent r =
          (((Store.after actions).step (.append j i)).sheet j).toText indent r) ∧
      (∀ s : Sheet V, s.gatheredText indent r = s.toText indent r) ∧
      ∀ {σ : Type} (host : Host σ V) (memory : σ) (supply : Supply) (source : List Reply),
        (∀ s, (read host memory supply source).result = .ok s → ∃ w ps, Blank w ∧ Gives source w ps) ∧
          ∀ w ps, Blank w → Gives source w ps → Unmoved host memory (ps.map Piece.rule) →
            ∀ v qs, Blank v → ps.Perm qs → ∀ (supply' : Supply) (source' : List Reply), Gives source' v qs →
              ∃ s t, (read host memory supply source).result = .ok s ∧
                (read host memory supply' source').result = .ok t ∧ t.toText indent r = s.toText indent r := by
  have hsound := Store.sound_after actions
  refine ⟨fun i t hp => ?_, fun i j => toText_append hsound i j, fun s => gatheredText_eq s indent r, ?_⟩
  · exact toText_perm (told_of_sound hsound fun x hx => Or.inr ⟨i, hx⟩) hp
  intro σ host memory supply source
  refine ⟨fun s hs => ?_, ?_⟩
  · obtain ⟨hhalt, rs, hsheet, -⟩ := (read_eq_ok_iff host).mp hs
    obtain ⟨w, ps, hw, hbytes, -⟩ := pieces_of_sheet hsheet
    exact ⟨w, ps, hw, hhalt, hbytes⟩
  · intro w ps hw hgives hm v qs hv hp supply' source' hgives'
    have hc : ∀ rule ∈ ps.map Piece.rule, rule.chains ≠ [] := chains_ne_nil (sheet_pieces (.blank hw) ps)
    refine ⟨_, _, read_of_gives hgives hw memory supply, read_of_gives hgives' hv memory supply', ?_⟩
    exact (toText_made hc hm (hp.map _) supply supply').symm

/-- The text of a rule with one declaration. -/
def fillPiece (tag value : String) (ht : Ident tag) (hv : Value value) : Piece where
  text := Utf8.bytes tag ++ 0x7B :: (Utf8.bytes "fill" ++ 0x3A :: Utf8.bytes value ++ [0x7D])
  after := []
  rule := ⟨[⟨[], [⟨.tag, tag⟩]⟩], [("fill", value)]⟩
  isRule := by
    have hselector : IsSelector [⟨.tag, tag⟩] := ⟨by simp, by simpa using ht, by simp⟩
    have hhead := HeadText.one (.mk .nil hselector) blank_nil
    have hname : Name "fill" := by decide
    have hclause := ClauseText.declaration blank_nil hname blank_nil blank_nil hv blank_nil
    simpa [Component.bytes, mark] using RuleText.mk hhead (.one hclause)
  isBlank := blank_nil

/-- Two styles on one block, of which the second made ranks higher. -/
def rectThenId : List (Action String) :=
  [.block (.ofList [(0, "red")]), .style ⟨[{ tag := "rect" }]⟩ 0, .style ⟨[{ id := "x" }]⟩ 0, .ofStyles 0 [0, 1]]

theorem toText_unordered_twoOrders :
    (∃ s t, (parse NameTable.host paintNames {} "b\x7bfill:1\x7da\x7bfill:2\x7d").result = .ok s ∧
        (parse NameTable.host paintNames {} "a\x7bfill:2\x7db\x7bfill:1\x7d").result = .ok t ∧
          t.toText "" paintNames.rendering = s.toText "" paintNames.rendering) ∧
      toText ⟨((Store.after rectThenId).sheet 0).styles.reverse⟩ "" paintNames.rendering =
        ((Store.after rectThenId).sheet 0).toText "" paintNames.rendering := by
  obtain ⟨hsheets, -, -, hrules⟩ := toText_unordered rectThenId "" paintNames.rendering
  let b := fillPiece "b" "1" (by decide) (by decide)
  let a := fillPiece "a" "2" (by decide) (by decide)
  have hgives (css : String) {ps : List Piece} (h : Utf8.bytes css = ps.flatMap Piece.bytes) :
      Gives (Source.replies (Utf8.bytes css)) [] ps := by
    obtain ⟨hserved, hhalt⟩ := Source.served_replies (Utf8.bytes css)
    exact ⟨hhalt, hserved.trans h⟩
  have hunmoved : Unmoved NameTable.host paintNames ([b, a].map Piece.rule) := by
    intro rule hrule
    simp only [List.map_cons, List.map_nil, List.mem_cons, List.not_mem_nil, or_false] at hrule
    rcases hrule with rfl | rfl <;> rfl
  refine ⟨?_, hsheets 0 _ ((List.reverse_perm _).map _)⟩
  exact (hrules NameTable.host paintNames {} _).2 [] [b, a] blank_nil (hgives _ (by decide)) hunmoved [] [a, b] blank_nil
    (.swap a b []) {} _ (hgives _ (by decide))

end Sheet

end Cascade
