/-
  Cascade.Proofs.Selector.Readback — reading undoes writing, for chains. The texts of
  chains, joined by commas, are a `heading`; with an empty block after it, it is a sheet of
  one rule (`sheet_heading`). A reader gets through it to the end, and a builder makes of
  what was reported one style for each chain, in order (`built_heading`), so that nothing
  of a chain is lost in its text: no two well formed chains have the same one
  (`text_injective`).
-/

import Cascade.Proofs.Reader.Language
import Cascade.Proofs.Selector.WellFormed
import Cascade.Proofs.Sheet.Text

namespace Cascade

open Grammar

/-- Chains as they stand before a block. -/
def heading (cs : List Chain) : String := ", ".intercalate (cs.map Chain.text)

/-- The rule of these chains that declares nothing. -/
def bareRule (cs : List Chain) : Rule := ⟨cs.map trailOf, []⟩

variable {σ V : Type} {cs : List Chain} {c d : Chain}

theorem heading_singleton (c : Chain) : heading [c] = c.text := by simp [heading]

/-! ## Headings are read -/

theorem sheet_heading (hne : cs ≠ []) (h : ∀ c ∈ cs, c.WellFormed) :
    SheetText (Utf8.bytes (heading cs ++ " \x7b\x7d")) [bareRule cs] := by
  have hhead : HeadText (Utf8.bytes (heading cs)) (cs.map trailOf) :=
    Sheet.head_chains hne fun c hc => Chain.wellFormed_iff_writable.mp (h c hc)
  have hrule := RuleText.mk (Sheet.head_blank hhead (blank_singleton (b := 0x20) rfl)) (.one (.empty blank_nil))
  have hend : Utf8.bytes " \x7b\x7d" = [0x20, 0x7B, 0x7D] := rfl
  simpa [bareRule, hend] using (SheetText.blank blank_nil).rule hrule blank_nil

theorem chains_bareRule (h : ∀ c ∈ cs, c.WellFormed) : (bareRule cs).chains.map Trail.chain = cs := by
  have hback : ∀ c ∈ cs, (Trail.chain ∘ trailOf) c = id c :=
    fun c hc => chain_trailOf (Chain.wellFormed_iff_writable.mp (h c hc))
  rw [bareRule, List.map_map, List.map_congr_left hback, List.map_id]

/-- A builder makes one style for each chain of a heading, in order, all on one block without declarations. -/
theorem built_heading (host : Host σ V) (memory : σ) (supply : Supply) (hne : cs ≠ [])
    (h : ∀ c ∈ cs, c.WellFormed) :
    (({ memory } : Builder σ V).addAll host supply
        (({} : Reader).run (Utf8.bytes (heading cs ++ " \x7b\x7d"))).events).1.finished =
      (made host memory supply [bareRule cs]).styles := by
  rw [(Reader.accepted_of_sheet (sheet_heading hne h)).2]
  have hmade := Builder.addAll_events host supply memory [] [bareRule cs]
  rw [show ({ memory } : Builder σ V) = Builder.between memory [] from rfl, hmade]
  simp [Builder.between, Builder.finished]

theorem chains_built (host : Host σ V) (memory : σ) (supply : Supply) (h : ∀ c ∈ cs, c.WellFormed) :
    (made host memory supply [bareRule cs]).styles.map (·.chain) = cs := by
  rw [chains_made]
  simpa using chains_bareRule h

/-- Headings with the same text are of the same chains. -/
theorem heading_injective {cs ds : List Chain} (hcs : cs ≠ []) (hds : ds ≠ []) (hc : ∀ c ∈ cs, c.WellFormed)
    (hd : ∀ d ∈ ds, d.WellFormed) (h : heading cs = heading ds) : cs = ds := by
  -- the host plays no part: any will do
  let host : Host Unit Unit := ⟨fun _ _ => (none, ()), fun _ _ _ => (none, ())⟩
  have hstyles : (made host () {} [bareRule cs]).styles = (made host () {} [bareRule ds]).styles := by
    rw [← built_heading host () {} hcs hc, ← built_heading host () {} hds hd, h]
  rw [← chains_built host () {} hc, hstyles, chains_built host () {} hd]

theorem text_injective (hc : c.WellFormed) (hd : d.WellFormed) (h : c.text = d.text) : c = d := by
  have hheading : heading [c] = heading [d] := by rw [heading_singleton, heading_singleton, h]
  have hsame : [c] = [d] :=
    heading_injective (List.cons_ne_nil c []) (List.cons_ne_nil d []) (by simpa using hc) (by simpa using hd) hheading
  exact (List.cons.inj hsame).1

/-- A heading and an empty block are read to the end, and the sheet read holds what the builder has made: one style
    for each chain, in the order of the heading. No two chains have the same text. -/
theorem chains_of_heading (host : Host σ V) (memory : σ) (supply : Supply) (hne : cs ≠ [])
    (h : ∀ c ∈ cs, c.WellFormed) :
    let css := heading cs ++ " \x7b\x7d"
    let o := ({} : Reader).run (Utf8.bytes css)
    let built := ({ memory } : Builder σ V).addAll host supply o.events
    (o.ended.fault? = none ∧
      built.1.finished.map (·.chain) = cs ∧
      (Sheet.parse host memory supply css).result = .ok (Sheet.ofStyles built.1.finished)) ∧
    ∀ c d : Chain, c.WellFormed → d.WellFormed → c.text = d.text → c = d := by
  intro css o built
  have hsheet := sheet_heading hne h
  have hfinished : built.1.finished = (made host memory supply [bareRule cs]).styles :=
    built_heading host memory supply hne h
  refine ⟨⟨(Reader.accepted_of_sheet hsheet).1, ?_, ?_⟩, fun c d => text_injective⟩
  · rw [hfinished]
    exact chains_built host memory supply h
  · rw [hfinished, Sheet.parse_of_sheet host memory supply hsheet]

/-- Every combinator, every kind of part, and a second chain after a comma. -/
def fourJoints : List Chain :=
  [⟨[{ tag := "a", id := "b", classes := ["c", "d"], combinator := .descendant },
      { classes := ["ü"], combinator := .child }, { id := "i", combinator := .next },
      { tag := "*", combinator := .subsequent }, { tag := "e", classes := ["f"] }]⟩,
    ⟨[{ tag := "a" }]⟩]

theorem chains_of_heading_fourJoints :
    (fourJoints ≠ [] ∧ ∀ c ∈ fourJoints, c.WellFormed) ∧
      heading fourJoints = "a#b.c.d .ü > #i + * ~ e.f, a" ∧
      (({ memory := {} } : Builder NameTable String).addAll NameTable.host {}
        (({} : Reader).run (Utf8.bytes (heading fourJoints ++ " \x7b\x7d"))).events).1.finished.map (·.chain) =
          fourJoints := by
  have hne : fourJoints ≠ [] := by decide
  have h : ∀ c ∈ fourJoints, c.WellFormed := by decide
  exact ⟨⟨hne, h⟩, by decide, (chains_of_heading NameTable.host {} {} hne h).1.2.1⟩

end Cascade
