/-
  Cascade.Proofs.Sheet.Text — the text of a sheet is the text of rules, one for each
  block: `ruleOf r g` says which rule is written for the styles `g` of a block. Where the
  chains can be written and the names and values that are written can be read, the text
  is derived by the grammar from these rules, in the order of the entries
  (`sheetText_toText`).
-/

import Cascade.Proofs.Selector.Text
import Cascade.Proofs.Sheet.Blocks

namespace Cascade.Sheet

open Grammar

variable {V : Type} {r : Rendering V} {indent : String} {bs : List UInt8}

/-! ## What is written -/

/-- The declaration of `p`, if it is written: a property without a name is not. -/
def writtenOne (r : Rendering V) (p : PropertyId) (v : V) : Option (String × String) :=
  match r.name p with
  | none => none
  | some name => if name.isEmpty then none else some (name, r.value p v)

def written (r : Rendering V) (d : Declarations V) : List (String × String) :=
  d.entries.filterMap fun e => writtenOne r e.1 e.2

def ruleOf (r : Rendering V) (g : List (Style V)) : Rule :=
  ⟨g.map fun x => trailOf x.chain, (g.head?.map fun x => written r x.block.declarations).getD []⟩

/-- The line of a declaration. -/
def line (indent : String) (d : String × String) : String := indent ++ "\t" ++ d.1 ++ ": " ++ d.2 ++ ";\n"

theorem declarationText_eq (indent : String) (r : Rendering V) (p : PropertyId) (v : V) :
    Entry.declarationText indent r p v = String.join ((writtenOne r p v).toList.map (line indent)) := by
  unfold Entry.declarationText writtenOne
  cases r.name p with
  | none => rfl
  | some name =>
    by_cases h : name.isEmpty
    · simp [h]
    · simp [h, line]

theorem declarationsText_eq (indent : String) (r : Rendering V) (d : Declarations V) :
    Entry.declarationsText indent r d = String.join ((written r d).map (line indent)) := by
  unfold Entry.declarationsText written
  induction d.entries with
  | nil => rfl
  | cons e es ih =>
    rw [List.map_cons, String.join_cons, ih, declarationText_eq, List.filterMap_cons]
    cases writtenOne r e.1 e.2 with
    | none => simp
    | some w => simp

/-! ## Blocks -/

theorem body_cons {q : List UInt8} {ds es : List (String × String)} (hq : ClauseText q ds) (h : BodyText bs es) :
    BodyText (q ++ 0x3B :: bs) (ds ++ es) := by
  induction h with
  | one hc => exact .more (.one hq) hc
  | more _ hc ih => simpa using ih.more hc

/-- The lines of a block are its clauses, the last of them empty. -/
theorem body_lines (hi : Blank (Utf8.bytes indent)) {ds : List (String × String)}
    (h : ∀ d ∈ ds, Name d.1 ∧ Value d.2) :
    BodyText (0x0A :: Utf8.bytes (String.join (ds.map (line indent)) ++ indent)) ds := by
  have hend : Blank [0x0A] := blank_singleton rfl
  induction ds with
  | nil =>
    have hw : Blank (0x0A :: Utf8.bytes indent) := blank_append hend hi
    simpa using BodyText.one (.empty hw)
  | cons d ds ih =>
    obtain ⟨hn, hv⟩ := h d List.mem_cons_self
    have hrest := ih fun e he => h e (List.mem_cons_of_mem _ he)
    have hlead : Blank (0x0A :: (Utf8.bytes indent ++ [0x09])) :=
      blank_append hend (blank_append hi (blank_singleton rfl))
    have hclause := ClauseText.declaration hlead hn blank_nil (blank_singleton (b := 0x20) rfl) hv blank_nil
    have hbytes : Utf8.bytes (line indent d) =
        Utf8.bytes indent ++ 0x09 :: (Utf8.bytes d.1 ++ 0x3A :: 0x20 :: (Utf8.bytes d.2 ++ [0x3B, 0x0A])) := by
      unfold line
      simp only [Utf8.bytes_append, List.append_assoc]
      rfl
    have hbody := body_cons hclause hrest
    simpa [Utf8.bytes_append, hbytes] using hbody

/-! ## Heads -/

theorem head_blank {w : List UInt8} {cs : List Trail} (h : HeadText bs cs) (hw : Blank w) : HeadText (bs ++ w) cs := by
  cases h with
  | one hc hv => simpa using HeadText.one hc (blank_append hv hw)
  | more h hu hc hv => simpa using h.more hu hc (blank_append hv hw)

theorem head_append {xs : List Trail} {cs : List Chain} (h : HeadText bs xs) (hc : ∀ c ∈ cs, c.Writable) :
    HeadText (bs ++ Utf8.bytes (String.join (cs.map fun c => ", " ++ c.text))) (xs ++ cs.map trailOf) := by
  induction cs generalizing bs xs with
  | nil => simpa using h
  | cons c cs ih =>
    have hchain := chainText_of_writable (hc c List.mem_cons_self)
    have hstep := h.more (blank_singleton (b := 0x20) rfl) hchain blank_nil
    have hrest := ih hstep fun d hd => hc d (List.mem_cons_of_mem _ hd)
    have hcomma : Utf8.bytes (", " ++ c.text) = 0x2C :: 0x20 :: Utf8.bytes c.text := by
      rw [Utf8.bytes_append]
      rfl
    simpa [Utf8.bytes_append, hcomma] using hrest

theorem intercalate_cons (s t : String) (ts : List String) :
    s.intercalate (t :: ts) = t ++ String.join (ts.map (s ++ ·)) := by
  induction ts generalizing t with
  | nil => simp
  | cons u ts ih =>
    rw [String.intercalate_cons_cons, ih]
    simp [String.append_assoc]

theorem head_chains {cs : List Chain} (hne : cs ≠ []) (hc : ∀ c ∈ cs, c.Writable) :
    HeadText (Utf8.bytes (", ".intercalate (cs.map Chain.text))) (cs.map trailOf) := by
  cases cs with
  | nil => exact absurd rfl hne
  | cons c cs =>
    have hone := HeadText.one (chainText_of_writable (hc c List.mem_cons_self)) blank_nil
    have hrest := head_append hone fun d hd => hc d (List.mem_cons_of_mem _ hd)
    rw [List.map_cons, intercalate_cons, List.map_map]
    simpa [Utf8.bytes_append, Function.comp_def] using hrest

/-! ## Entries -/

/-- The chains of the group can be written, and the names and values that are written can be read. -/
structure Legible (r : Rendering V) (g : List (Style V)) : Prop where
  nonempty : g ≠ []
  chains : ∀ x ∈ g, x.chain.Writable
  declarations : ∀ d ∈ (ruleOf r g).declarations, Name d.1 ∧ Value d.2

theorem declarations_ofStyles (indent : String) (r : Rendering V) {g : List (Style V)} (h : g ≠ []) :
    (Entry.ofStyles indent r g).declarations = String.join ((ruleOf r g).declarations.map (line indent)) := by
  obtain ⟨x, xs, rfl⟩ := List.exists_cons_of_ne_nil h
  simp [Entry.ofStyles, ruleOf, declarationsText_eq]

/-- An entry is the indent, its rule and the end of its last line. -/
theorem rule_entry (hi : Blank (Utf8.bytes indent)) {g : List (Style V)} (h : Legible r g) :
    ∃ q, RuleText q (ruleOf r g) ∧
      Utf8.bytes ((Entry.ofStyles indent r g).text indent) = Utf8.bytes indent ++ q ++ [0x0A] := by
  have hchains : ∀ c ∈ g.map (·.chain), c.Writable := by
    intro c hc
    obtain ⟨x, hx, rfl⟩ := List.mem_map.mp hc
    exact h.chains x hx
  have hhead := head_blank (head_chains (by simpa using h.nonempty) hchains) (blank_singleton (b := 0x20) rfl)
  have hbody := body_lines hi h.declarations
  refine ⟨_, .mk (by simpa [Function.comp_def] using hhead) hbody, ?_⟩
  unfold Entry.text
  rw [declarations_ofStyles indent r h.nonempty]
  simp only [Utf8.bytes_append, List.append_assoc, List.cons_append, Entry.ofStyles]
  rfl

theorem sheet_entries (hi : Blank (Utf8.bytes indent)) {gs : List (List (Style V))} (hg : ∀ g ∈ gs, Legible r g)
    {rs : List Rule} (h : SheetText bs rs) :
    SheetText (bs ++ Utf8.bytes (String.join (gs.map fun g => (Entry.ofStyles indent r g).text indent)))
      (rs ++ gs.map (ruleOf r)) := by
  induction gs generalizing bs rs with
  | nil => simpa using h
  | cons g gs ih =>
    obtain ⟨q, hq, hbytes⟩ := rule_entry hi (hg g List.mem_cons_self)
    have hstep := (sheet_blank h hi).rule hq (blank_singleton (b := 0x0A) rfl)
    have hrest := ih (fun k hk => hg k (List.mem_cons_of_mem _ hk)) hstep
    simpa [Utf8.bytes_append, hbytes] using hrest

/-! ## The order of entries -/

theorem entry_before_iff {a b : Entry} :
    a.before b = true ↔
      a.declarations < b.declarations ∨ (a.declarations = b.declarations ∧ a.selectors ≤ b.selectors) := by
  simp [Entry.before]

theorem entry_before_trans (a b c : Entry) (hab : a.before b = true) (hbc : b.before c = true) : a.before c = true := by
  rw [entry_before_iff] at hab hbc ⊢
  rcases hab with hab | ⟨hab, hs⟩
  · rcases hbc with hbc | ⟨hbc, -⟩
    · exact Or.inl (String.lt_trans hab hbc)
    · exact Or.inl (hbc ▸ hab)
  · rcases hbc with hbc | ⟨hbc, hs'⟩
    · exact Or.inl (hab ▸ hbc)
    · exact Or.inr ⟨hab.trans hbc, String.le_trans hs hs'⟩

theorem entry_before_total (a b : Entry) : (a.before b || b.before a) = true := by
  rw [Bool.or_eq_true, entry_before_iff, entry_before_iff]
  by_cases hlt : a.declarations < b.declarations
  · exact Or.inl (Or.inl hlt)
  · by_cases hgt : b.declarations < a.declarations
    · exact Or.inr (Or.inl hgt)
    · have heq := String.le_antisymm (String.not_lt.mp hgt) (String.not_lt.mp hlt)
      rcases String.le_total a.selectors b.selectors with hs | hs
      · exact Or.inl (Or.inr ⟨heq, hs⟩)
      · exact Or.inr (Or.inr ⟨heq.symm, hs⟩)

/-- Two entries that are level are the same entry. -/
theorem entry_before_antisymm {a b : Entry} (hab : a.before b = true) (hba : b.before a = true) : a = b := by
  rw [entry_before_iff] at hab hba
  have hd : a.declarations = b.declarations := by
    rcases hab with hab | ⟨hab, -⟩
    · rcases hba with hba | ⟨hba, -⟩
      · exact absurd hba (String.lt_asymm hab)
      · exact hba.symm
    · exact hab
  have hs : a.selectors = b.selectors := by
    simp only [hd, String.lt_irrefl, false_or, true_and] at hab hba
    exact String.le_antisymm hab hba
  obtain ⟨_, _⟩ := a
  obtain ⟨_, _⟩ := b
  exact congrArg₂ Entry.mk hs hd

/-- Entries are put into one order only. -/
theorem sort_entries {xs ys : List Entry} (h : xs.Perm ys) : xs.mergeSort Entry.before = ys.mergeSort Entry.before :=
  mergeSort_of_perm entry_before_trans entry_before_total (fun _ _ _ _ => entry_before_antisymm) h

theorem sort_pair (a b : Entry) : [a, b].mergeSort Entry.before = if a.before b then [a, b] else [b, a] := by
  simp only [List.mergeSort, List.MergeSort.Internal.splitInTwo_fst, List.MergeSort.Internal.splitInTwo_snd]
  simp [List.cons_merge_cons]

theorem sorted_entries (s : Sheet V) (indent : String) (r : Rendering V) :
    (s.entries indent r).Pairwise fun a b => a.before b = true :=
  List.pairwise_mergeSort entry_before_trans entry_before_total _

/-! ## Sheets -/

/-- The entries of a sheet are those of its blocks, in some order. -/
theorem exists_entries (s : Sheet V) (indent : String) (r : Rendering V) :
    ∃ gs : List (List (Style V)),
      gs.Perm (byBlock s.styles) ∧ gs.map (Entry.ofStyles indent r) = s.entries indent r := by
  let ordered (g h : List (Style V)) : Bool := (Entry.ofStyles indent r g).before (Entry.ofStyles indent r h)
  refine ⟨(byBlock s.styles).mergeSort ordered, List.mergeSort_perm _ _, ?_⟩
  exact List.map_mergeSort fun _ _ _ _ => rfl

/-- Styles on two blocks, in whatever order they come, are two entries. -/
theorem toText_of_rising {s : Sheet V} {g k : List (Style V)} (h : Rising [g, k]) (hp : s.styles.Perm (g ++ k)) :
    s.toText indent r =
      if (Entry.ofStyles indent r g).before (Entry.ofStyles indent r k) then
        (Entry.ofStyles indent r g).text indent ++ (Entry.ofStyles indent r k).text indent
      else (Entry.ofStyles indent r k).text indent ++ (Entry.ofStyles indent r g).text indent := by
  have hblocks : byBlock s.styles = [g, k] := byBlock_eq h (by simpa using hp)
  unfold toText entries
  rw [hblocks, List.map_cons, List.map_singleton, sort_pair]
  split <;> simp

/-- Two styles on a block each are two entries. -/
theorem toText_pair {a b : Style V} (h : a.block.number < b.block.number) :
    toText ⟨[a, b]⟩ indent r =
      if (Entry.ofStyles indent r [a]).before (Entry.ofStyles indent r [b]) then
        (Entry.ofStyles indent r [a]).text indent ++ (Entry.ofStyles indent r [b]).text indent
      else (Entry.ofStyles indent r [b]).text indent ++ (Entry.ofStyles indent r [a]).text indent :=
  toText_of_rising ⟨by simp, by simp, by simpa using h, by simp⟩ (List.Perm.refl _)

theorem sheetText_toText {s : Sheet V} (hi : Blank (Utf8.bytes indent)) {gs : List (List (Style V))}
    (he : gs.map (Entry.ofStyles indent r) = s.entries indent r) (hg : ∀ g ∈ gs, Legible r g) :
    SheetText (Utf8.bytes (s.toText indent r)) (gs.map (ruleOf r)) := by
  have h := sheet_entries hi hg (.blank blank_nil)
  unfold toText
  rw [← he, List.map_map]
  simpa [Function.comp_def] using h

end Cascade.Sheet
