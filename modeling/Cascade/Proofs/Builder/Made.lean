/-
  Cascade.Proofs.Builder.Made — what a builder makes of rules. `made host memory supply
  rs` are the styles of the rules in their order, made without a builder: a new block for
  each rule, on it a style for each chain, and the host asked about every declaration as
  it comes.

  A builder that is given the events of rules has made these styles and is then as it was
  before, apart from the host's memory (`addAll_events`): what it collects for one rule
  is used up when the block of the rule ends.
-/

import Cascade.Builder
import Cascade.Proofs.Grammar

namespace Cascade

open Grammar

variable {σ V : Type}

/-! ## The chain of selectors as they are written -/

namespace Grammar

/-- A tag or an id replaces an earlier one; a class is added. -/
def addComponent (s : Selector) (c : Component) : Selector :=
  match c.part with
  | .tag => { s with tag := c.text }
  | .id => { s with id := c.text }
  | .className => { s with classes := s.classes ++ [c.text] }

def selectorOf (cs : List Component) : Selector := cs.foldl addComponent {}

/-- A selector before the subject, with the combinator after it. -/
def outerSelector (x : List Component × Combinator) : Selector := { selectorOf x.1 with combinator := x.2 }

def Trail.chain (c : Trail) : Chain := ⟨c.outer.map outerSelector ++ [selectorOf c.subject]⟩

end Grammar

/-! ## Styles without a builder -/

/-- What the host makes of one declaration: nothing, or one that replaces an earlier one. -/
def declare (host : Host σ V) (memory : σ) (ds : Declarations V) (name text : String) : σ × Declarations V :=
  match host.identify memory name with
  | (none, memory) => (memory, ds)
  | (some p, memory) =>
    match host.interpret memory p text with
    | (none, memory) => (memory, ds)
    | (some v, memory) => (memory, ds.insert p v)

def declareAll (host : Host σ V) (memory : σ) (ds : Declarations V) : List (String × String) → σ × Declarations V
  | [] => (memory, ds)
  | d :: rest =>
    let (memory, ds) := declare host memory ds d.1 d.2
    declareAll host memory ds rest

theorem declareAll_cons (host : Host σ V) (memory : σ) (ds : Declarations V) (d : String × String)
    (rest : List (String × String)) :
    declareAll host memory ds (d :: rest) =
      declareAll host (declare host memory ds d.1 d.2).1 (declare host memory ds d.1 d.2).2 rest := rfl

/-- Styles, with what the host remembers after them and the numbers left. -/
structure Made (σ V : Type) where
  styles : List (Style V)
  memory : σ
  supply : Supply

def madeRule (host : Host σ V) (memory : σ) (supply : Supply) (r : Rule) : Made σ V :=
  let (memory, ds) := declareAll host memory .empty r.declarations
  let (block, supply) := supply.newBlock ds
  let (styles, supply) := supply.newStyles (r.chains.map Trail.chain) block
  ⟨styles, memory, supply⟩

def made (host : Host σ V) (memory : σ) (supply : Supply) : List Rule → Made σ V
  | [] => ⟨[], memory, supply⟩
  | r :: rest =>
    let first := madeRule host memory supply r
    let others := made host first.memory first.supply rest
    { others with styles := first.styles ++ others.styles }

/-! ## What the styles have of their rules -/

theorem mem_declare {host : Host σ V} {memory : σ} {ds : Declarations V} {name text : String} {e : PropertyId × V}
    (h : e ∈ (declare host memory ds name text).2.entries) :
    e ∈ ds.entries ∨ ∃ before after p, host.interpret before p text = (some e.2, after) := by
  unfold declare at h
  split at h
  · exact Or.inl h
  · rename_i p before _
    split at h
    · exact Or.inl h
    · rename_i v after hv
      rcases Declarations.mem_insertEntry h with rfl | h
      · exact Or.inr ⟨before, after, p, hv⟩
      · exact Or.inl h

/-- A declaration that is made was made before, or has the value of one of the texts. -/
theorem mem_declareAll {host : Host σ V} {memory : σ} {ds : Declarations V} {l : List (String × String)}
    {e : PropertyId × V} (h : e ∈ (declareAll host memory ds l).2.entries) :
    e ∈ ds.entries ∨ ∃ d ∈ l, ∃ before after p, host.interpret before p d.2 = (some e.2, after) := by
  induction l generalizing memory ds with
  | nil => exact Or.inl h
  | cons d l ih =>
    rw [declareAll_cons] at h
    rcases ih h with hd | ⟨d', hd', hrest⟩
    · rcases mem_declare hd with hd | hd
      · exact Or.inl hd
      · exact Or.inr ⟨d, List.mem_cons_self, hd⟩
    · exact Or.inr ⟨d', List.mem_cons_of_mem _ hd', hrest⟩

/-- Styles with one block number are on one block: the number is what tells a block from the others. -/
def Sharing (styles : List (Style V)) : Prop :=
  ∀ x ∈ styles, ∀ y ∈ styles, x.block.number = y.block.number → x.block = y.block

instance [DecidableEq V] (styles : List (Style V)) : Decidable (Sharing styles) :=
  inferInstanceAs (Decidable (∀ x ∈ styles, ∀ y ∈ styles, x.block.number = y.block.number → x.block = y.block))

theorem chains_madeRule (host : Host σ V) (memory : σ) (supply : Supply) (r : Rule) :
    (madeRule host memory supply r).styles.map (·.chain) = r.chains.map Trail.chain := by
  show List.map _ (List.map _ ((r.chains.map Trail.chain).zipIdx supply.serial)) = _
  rw [List.map_map]
  exact List.zipIdx_map_fst _ _

theorem chains_made (host : Host σ V) (memory : σ) (supply : Supply) (rs : List Rule) :
    (made host memory supply rs).styles.map (·.chain) = (rs.flatMap (·.chains)).map Trail.chain := by
  induction rs generalizing memory supply with
  | nil => rfl
  | cons r rs ih =>
    show ((madeRule host memory supply r).styles ++ _).map _ = _
    rw [List.map_append, ih, chains_madeRule, List.flatMap_cons, List.map_append]

theorem mem_madeRule {host : Host σ V} {memory : σ} {supply : Supply} {r : Rule} {x : Style V}
    (h : x ∈ (madeRule host memory supply r).styles) :
    x.block = ⟨supply.block, (declareAll host memory .empty r.declarations).2⟩ ∧ ∃ c ∈ r.chains, x.chain = c.chain := by
  obtain ⟨e, he, rfl⟩ := List.mem_map.mp h
  obtain ⟨c, hc, hec⟩ := List.mem_map.mp (List.fst_mem_of_mem_zipIdx he)
  exact ⟨rfl, c, hc, hec.symm⟩

theorem mem_made {host : Host σ V} {memory : σ} {supply : Supply} {rs : List Rule} {x : Style V}
    (h : x ∈ (made host memory supply rs).styles) :
    supply.block ≤ x.block.number ∧ ∃ r ∈ rs, (∃ c ∈ r.chains, x.chain = c.chain) ∧
      ∃ before, x.block.declarations = (declareAll host before .empty r.declarations).2 := by
  induction rs generalizing memory supply with
  | nil => cases h
  | cons r rs ih =>
    rcases List.mem_append.mp h with h | h
    · obtain ⟨hblock, hchain⟩ := mem_madeRule h
      rw [hblock]
      exact ⟨Nat.le_refl _, r, List.mem_cons_self, hchain, _, rfl⟩
    · obtain ⟨hle, r', hr', hrest⟩ := ih h
      have hnext : supply.block + 1 ≤ x.block.number := hle
      exact ⟨by omega, r', List.mem_cons_of_mem _ hr', hrest⟩

theorem rank_madeRule {host : Host σ V} {memory : σ} {supply : Supply} {r : Rule} {x : Style V}
    (h : x ∈ (madeRule host memory supply r).styles) : x.specificity = x.chain.specificity := by
  obtain ⟨e, -, rfl⟩ := List.mem_map.mp h
  rfl

theorem rank_made {host : Host σ V} {memory : σ} {supply : Supply} {rs : List Rule} {x : Style V}
    (h : x ∈ (made host memory supply rs).styles) : x.specificity = x.chain.specificity := by
  induction rs generalizing memory supply with
  | nil => cases h
  | cons r rs ih =>
    rcases List.mem_append.mp h with h | h
    · exact rank_madeRule h
    · exact ih h

/-- Every rule has a block of its own. -/
theorem sharing_made (host : Host σ V) (memory : σ) (supply : Supply) (rs : List Rule) :
    Sharing (made host memory supply rs).styles := by
  induction rs generalizing memory supply with
  | nil => intro x hx; cases hx
  | cons r rs ih =>
    have hrest := ih (madeRule host memory supply r).memory (madeRule host memory supply r).supply
    intro x hx y hy hn
    rcases List.mem_append.mp hx with hx | hx
    · have hbx := (mem_madeRule hx).1
      rcases List.mem_append.mp hy with hy | hy
      · rw [hbx, (mem_madeRule hy).1]
      · have hle : supply.block + 1 ≤ y.block.number := (mem_made hy).1
        rw [← hn, hbx] at hle
        exact absurd hle (Nat.not_succ_le_self _)
    · rcases List.mem_append.mp hy with hy | hy
      · have hle : supply.block + 1 ≤ x.block.number := (mem_made hx).1
        rw [hn, (mem_madeRule hy).1] at hle
        exact absurd hle (Nat.not_succ_le_self _)
      · exact hrest x hx y hy hn

/-! ## The builder on the events of a chain -/

namespace Builder

variable (host : Host σ V) (b : Builder σ V) (supply : Supply)

theorem addAll_components (cs : List Component) :
    b.addAll host supply (cs.map Component.event) =
      ({ b with selector := cs.foldl addComponent b.selector }, supply) := by
  induction cs generalizing b with
  | nil => rfl
  | cons c cs ih =>
    have hadd : b.add host supply c.event = ({ b with selector := addComponent b.selector c }, supply) := by
      obtain ⟨part, text⟩ := c
      cases part <;> rfl
    rw [List.map_cons, addAll_cons, hadd, ih]
    rfl

theorem addAll_selector (hb : b.selector = {}) (cs : List Component) :
    b.addAll host supply (selectorEvents cs) =
      ({ b with chain := selectorOf cs :: b.chain }, supply) := by
  unfold selectorEvents
  rw [addAll_append, addAll_components, hb]
  simp only [addAll_cons, addAll_nil, add, selectorOf]

theorem addAll_outer (hb : b.selector = {}) (xs : List (List Component × Combinator)) :
    b.addAll host supply (outerEvents xs) =
      ({ b with chain := (xs.map outerSelector).reverse ++ b.chain }, supply) := by
  induction xs generalizing b with
  | nil => rfl
  | cons x xs ih =>
    have hx : b.addAll host supply (selectorEvents x.1 ++ [.combinator x.2]) =
        ({ b with chain := outerSelector x :: b.chain }, supply) := by
      rw [addAll_append, addAll_selector host b supply hb]
      rfl
    show b.addAll host supply (selectorEvents x.1 ++ [.combinator x.2] ++ outerEvents xs) = _
    rw [addAll_append, hx, ih]
    · simp
    · exact hb

theorem addAll_chain (hs : b.selector = {}) (hc : b.chain = []) (c : Trail) :
    b.addAll host supply c.events = ({ b with waiting := c.chain :: b.waiting }, supply) := by
  unfold Trail.events
  rw [addAll_append, addAll_append, addAll_outer host b supply hs, addAll_selector]
  · simp [add, Trail.chain, hc]
  · exact hs

theorem addAll_chains (hs : b.selector = {}) (hc : b.chain = []) (cs : List Trail) :
    b.addAll host supply (cs.flatMap Trail.events) =
      ({ b with waiting := (cs.map Trail.chain).reverse ++ b.waiting }, supply) := by
  induction cs generalizing b with
  | nil => rfl
  | cons c cs ih =>
    rw [List.flatMap_cons, addAll_append, addAll_chain host b supply hs hc, ih]
    · simp
    · exact hs
    · exact hc

/-! ## The builder on a block -/

theorem addName_eq (name : String) : b.addName host name =
    { b with memory := (host.identify b.memory name).2, property := (host.identify b.memory name).1 } := rfl

theorem addAll_declaration (hp : b.property = none) (name text : String) :
    b.addAll host supply [.name name, .value text] =
      ({ b with
          memory := (declare host b.memory b.declarations name text).1
          declarations := (declare host b.memory b.declarations name text).2 }, supply) := by
  simp only [addAll_cons, addAll_nil, add, addName_eq, addValue, declare]
  rcases host.identify b.memory name with ⟨_ | p, m⟩
  · simp [hp]
  · rcases hv : host.interpret m p text with ⟨_ | v, m'⟩ <;> simp [hp, hv]

theorem addAll_declarations (hp : b.property = none) (ds : List (String × String)) :
    b.addAll host supply (declarationEvents ds) =
      ({ b with
          memory := (declareAll host b.memory b.declarations ds).1
          declarations := (declareAll host b.memory b.declarations ds).2 }, supply) := by
  induction ds generalizing b with
  | nil => rfl
  | cons d ds ih =>
    show b.addAll host supply ([.name d.1, .value d.2] ++ declarationEvents ds) = _
    rw [addAll_append, addAll_declaration host b supply hp, ih]
    · rfl
    · exact hp

/-! ## The builder on rules -/

/-- Between rules a builder holds the styles made so far and nothing else. -/
def between (memory : σ) (styles : List (Style V)) : Builder σ V := { memory, styles := styles.reverse }

theorem addAll_rule (memory : σ) (styles : List (Style V)) (r : Rule) :
    (between memory styles).addAll host supply r.events =
      (between (madeRule host memory supply r).memory (styles ++ (madeRule host memory supply r).styles),
        (madeRule host memory supply r).supply) := by
  unfold Rule.events
  rw [addAll_append, addAll_append, addAll_chains, addAll_declarations]
  · simp [add, endBlock, madeRule, between, List.reverseAux_eq]
  all_goals rfl

/-- From the events of rules a builder makes the styles of the rules, and holds nothing back. -/
theorem addAll_events (memory : σ) (styles : List (Style V)) (rs : List Rule) :
    (between memory styles).addAll host supply (events rs) =
      (between (made host memory supply rs).memory (styles ++ (made host memory supply rs).styles),
        (made host memory supply rs).supply) := by
  induction rs generalizing memory styles supply with
  | nil => simp [made]
  | cons r rs ih =>
    show (between memory styles).addAll host supply (r.events ++ events rs) = _
    rw [addAll_append, addAll_rule, ih]
    simp [made]

end Builder

end Cascade
