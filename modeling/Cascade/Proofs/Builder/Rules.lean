/-
  Cascade.Proofs.Builder.Rules — a builder does what the rules say. The reference does
  not collect anything:

  - A selector asks for the last tag and the last id that stand in it and for all its
    classes; a combinator belongs to the selector before it (`Trail.stated`).
  - A block holds, for each property, the value of the last declaration whose name is
    known for it and whose value is accepted (`lastValue`), and nothing else.
  - The styles of a rule are one for each chain, in order, on one block (`RuleStyles`),
    and no other rule has that block.

  The embedder answers by two functions and is asked about each declaration once, in
  order: for the property, and for the value if there is such a property (`questions`).
-/

import Cascade.Proofs.Builder.Made
import Cascade.Proofs.Sheet.Order

namespace Cascade

open Grammar

variable {V : Type}

/-! ## What a chain says -/

namespace Grammar

/-- The texts of the components of one kind, in order. -/
def texts (part : Part) (cs : List Component) : List String := (cs.filter (·.part = part)).map (·.text)

def statedSelector (cs : List Component) (c : Combinator) : Selector :=
  { tag := (texts .tag cs).getLast?.getD ""
    id := (texts .id cs).getLast?.getD ""
    classes := texts .className cs
    combinator := c }

def Trail.stated (t : Trail) : Chain :=
  ⟨t.outer.map (fun x => statedSelector x.1 x.2) ++ [statedSelector t.subject .none]⟩

theorem texts_snoc (part : Part) (cs : List Component) (x : Component) :
    texts part (cs ++ [x]) = if x.part = part then texts part cs ++ [x.text] else texts part cs := by
  by_cases h : x.part = part <;> simp [texts, h]

theorem selectorOf_eq_stated (cs : List Component) : selectorOf cs = statedSelector cs .none := by
  induction cs using List.reverseRecOn with
  | nil => rfl
  | append_singleton cs x ih =>
    have hstep : selectorOf (cs ++ [x]) = addComponent (selectorOf cs) x := by simp [selectorOf]
    rw [hstep, ih]
    obtain ⟨part, text⟩ := x
    cases part <;> simp [addComponent, statedSelector, texts_snoc]

theorem chain_eq_stated (t : Trail) : t.chain = t.stated := by
  simp [Trail.chain, Trail.stated, outerSelector, selectorOf_eq_stated, statedSelector]

end Grammar

/-! ## What a block says -/

section

variable (identify : String → Option PropertyId) (interpret : PropertyId → String → Option V)

/-- The value of the last declaration for `p` that is accepted. -/
def lastValue (ds : List (String × String)) (p : PropertyId) : Option V :=
  (ds.filterMap fun d => if identify d.1 = some p then interpret p d.2 else none).getLast?

/-- One question to the embedder. -/
inductive Question where
  | identify (name : String)
  | interpret (p : PropertyId) (text : String)
  deriving DecidableEq, Repr

def questions (d : String × String) : List Question :=
  .identify d.1 :: ((identify d.1).map (.interpret · d.2)).toList

/-- Answers by two functions and remembers what it was asked. -/
def Host.answering : Host (List Question) V where
  identify asked name := (identify name, asked ++ [.identify name])
  interpret asked p text := (interpret p text, asked ++ [.interpret p text])

/-- The styles of a rule: one for each chain, in order, all on one block with the declarations of the rule. -/
structure RuleStyles (r : Rule) (styles : List (Style V)) : Prop where
  chains : styles.map (·.chain) = r.chains.map Trail.stated
  ranks : ∀ x ∈ styles, x.specificity = x.chain.specificity
  shared : ∀ x ∈ styles, ∀ y ∈ styles, x.block = y.block
  declared : ∀ x ∈ styles, ∀ p v, (p, v) ∈ x.block.declarations.entries ↔
    lastValue identify interpret r.declarations p = some v

/-- No block of the one is a block of the other. -/
def Apart (xs ys : List (Style V)) : Prop := ∀ x ∈ xs, ∀ y ∈ ys, x.block.number ≠ y.block.number

theorem declare_answering (asked : List Question) (ds : Declarations V) (name text : String) :
    (declare (.answering identify interpret) asked ds name text).1 = asked ++ questions identify (name, text) ∧
      ∀ p, (declare (.answering identify interpret) asked ds name text).2.get? p =
        ((if identify name = some p then interpret p text else none).or (ds.get? p)) := by
  unfold declare questions
  cases hid : identify name with
  | none => simp [Host.answering, hid]
  | some q =>
    cases hv : interpret q text with
    | none =>
      refine ⟨by simp [Host.answering, hid, hv], fun p => ?_⟩
      by_cases hp : q = p
      · subst hp
        simp [Host.answering, hid, hv]
      · simp [Host.answering, hid, hv, hp]
    | some v =>
      refine ⟨by simp [Host.answering, hid, hv], fun p => ?_⟩
      by_cases hp : q = p
      · subst hp
        simp [Host.answering, hid, hv, Declarations.get?_insert]
      · simp [Host.answering, hid, hv, hp, Declarations.get?_insert, Ne.symm hp]

theorem lastValue_cons (d : String × String) (ds : List (String × String)) (p : PropertyId) :
    lastValue identify interpret (d :: ds) p =
      (lastValue identify interpret ds p).or (if identify d.1 = some p then interpret p d.2 else none) := by
  unfold lastValue
  rw [List.filterMap_cons]
  split
  · rename_i h
    simp [h]
  · rename_i v h
    simp [h, List.getLast?_cons]

theorem declareAll_answering (asked : List Question) (ds : Declarations V) (l : List (String × String)) :
    (declareAll (.answering identify interpret) asked ds l).1 = asked ++ l.flatMap (questions identify) ∧
      ∀ p, (declareAll (.answering identify interpret) asked ds l).2.get? p =
        (lastValue identify interpret l p).or (ds.get? p) := by
  induction l generalizing asked ds with
  | nil => simp [declareAll, lastValue]
  | cons d l ih =>
    obtain ⟨hasked, hget⟩ := declare_answering identify interpret asked ds d.1 d.2
    obtain ⟨hrest, hrest'⟩ := ih (declare (.answering identify interpret) asked ds d.1 d.2).1
      (declare (.answering identify interpret) asked ds d.1 d.2).2
    rw [declareAll_cons]
    refine ⟨?_, fun p => ?_⟩
    · rw [hrest, hasked]
      simp
    · rw [hrest', hget, lastValue_cons, Option.or_assoc]

/-! ## What rules say -/

/-- The rules after a rule are on other blocks. -/
theorem apart_madeRule {σ : Type} (host : Host σ V) (memory memory' : σ) (supply : Supply) (r : Rule) (rs : List Rule) :
    Apart (madeRule host memory supply r).styles
      (made host memory' (madeRule host memory supply r).supply rs).styles := by
  intro x hx y hy
  have hlater : supply.block + 1 ≤ y.block.number := (mem_made hy).1
  rw [(mem_madeRule hx).1]
  exact Nat.ne_of_lt hlater

theorem ruleStyles_madeRule (asked : List Question) (supply : Supply) (r : Rule) :
    RuleStyles identify interpret r (madeRule (.answering identify interpret) asked supply r).styles where
  chains := by
    rw [chains_madeRule]
    exact List.map_congr_left fun t _ => chain_eq_stated t
  ranks := fun x hx => rank_madeRule hx
  shared := by
    intro x hx y hy
    rw [(mem_madeRule hx).1, (mem_madeRule hy).1]
  declared := by
    intro x hx p v
    obtain ⟨-, hget⟩ := declareAll_answering identify interpret asked .empty r.declarations
    rw [Declarations.mem_entries_iff, (mem_madeRule hx).1, hget]
    simp

theorem made_answering (asked : List Question) (supply : Supply) (rs : List Rule) :
    ∃ groups, List.Forall₂ (RuleStyles identify interpret) rs groups ∧ groups.Pairwise Apart ∧
      (made (.answering identify interpret) asked supply rs).styles = groups.flatten ∧
      (made (.answering identify interpret) asked supply rs).memory =
        asked ++ rs.flatMap fun r => r.declarations.flatMap (questions identify) := by
  induction rs generalizing asked supply with
  | nil => exact ⟨[], .nil, .nil, rfl, by simp [made]⟩
  | cons r rs ih =>
    let first := madeRule (.answering identify interpret) asked supply r
    obtain ⟨groups, hrules, hapart, hstyles, hmemory⟩ := ih first.memory first.supply
    have hfirst : first.memory = asked ++ r.declarations.flatMap (questions identify) :=
      (declareAll_answering identify interpret asked .empty r.declarations).1
    refine ⟨first.styles :: groups, .cons (ruleStyles_madeRule identify interpret asked supply r) hrules,
      List.pairwise_cons.mpr ⟨?_, hapart⟩, ?_, ?_⟩
    · intro g hg x hx y hy
      have hy' : y ∈ (made (.answering identify interpret) first.memory first.supply rs).styles := by
        rw [hstyles]
        exact List.mem_flatten.mpr ⟨g, hg, hy⟩
      exact apart_madeRule (.answering identify interpret) asked _ supply r rs x hx y hy'
    · rw [List.flatten_cons, ← hstyles]
      rfl
    · show (made (.answering identify interpret) first.memory first.supply rs).memory = _
      rw [hmemory, hfirst]
      simp

/-- From the events of rules a builder makes, sorted by rank, exactly the styles of the rules: for each rule one
    for each of its chains, on a block of its own. The embedder is asked about every declaration once, in order. -/
theorem Builder.styles_of_events (identify : String → Option PropertyId) (interpret : PropertyId → String → Option V)
    (supply : Supply) (rs : List Rule) :
    let built := ({ memory := [] } : Builder (List Question) V).addAll (.answering identify interpret) supply (events rs)
    ∃ groups, List.Forall₂ (RuleStyles identify interpret) rs groups ∧ groups.Pairwise Apart ∧
      Sheet.Ranked groups.flatten (Sheet.ofStyles built.1.finished).styles ∧
      built.1.memory = rs.flatMap fun r => r.declarations.flatMap (questions identify) := by
  intro built
  obtain ⟨groups, hrules, hapart, hstyles, hmemory⟩ :=
    made_answering identify interpret [] supply rs
  have hbuilt : built = _ := addAll_events (.answering identify interpret) supply [] [] rs
  refine ⟨groups, hrules, hapart, ?_, ?_⟩
  · rw [hbuilt, ← hstyles]
    simpa [between, finished] using Sheet.ranked_ofStyles _
  · rw [hbuilt]
    exact hmemory

end

end Cascade
