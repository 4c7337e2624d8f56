/-
  Cascade.Proofs.Walk.Relaxed — chains that ask for less by their combinators. A child is a
  descendant too, and the next sibling a subsequent one; a chain is relaxed where it has
  `descendant` for `child` or `subsequent` for `next`, at any of its selectors.

  A walk takes the nearest node and never another, so a chain that asks for less need not
  be found where the chain itself is: another node may be the nearest then. Here it is. Where
  a single move leads to a node that matches, a search in its direction ends at this very
  node after this very move (`seek_of_hop`). So the two walks stand on the same node after
  every step, and a walk that finds all of the one chain is the walk of the other
  (`walk_relaxed`).
-/

import Cascade.Proofs.Walk.Search
import Mathlib.Data.List.Forall2

namespace Cascade

/-- The second combinator asks for the same as the first, or leaves the distance open. -/
inductive Combinator.Relaxes : Combinator → Combinator → Prop
  | same (k : Combinator) : Relaxes k k
  | child : Relaxes .child .descendant
  | next : Relaxes .next .subsequent

/-- The combinator may be relaxed, and nothing else differs. -/
def Selector.Relaxes (s t : Selector) : Prop := ∃ k, s.combinator.Relaxes k ∧ t = { s with combinator := k }

/-- Any of the combinators may be relaxed, and nothing else differs. -/
def Chain.Relaxes (chain chain' : Chain) : Prop := List.Forall₂ Selector.Relaxes chain.selectors chain'.selectors

variable {d : Document} {s t : Selector}

theorem Selector.Relaxes.matches_eq (h : s.Relaxes t) (n : Node) : t.matches n = s.matches n := by
  obtain ⟨k, -, rfl⟩ := h
  rfl

namespace Cursor

variable {c : Cursor d} {rest rest' : List Selector}

/-- A search is over after one move where this move leads to a node that matches. -/
theorem seek_of_hop {dir : Direction} (h : (c.hop dir s).found = true) : c.seek dir s = c.hop dir s := by
  cases hd : d.toward dir c.here with
  | none =>
    rw [hop_of_none hd] at h
    cases h
  | some i =>
    rw [hop_of_some hd] at h ⊢
    have hs : s.matches (d.node i) = true := h
    rw [seek_of_some hd, if_pos hs, hs]

/-- One step, from the same node: what was found is found again, in the same way. -/
theorem relate_relaxed (h : s.Relaxes t) (hf : (c.relate s).found = true) : c.relate t = c.relate s := by
  obtain ⟨k, hk, rfl⟩ := h
  generalize hs : s.combinator = k₀ at hk
  cases hk with
  | same =>
    subst hs
    rfl
  | child =>
    have hstep : c.relate s = c.hop .up s := by simp only [relate, hs]
    rw [hstep] at hf ⊢
    exact seek_of_hop hf
  | next =>
    have hstep : c.relate s = c.hop .left s := by simp only [relate, hs]
    rw [hstep] at hf ⊢
    exact seek_of_hop hf

/-- All steps: the walks stand on the same node after each. -/
theorem climb_relaxed (h : List.Forall₂ Selector.Relaxes rest rest') (hf : (c.climb rest).found = true) :
    c.climb rest' = c.climb rest := by
  induction h generalizing c with
  | nil => rfl
  | @cons s t rest rest' hst _ ih =>
    rw [climb] at hf ⊢
    split at hf
    · rename_i hfound
      have hrest : (c.relate s).cursor.climb rest' = (c.relate s).cursor.climb rest := ih hf
      rw [climb, relate_relaxed hst hfound]
      simp only [hfound, if_true, hrest]
    · rename_i hfound
      exact absurd hf hfound

end Cursor

/-- A chain that is found at a node is found there with any of its child combinators replaced by descendant ones and
    any of its next combinators by subsequent ones, by the same moves and with the cursor on the same node. -/
theorem walk_relaxed {chain chain' : Chain} {c : Cursor d} (h : chain.Relaxes chain')
    (hf : (chain.walk c).found = true) : (chain'.walk c).found = true ∧ chain'.walk c = chain.walk c := by
  have hreverse : List.Forall₂ Selector.Relaxes chain.selectors.reverse chain'.selectors.reverse := List.rel_reverse h
  have hsame : chain'.walk c = chain.walk c := by
    unfold Chain.walk at hf ⊢
    generalize chain.selectors.reverse = xs, chain'.selectors.reverse = xs' at hreverse hf ⊢
    cases hreverse with
    | nil => rfl
    | cons hsubject hrest =>
      dsimp only at hf ⊢
      split at hf
      · rename_i hs
        rw [hsubject.matches_eq, if_pos hs, if_pos hs]
        exact Cursor.climb_relaxed hrest hf
      · cases hf
  exact ⟨hsame ▸ hf, hsame⟩

/-- `r a b ~ b > a ~ c`, two steps of it relaxed -/
def relaxedChain : Chain :=
  ⟨[{ tag := "r", combinator := .descendant }, { tag := "a", combinator := .descendant },
    { tag := "b", combinator := .subsequent }, { tag := "b", combinator := .child },
    { tag := "a", combinator := .subsequent }, { tag := "c" }]⟩

theorem walk_relaxed_branched :
    (straightChain.Relaxes relaxedChain ∧
        (straightChain.walk (Cursor.atHome (d := branched) (7 : Fin 8))).found = true) ∧
      (relaxedChain.walk (Cursor.atHome (d := branched) (7 : Fin 8))).found = true ∧
      relaxedChain.walk (Cursor.atHome (d := branched) (7 : Fin 8)) =
        straightChain.walk (Cursor.atHome (d := branched) (7 : Fin 8)) := by
  have hrelaxes : straightChain.Relaxes relaxedChain :=
    .cons ⟨_, .same _, rfl⟩ (.cons ⟨_, .child, rfl⟩ (.cons ⟨_, .same _, rfl⟩ (.cons ⟨_, .same _, rfl⟩
      (.cons ⟨_, .next, rfl⟩ (.cons ⟨_, .same _, rfl⟩ .nil)))))
  have hfound : (straightChain.walk (Cursor.atHome (d := branched) (7 : Fin 8))).found = true := by decide +kernel
  exact ⟨⟨hrelaxes, hfound⟩, walk_relaxed hrelaxes hfound⟩

-- without its class the inner `b` is the nearest that matches, and its parent is no `a`
example :
    let d : Document :=
      { nodes := #[{ tag := "a" }, { tag := "b", classes := ["x"], parent := some 0 }, { tag := "b", parent := some 1 },
          { tag := "c", parent := some 2 }]
        parents_first := by decide }
    let chain (classes : List String) : Chain :=
      ⟨[{ tag := "a", combinator := .child }, { tag := "b", classes, combinator := .descendant }, { tag := "c" }]⟩
    ((chain ["x"]).walk (Cursor.atHome (d := d) (3 : Fin 4))).found = true ∧
      ((chain []).walk (Cursor.atHome (d := d) (3 : Fin 4))).found = false := by
  decide +kernel

end Cascade
