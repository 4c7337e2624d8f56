/-
  Cascade.Sheet.Store — a program at work on sheets. It has any number of sheets, each at
  a place, and in hand the styles and blocks that it made or copied; what it makes has the
  next number of one supply, which all sheets share.

  1. A sheet is new, read, built from events, or made of styles in hand; it then takes the
     place of an earlier one. A reading that fails leaves the earlier sheet where it was.
  2. A style in hand is new, on a block in hand, or a copy of a style of a sheet; a copy
     keeps its numbers, and its block comes to hand with it. Putting a style into a sheet
     leaves it in hand, so it may be put into any number of sheets, any number of times.
  3. What is not there has no effect, nor has appending a sheet to itself.
-/

import Cascade.Sheet.Read

namespace Cascade

structure Store (V : Type) where
  /-- The sheet at a place; one that was not made yet is empty. -/
  sheet : Nat → Sheet V := fun _ => .empty
  /-- The styles in hand. -/
  styles : List (Style V) := []
  /-- The blocks in hand. -/
  blocks : List (Block V) := []
  supply : Supply := {}

/-- One thing done to the sheet at a place, or to what is in hand. -/
inductive Action (V : Type) : Type 1 where
  | new (i : Nat)
  | read {σ : Type} (i : Nat) (host : Host σ V) (memory : σ) (source : List Reply)
  | parse {σ : Type} (i : Nat) (host : Host σ V) (memory : σ) (css : String)
  /-- A sheet out of any events, whether or not a reader would report them. -/
  | build {σ : Type} (i : Nat) (host : Host σ V) (memory : σ) (events : List Event)
  /-- A new block. -/
  | block (declarations : Declarations V)
  /-- A new style on a block in hand. -/
  | style (chain : Chain) (block : Nat)
  /-- A copy of a style of a sheet. -/
  | copy (i place : Nat)
  | ofStyles (i : Nat) (styles : List Nat)
  | insert (i style : Nat)
  | append (i j : Nat)
  | sort (i : Nat)

namespace Store

variable {V : Type}

/-- The store with this sheet at a place. -/
def put (st : Store V) (i : Nat) (s : Sheet V) : Store V :=
  { st with sheet := fun k => if k = i then s else st.sheet k }

@[simp] theorem put_same (st : Store V) (i : Nat) (s : Sheet V) : (st.put i s).sheet i = s := by simp [put]

@[simp] theorem put_ne (st : Store V) {i k : Nat} (s : Sheet V) (h : k ≠ i) :
    (st.put i s).sheet k = st.sheet k := by
  simp [put, h]

@[simp] theorem put_styles (st : Store V) (i : Nat) (s : Sheet V) : (st.put i s).styles = st.styles := rfl

@[simp] theorem put_blocks (st : Store V) (i : Nat) (s : Sheet V) : (st.put i s).blocks = st.blocks := rfl

@[simp] theorem put_supply (st : Store V) (i : Nat) (s : Sheet V) : (st.put i s).supply = st.supply := rfl

/-- The styles in hand with these numbers, each as often as it is named. -/
def picked (st : Store V) (ks : List Nat) : List (Style V) := ks.filterMap (st.styles[·]?)

/-- After a reading for the place `i`. -/
def finish {σ : Type} (st : Store V) (i : Nat) (r : Sheet.Reading σ V) : Store V :=
  match r.result with
  | .ok s => { st with supply := r.supply }.put i s
  | .error _ => { st with supply := r.supply }

def step (st : Store V) : Action V → Store V
  | .new i => st.put i .empty
  | .read i host memory source => st.finish i (Sheet.read host memory st.supply source)
  | .parse i host memory css => st.finish i (Sheet.parse host memory st.supply css)
  | .build i host memory events =>
    let (b, supply) := ({ memory } : Builder _ V).addAll host st.supply events
    { st with supply }.put i (.ofStyles b.finished)
  | .block declarations =>
    let (b, supply) := st.supply.newBlock declarations
    { st with supply, blocks := st.blocks ++ [b] }
  | .style chain k =>
    match st.blocks[k]? with
    | none => st
    | some b =>
      let (x, supply) := st.supply.newStyle chain b
      { st with supply, styles := st.styles ++ [x] }
  | .copy i k =>
    match (st.sheet i).styles[k]? with
    | none => st
    | some x => { st with styles := st.styles ++ [x], blocks := st.blocks ++ [x.block] }
  | .ofStyles i ks => st.put i (.ofStyles (st.picked ks))
  | .insert i k =>
    match st.styles[k]? with
    | none => st
    | some x => st.put i ((st.sheet i).insert x)
  | .append i j =>
    if i = j then st
    else
      let (s, t) := (st.sheet i).append (st.sheet j)
      (st.put i s).put j t
  | .sort i => st.put i (st.sheet i).sort

/-- What one action after another leads to. -/
def run (st : Store V) (actions : List (Action V)) : Store V := actions.foldl step st

@[simp] theorem run_nil (st : Store V) : st.run [] = st := rfl

@[simp] theorem run_cons (st : Store V) (a : Action V) (actions : List (Action V)) :
    st.run (a :: actions) = (st.step a).run actions := rfl

end Store

/-- What is there after these actions, starting with nothing. -/
def Store.after {V : Type} (actions : List (Action V)) : Store V := ({} : Store V).run actions

end Cascade
