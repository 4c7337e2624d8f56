/-
  Cascade.Builder — styles out of events. A builder collects a selector, then the chain
  it belongs to, then the chains that wait for their block; when the block ends, each
  of them becomes a style on it.

  1. A combinator belongs to the selector before it.
  2. A name is looked up when it comes, known or not; its value is interpreted only if
     the name was known, and declared only if the value was accepted.
  3. The embedder (`Host`) answers both questions and may remember what it was asked.
-/

import Cascade.Event
import Cascade.Style

namespace Cascade

/-- What the embedder decides, with a memory of its own. -/
structure Host (σ V : Type) where
  /-- The property that a name stands for, if it is known. -/
  identify : σ → String → Option PropertyId × σ
  /-- The value that a text stands for, if the property accepts it. -/
  interpret : σ → PropertyId → String → Option V × σ

structure Builder (σ V : Type) where
  /-- The host's memory. -/
  memory : σ
  selector : Selector := {}
  /-- The selectors of the chain, the newest first. -/
  chain : List Selector := []
  /-- The chains that wait for their block, the newest first. -/
  waiting : List Chain := []
  declarations : Declarations V := .empty
  /-- The property whose value comes next. -/
  property : Option PropertyId := none
  /-- The newest first. -/
  styles : List (Style V) := []

namespace Builder

variable {σ V : Type}

def addName (host : Host σ V) (b : Builder σ V) (name : String) : Builder σ V :=
  let (property, memory) := host.identify b.memory name
  { b with memory, property }

def addValue (host : Host σ V) (b : Builder σ V) (text : String) : Builder σ V :=
  match b.property with
  | none => b
  | some p =>
    match host.interpret b.memory p text with
    | (some v, memory) => { b with memory, property := none, declarations := b.declarations.insert p v }
    | (none, memory) => { b with memory, property := none }

/-- Set the relation of the newest selector to the next. -/
def relate (c : Combinator) : List Selector → List Selector
  | [] => []
  | s :: rest => { s with combinator := c } :: rest

/-- Every waiting chain becomes a style, in the order in which the chains came. -/
def endBlock (b : Builder σ V) (supply : Supply) : Builder σ V × Supply :=
  let (block, supply) := supply.newBlock b.declarations
  let (styles, supply) := supply.newStyles b.waiting.reverse block
  ({ b with waiting := [], declarations := .empty, styles := styles.reverseAux b.styles }, supply)

def add (host : Host σ V) (b : Builder σ V) (supply : Supply) : Event → Builder σ V × Supply
  | .tag t => ({ b with selector := { b.selector with tag := t } }, supply)
  | .id t => ({ b with selector := { b.selector with id := t } }, supply)
  | .className t => ({ b with selector := { b.selector with classes := b.selector.classes ++ [t] } }, supply)
  | .combinator c => ({ b with chain := relate c b.chain }, supply)
  | .selectorEnd => ({ b with selector := {}, chain := b.selector :: b.chain }, supply)
  | .chainEnd => ({ b with chain := [], waiting := ⟨b.chain.reverse⟩ :: b.waiting }, supply)
  | .name t => (b.addName host t, supply)
  | .value t => (b.addValue host t, supply)
  | .blockEnd => b.endBlock supply

def addAll (host : Host σ V) (b : Builder σ V) (supply : Supply) (events : List Event) : Builder σ V × Supply :=
  events.foldl (fun (b, supply) e => b.add host supply e) (b, supply)

@[simp] theorem addAll_nil (host : Host σ V) (b : Builder σ V) (supply : Supply) :
    b.addAll host supply [] = (b, supply) := rfl

@[simp] theorem addAll_cons (host : Host σ V) (b : Builder σ V) (supply : Supply) (e : Event) (es : List Event) :
    b.addAll host supply (e :: es) =
      (b.add host supply e).1.addAll host (b.add host supply e).2 es := rfl

theorem addAll_append (host : Host σ V) (b : Builder σ V) (supply : Supply) (xs ys : List Event) :
    b.addAll host supply (xs ++ ys) =
      (b.addAll host supply xs).1.addAll host (b.addAll host supply xs).2 ys := by
  simp [addAll, List.foldl_append]

/-- The styles made so far, in the order in which they were made. -/
def finished (b : Builder σ V) : List (Style V) := b.styles.reverse

end Builder

end Cascade
