/-
  Cascade.Reader — reading a sheet byte by byte. A reader holds what it is in the
  middle of (`mode`), the bytes of the token it is in (`pending`), the line, and whether
  a rule has been started and not closed.

  1. A line end counts before it is read, so a fault found at it is on the next line.
  2. A byte either has an effect (events, a new mode) or is refused with a fault; the
     rest of the input is then dropped, and the reader stays as the byte left it.
  3. A token becomes text when it ends. A token refused then is lost; a byte refused
     for itself leaves the token as it is, except that a second combinator symbol is
     added to the first.
  4. A rule is closed by `}` alone; between rules the reader is idle, and only there may
     the input end.

  `run_cons` and `run_append` say how a run is made of its steps, and that a run goes
  on from where the last one stopped unless that was a fault.
-/

import Cascade.Event
import Cascade.Fault

namespace Cascade

/-- The three kinds of part of a selector. -/
inductive Part where
  | tag
  | id
  | className
  deriving DecidableEq, Repr

inductive Mode where
  /-- Before a selector: between rules, after a comma or after a combinator. -/
  | idle
  | selector (part : Part)
  /-- After a selector: a combinator, the next chain or the block. -/
  | combinator
  /-- Inside a block, before a name. -/
  | block
  | name
  /-- After a name, before its colon. -/
  | colon
  | value
  /-- After a value, before what ends its declaration. -/
  | terminator
  deriving DecidableEq, Repr

structure Reader where
  mode : Mode := .idle
  /-- The bytes of the token so far, the newest first. -/
  pending : List UInt8 := []
  line : UInt32 := 1
  openRule : Bool := false
  deriving DecidableEq, Repr

/-- A reader after some input, what it reported, and the fault that stopped it. -/
structure Outcome where
  reader : Reader
  events : List Event := []
  fault? : Option Fault := none
  deriving DecidableEq, Repr

namespace Outcome

def error? (o : Outcome) : Option SyntaxError := o.fault?.map (⟨o.reader.line, ·⟩)

/-- More input after `o`, if nothing has stopped it. -/
def andThen (o : Outcome) (f : Reader → Outcome) : Outcome :=
  match o.fault? with
  | none => { f o.reader with events := o.events ++ (f o.reader).events }
  | some _ => o

end Outcome

namespace Reader

/-- The bytes of the token so far, in order. -/
def token (r : Reader) : List UInt8 := r.pending.reverse

def push (r : Reader) (b : UInt8) : Reader := { r with pending := b :: r.pending }

@[simp] theorem token_push (r : Reader) (b : UInt8) : (r.push b).token = r.token ++ [b] := by
  simp [token, push]

/-- The input may end here. -/
def isIdle (r : Reader) : Bool := r.mode == .idle && !r.openRule

/-! ## Moves of every mode -/

def stay (r : Reader) : Outcome := ⟨r, [], none⟩

def goTo (r : Reader) (mode : Mode) (events : List Event) : Outcome := ⟨{ r with mode }, events, none⟩

def refuse (r : Reader) (fault : Fault) : Outcome := ⟨r, [], some fault⟩

/-- Take the token: go on with its text, or refuse it. Either way it is gone. -/
def take (r : Reader) (next : String → Reader → Outcome) : Outcome :=
  match Utf8.decode? r.token with
  | some text => next text { r with pending := [] }
  | none => refuse { r with pending := [] } .notText

/-- A rule starts with a selector of which `mode` is the first part. -/
def start (r : Reader) (mode : Mode) : Outcome := ⟨{ r with mode, openRule := true }, [], none⟩

/-- The block is closed, and with it the rule. -/
def close (r : Reader) (events : List Event) : Outcome :=
  ⟨{ r with mode := .idle, openRule := false }, events ++ [.blockEnd], none⟩

def unsupported (r : Reader) (b : UInt8) : Outcome :=
  r.refuse (.unsupported (if Sign.of b = .bracket then .attributes else .pseudo))

/-- End the part of a selector that the reader is in; a tag may turn out empty, an id or a class not. -/
def endPart (r : Reader) (part : Part) (next : Event → Reader → Outcome) : Outcome :=
  r.take fun text r =>
    match part with
    | .tag => next (.tag text) r
    | .id => if text.isEmpty then r.refuse .emptyId else next (.id text) r
    | .className => if text.isEmpty then r.refuse .emptyClass else next (.className text) r

/-- End what stands between two selectors, and start the second in `mode`. -/
def endCombinator (r : Reader) (mode : Mode) (next : Reader → Reader) : Outcome :=
  r.take fun text r =>
    match Combinator.ofToken? text with
    | some c => (next r).goTo mode [.combinator c]
    | none => r.refuse (.unknownCombinator (Utf8.bytes text))

/-! ## One byte in each mode -/

def atIdle (r : Reader) (b : UInt8) : Outcome :=
  match Sign.of b with
  | .space => r.stay
  | .dot => r.start (.selector .className)
  | .hash => r.start (.selector .id)
  | .bracket | .colon => r.unsupported b
  | .joiner => r.refuse (.leadingCombinator b)
  | .opening | .closing | .comma | .semicolon => r.refuse (.noSelector b)
  | .plain => (r.push b).start (.selector .tag)

def atSelector (r : Reader) (part : Part) (b : UInt8) : Outcome :=
  match Sign.of b with
  | .space => r.endPart part fun e r => r.goTo .combinator [e, .selectorEnd]
  | .opening => r.endPart part fun e r => r.goTo .block [e, .selectorEnd, .chainEnd]
  | .comma => r.endPart part fun e r => r.goTo .idle [e, .selectorEnd, .chainEnd]
  | .joiner => r.endPart part fun e r => (r.push b).goTo .combinator [e, .selectorEnd]
  | .dot => r.endPart part fun e r => r.goTo (.selector .className) [e]
  | .hash =>
    if part = .id then r.refuse .idAfterId
    else r.endPart part fun e r => r.goTo (.selector .id) [e]
  | .bracket | .colon => r.unsupported b
  | .closing | .semicolon => r.refuse (.inSelector b)
  | .plain => (r.push b).stay

def atCombinator (r : Reader) (b : UInt8) : Outcome :=
  match Sign.of b with
  | .space => if r.pending.isEmpty then r.stay else r.endCombinator .idle id
  | .joiner =>
    if r.pending.isEmpty then (r.push b).stay
    else (r.push b).refuse (.unknownCombinator (r.push b).token)
  | .opening =>
    if r.pending.isEmpty then r.goTo .block [.chainEnd] else r.refuse (.danglingCombinator r.token b)
  | .comma =>
    if r.pending.isEmpty then r.goTo .idle [.chainEnd] else r.refuse (.danglingCombinator r.token b)
  | .bracket | .colon => r.unsupported b
  | .closing | .semicolon => r.refuse (.inSelector b)
  | .dot => r.endCombinator (.selector .className) id
  | .hash => r.endCombinator (.selector .id) id
  | .plain => r.endCombinator (.selector .tag) (·.push b)

def atBlock (r : Reader) (b : UInt8) : Outcome :=
  match Sign.of b with
  | .space | .semicolon => r.stay
  | .closing => r.close []
  | .opening | .colon => r.refuse (.noName b)
  | _ => (r.push b).goTo .name []

def atName (r : Reader) (b : UInt8) : Outcome :=
  match Sign.of b with
  | .space => r.take fun text r => r.goTo .colon [.name text]
  | .colon => r.take fun text r => r.goTo .value [.name text]
  | .opening | .closing | .semicolon => r.refuse (.noColon r.token b)
  | _ => (r.push b).stay

def atColon (r : Reader) (b : UInt8) : Outcome :=
  match Sign.of b with
  | .space => r.stay
  | .colon => r.goTo .value []
  | _ => r.refuse (.afterName b)

def atValue (r : Reader) (b : UInt8) : Outcome :=
  match Sign.of b with
  | .space => if r.pending.isEmpty then r.stay else r.take fun text r => r.goTo .terminator [.value text]
  | .semicolon => r.take fun text r => r.goTo .block [.value text]
  | .closing => r.take fun text r => r.close [.value text]
  | .opening => r.refuse .blockInValue
  | _ => (r.push b).stay

def atTerminator (r : Reader) (b : UInt8) : Outcome :=
  match Sign.of b with
  | .space => r.stay
  | .semicolon => r.goTo .block []
  | .closing => r.close []
  | _ => r.refuse (.afterValue b)

/-- A line end starts a new line. -/
def count (r : Reader) (b : UInt8) : Reader := if b = lineEnd then { r with line := r.line + 1 } else r

def read (r : Reader) (b : UInt8) : Outcome :=
  match r.mode with
  | .idle => r.atIdle b
  | .selector part => r.atSelector part b
  | .combinator => r.atCombinator b
  | .block => r.atBlock b
  | .name => r.atName b
  | .colon => r.atColon b
  | .value => r.atValue b
  | .terminator => r.atTerminator b

def step (r : Reader) (b : UInt8) : Outcome := (r.count b).read b

/-! ## Runs -/

/-- A run that has already reported `told`, the newest first. -/
def runAfter (told : List Event) (r : Reader) : List UInt8 → Outcome
  | [] => ⟨r, told.reverse, none⟩
  | b :: bs =>
    match r.step b with
    | ⟨r, events, none⟩ => runAfter (events.reverseAux told) r bs
    | ⟨r, events, some fault⟩ => ⟨r, told.reverse ++ events, some fault⟩

/-- Read bytes up to the first that is refused. -/
def run (r : Reader) (bs : List UInt8) : Outcome := runAfter [] r bs

theorem runAfter_eq (told : List Event) (r : Reader) (bs : List UInt8) :
    runAfter told r bs = { run r bs with events := told.reverse ++ (run r bs).events } := by
  unfold run
  induction bs generalizing told r with
  | nil => simp [runAfter]
  | cons b bs ih =>
    simp only [runAfter]
    split
    · rename_i r' es _
      rw [ih, ih (es.reverseAux [])]
      simp [List.reverseAux_eq]
    · simp

@[simp] theorem run_nil (r : Reader) : r.run [] = ⟨r, [], none⟩ := rfl

theorem run_cons (r : Reader) (b : UInt8) (bs : List UInt8) :
    r.run (b :: bs) = (r.step b).andThen (·.run bs) := by
  show runAfter [] r (b :: bs) = _
  simp only [runAfter, Outcome.andThen]
  split
  · rename_i r' es h
    rw [h, runAfter_eq]
    simp [List.reverseAux_eq]
  · rename_i r' es f h
    rw [h]; simp

theorem run_append (r : Reader) (xs ys : List UInt8) :
    r.run (xs ++ ys) = (r.run xs).andThen (·.run ys) := by
  induction xs generalizing r with
  | nil => simp [Outcome.andThen]
  | cons b xs ih =>
    simp only [List.cons_append, run_cons, Outcome.andThen]
    cases h : (r.step b).fault? with
    | some f => simp [h]
    | none =>
      simp only [ih, Outcome.andThen]
      cases h' : ((r.step b).reader.run xs).fault? <;> simp [h']

/-- Read chunk after chunk, up to the first fault. -/
def runAll (r : Reader) (chunks : List (List UInt8)) : Outcome :=
  match chunks with
  | [] => r.stay
  | c :: rest => (r.run c).andThen (·.runAll rest)

/-- How the cut falls does not matter. -/
theorem runAll_eq (r : Reader) (chunks : List (List UInt8)) : r.runAll chunks = r.run chunks.flatten := by
  induction chunks generalizing r with
  | nil => rfl
  | cons c rest ih => simp [runAll, run_append, ih]

/-- Why the input may not end here. -/
def endFault? (r : Reader) : Option Fault :=
  if r.isIdle then none
  else match r.mode with
    | .block | .name | .colon | .value | .terminator => some .endInBlock
    | .idle | .selector _ | .combinator => some .endInSelector

/-- The error that the end of the input raises, on the line reached. -/
def endError? (r : Reader) : Option SyntaxError := r.endFault?.map (⟨r.line, ·⟩)

theorem endFault?_eq_none_iff {r : Reader} : r.endFault? = none ↔ r.isIdle = true := by
  unfold endFault?
  split
  · simp [*]
  · split <;> simp [*]

end Reader

/-- The input ends after `o`. -/
def Outcome.ended (o : Outcome) : Outcome := o.andThen fun r => ⟨r, [], r.endFault?⟩

end Cascade
