/-
  Cascade.Proofs.Walk.Calls — a walk, call by call. A `Matcher` is a walk in the middle of
  its work: it looks at the node under the cursor or makes a move, one call in a step, and
  knows nothing of the document but the answers. Nothing in its definition says that it ever
  stops.

  1. A step brings it nearer to its end: `left` falls with every call, since a move leads to
     an earlier node, and a look that does not lead to a move leads to the next selector. So
     there are at most twice as many calls as nodes before the first one, and one more for
     each selector (`length_le_of_runs`).
  2. A step looks, or makes a move the document allows, or is refused one and stops
     (`step_cases`). So the nodes that a run comes to are earlier and earlier, it never goes
     back, and a move that is refused is its last call.
  3. The end that a matcher comes to, and the moves it makes on the way, are those of the walk
     (`makes_walk`). What is true of every run is then true of the walk (`walk_once`).
-/

import Cascade.Proofs.Walk.Search
import Mathlib.Data.List.Sort

namespace Cascade

/-! ## One call at a time -/

/-- One call on a cursor: a look at the node it is on, or a move. -/
inductive Call where
  | look
  | move (m : Move)
  deriving DecidableEq, Repr

def Call.move? : Call → Option Move
  | .look => none
  | .move m => some m

/-- What is done next; `rest` are the selectors that come after `s`, the nearest first. -/
inductive Matcher (d : Document) where
  /-- Look at the node. Where it does not match, go on in the direction, or stop if there is none. -/
  | looking (s : Selector) (onward : Option Direction) (rest : List Selector) (c : Cursor d)
  /-- Move, then look. -/
  | moving (dir : Direction) (s : Selector) (onward : Option Direction) (rest : List Selector) (c : Cursor d)
  | stopped (found : Bool) (c : Cursor d)

namespace Matcher

variable {d : Document}

/-- Turn to the next selector. -/
def aim : List Selector → Cursor d → Matcher d
  | [], c => .stopped true c
  | s :: rest, c =>
    match s.combinator with
    | .descendant => .moving .up s (some .up) rest c
    | .child => .moving .up s none rest c
    | .next => .moving .left s none rest c
    | .subsequent => .moving .left s (some .left) rest c
    | .none => .looking s none rest c

def start (chain : Chain) (c : Cursor d) : Matcher d :=
  match chain.selectors.reverse with
  | [] => .stopped false c
  | subject :: rest => .looking subject none rest c

/-- The next call and what comes after it. -/
def step : Matcher d → Option (Call × Matcher d)
  | .looking s onward rest c =>
    if s.matches c.node then some (.look, aim rest c)
    else
      match onward with
      | some dir => some (.look, .moving dir s onward rest c)
      | none => some (.look, .stopped false c)
  | .moving dir s onward rest c =>
    match d.toward dir c.here with
    | some i => some (.move (.made dir), .looking s onward rest (c.goTo i))
    | none => some (.move (.refused dir), .stopped false c)
  | .stopped _ _ => none

/-- Step after step, with the calls in order. -/
inductive Runs : Matcher d → List Call → Matcher d → Prop
  | nil (m : Matcher d) : Runs m [] m
  | cons {m m' m'' : Matcher d} {call : Call} {calls : List Call} :
      m.step = some (call, m') → Runs m' calls m'' → Runs m (call :: calls) m''

def cursor : Matcher d → Cursor d
  | .looking _ _ _ c => c
  | .moving _ _ _ _ c => c
  | .stopped _ c => c

/-- There are at most so many calls left to make. -/
def left : Matcher d → Nat
  -- where the search may go on, the look comes before a move from the same node
  | .looking _ onward rest c => 2 * c.here.val + rest.length + if onward.isSome then 2 else 1
  | .moving _ _ _ rest c => 2 * c.here.val + rest.length + 1
  | .stopped _ _ => 0

variable {m m' m'' : Matcher d} {call : Call} {calls calls' : List Call} {s : Selector} {rest : List Selector}
  {c : Cursor d} {dir : Direction} {i : d.Place} {onward : Option Direction}

/-! ## Steps -/

@[simp] theorem cursor_aim (rest : List Selector) (c : Cursor d) : (aim rest c).cursor = c := by
  cases rest with
  | nil => rfl
  | cons s rest => simp only [aim]; cases s.combinator <;> rfl

theorem left_aim_le (rest : List Selector) (c : Cursor d) : (aim rest c).left ≤ 2 * c.here.val + rest.length := by
  cases rest with
  | nil => exact Nat.zero_le _
  | cons s rest => simp only [aim]; cases s.combinator <;> exact Nat.le_refl _

theorem left_start_le (chain : Chain) (c : Cursor d) : (start chain c).left ≤ 2 * c.here.val + chain.length := by
  have hlength : chain.length = chain.selectors.reverse.length := List.length_reverse.symm
  unfold start
  rw [hlength]
  cases chain.selectors.reverse with
  | nil => exact Nat.zero_le _
  | cons subject rest => exact Nat.le_refl _

theorem cursor_start (chain : Chain) (c : Cursor d) : (start chain c).cursor = c := by
  unfold start
  cases chain.selectors.reverse with
  | nil => rfl
  | cons subject rest => rfl

theorem step_of_matches (h : s.matches c.node = true) :
    step (.looking s onward rest c) = some (.look, aim rest c) := if_pos h

theorem step_of_onward (h : ¬ s.matches c.node = true) :
    step (.looking s (some dir) rest c) = some (.look, .moving dir s (some dir) rest c) := if_neg h

theorem step_of_mismatch (h : ¬ s.matches c.node = true) :
    step (.looking s none rest c) = some (.look, .stopped false c) := if_neg h

theorem step_of_some (h : d.toward dir c.here = some i) :
    step (.moving dir s onward rest c) = some (.move (.made dir), .looking s onward rest (c.goTo i)) := by
  simp only [step, h]

theorem step_of_none (h : d.toward dir c.here = none) :
    step (.moving dir s onward rest c) = some (.move (.refused dir), .stopped false c) := by
  simp only [step, h]

/-- All that a step can do: look, make a move, or be refused one and stop. -/
theorem step_cases (h : m.step = some (call, m')) :
    (call = .look ∧ m'.cursor = m.cursor) ∨
      (∃ dir i, call = .move (.made dir) ∧ d.toward dir m.cursor.here = some i ∧ m'.cursor = m.cursor.goTo i) ∨
      (∃ dir, call = .move (.refused dir) ∧ d.toward dir m.cursor.here = none ∧ m' = .stopped false m.cursor) := by
  revert h
  fun_cases step m with
  | case1 s onward rest c hs =>
    intro h
    cases h
    exact .inl ⟨rfl, cursor_aim rest c⟩
  | case2 s rest c hs dir =>
    intro h
    cases h
    exact .inl ⟨rfl, rfl⟩
  | case3 s rest c hs =>
    intro h
    cases h
    exact .inl ⟨rfl, rfl⟩
  | case4 dir s onward rest c i hi =>
    intro h
    cases h
    exact .inr (.inl ⟨dir, i, rfl, hi, rfl⟩)
  | case5 dir s onward rest c hn =>
    intro h
    cases h
    exact .inr (.inr ⟨dir, rfl, hn, rfl⟩)
  | case6 found c =>
    intro h
    cases h

/-- A step brings the end nearer. -/
theorem left_lt (h : m.step = some (call, m')) : m'.left < m.left := by
  revert h
  fun_cases step m with
  | case1 s onward rest c hs =>
    intro h
    cases h
    refine Nat.lt_of_le_of_lt (left_aim_le rest c) (Nat.lt_add_of_pos_right ?_)
    split <;> omega
  | case2 s rest c hs dir =>
    intro h
    cases h
    exact Nat.lt_succ_self _
  | case3 s rest c hs =>
    intro h
    cases h
    exact Nat.succ_pos _
  | case4 dir s onward rest c i hi =>
    intro h
    cases h
    have hlt : i.val < c.here.val := Document.toward_lt hi
    simp only [left, Cursor.goTo]
    split <;> omega
  | case5 dir s onward rest c hn =>
    intro h
    cases h
    exact Nat.succ_pos _
  | case6 found c =>
    intro h
    cases h

/-! ## Runs -/

theorem Runs.trans (h : Runs m calls m') (h' : Runs m' calls' m'') : Runs m (calls ++ calls') m'' := by
  induction h with
  | nil => exact h'
  | cons hstep _ ih => exact .cons hstep (ih h')

theorem length_le_of_runs (h : Runs m calls m') : calls.length + m'.left ≤ m.left := by
  induction h with
  | nil => exact Nat.le_of_eq (Nat.zero_add _)
  | cons hstep _ ih =>
    have hlt := left_lt hstep
    rw [List.length_cons]
    omega

theorem reset_notMem (h : Runs m calls m') : .move .reset ∉ calls := by
  induction h with
  | nil => exact List.not_mem_nil
  | cons hstep _ ih =>
    rw [List.mem_cons, not_or]
    refine ⟨?_, ih⟩
    rcases step_cases hstep with ⟨rfl, -⟩ | ⟨dir, i, rfl, -⟩ | ⟨dir, rfl, -⟩ <;> simp

/-- Nothing comes after a refused move, and the matcher has not found all. -/
theorem last_of_refused {front back : List Call} (h : Runs m (front ++ .move (.refused dir) :: back) m') :
    back = [] ∧ ∃ c, m' = .stopped false c := by
  induction front generalizing m with
  | nil =>
    cases h with
    | cons hstep hrest =>
      rcases step_cases hstep with ⟨hcall, -⟩ | ⟨_, _, hcall, -⟩ | ⟨_, -, -, rfl⟩
      · cases hcall
      · cases hcall
      · cases hrest with
        | nil => exact ⟨rfl, _, rfl⟩
        | cons hstep _ => cases hstep
  | cons call front ih =>
    cases h with
    | cons _ hrest => exact ih hrest

end Matcher

/-- From one cursor to another by the calls, as the document answers them: `places` are the nodes
    that the moves lead to. -/
inductive Route {d : Document} : Cursor d → List Call → List d.Place → Cursor d → Prop
  | nil (c : Cursor d) : Route c [] [] c
  | look {c c' : Cursor d} {calls : List Call} {places : List d.Place} :
      Route c calls places c' → Route c (.look :: calls) places c'
  | made {c c' : Cursor d} {calls : List Call} {places : List d.Place} {dir : Direction} {i : d.Place} :
      d.toward dir c.here = some i → Route (c.goTo i) calls places c' →
        Route c (.move (.made dir) :: calls) (i :: places) c'
  | refused {c c' : Cursor d} {calls : List Call} {places : List d.Place} {dir : Direction} :
      d.toward dir c.here = none → Route c calls places c' → Route c (.move (.refused dir) :: calls) places c'
  | reset {c c' : Cursor d} {calls : List Call} {places : List d.Place} :
      Route c.reset calls places c' → Route c (.move .reset :: calls) (c.home :: places) c'

/-- There are no more places on a way down from a place than the ones before it. -/
theorem length_le_of_sortedGT {n : Nat} {i : Fin n} {places : List (Fin n)} (h : (i :: places).SortedGT) :
    places.length ≤ i.val := by
  induction places generalizing i with
  | nil => exact Nat.zero_le _
  | cons j places ih =>
    rw [List.sortedGT_iff_isChain, List.isChain_cons_cons, ← List.sortedGT_iff_isChain] at h
    obtain ⟨hji, hrest⟩ := h
    have hlt : j.val < i.val := hji
    have hlength := ih hrest
    rw [List.length_cons]
    omega

def Call.isMade : Call → Bool
  | .move (.made _) => true
  | _ => false

namespace Matcher

variable {d : Document} {m m' m'' : Matcher d} {call : Call} {calls calls' : List Call} {s : Selector}
  {rest : List Selector} {c : Cursor d} {dir : Direction} {i : d.Place} {onward : Option Direction}

/-- The way of a run through the document: it never comes back to a node. -/
theorem route_of_runs (h : Runs m calls m') :
    ∃ places, Route m.cursor calls places m'.cursor ∧ (m.cursor.here :: places).SortedGT ∧
      calls.countP Call.isMade = places.length := by
  induction h with
  | nil m => exact ⟨[], .nil _, List.sortedGT_iff_isChain.mpr (.singleton _), rfl⟩
  | cons hstep _ ih =>
    obtain ⟨places, hroute, hsorted, hcount⟩ := ih
    rcases step_cases hstep with ⟨rfl, hc⟩ | ⟨dir, i, rfl, hi, hc⟩ | ⟨dir, rfl, hn, rfl⟩
    · rw [hc] at hroute hsorted
      exact ⟨places, .look hroute, hsorted, hcount⟩
    · rw [hc] at hroute hsorted
      refine ⟨i :: places, .made hi hroute, ?_, ?_⟩
      · rw [List.sortedGT_iff_isChain] at hsorted ⊢
        exact .cons_cons (Document.toward_lt hi) hsorted
      · rw [List.countP_cons_of_pos rfl, hcount, List.length_cons]
    · exact ⟨places, .refused hn hroute, hsorted, hcount⟩

/-! ## The walk -/

/-- From the one to the other by these moves, with looks in between. -/
def Makes (m : Matcher d) (ms : List Move) (m' : Matcher d) : Prop :=
  ∃ calls, Runs m calls m' ∧ calls.filterMap Call.move? = ms

theorem Makes.refl (m : Matcher d) : Makes m [] m := ⟨[], .nil m, rfl⟩

theorem Makes.trans {ms ms' : List Move} (h : Makes m ms m') (h' : Makes m' ms' m'') : Makes m (ms ++ ms') m'' := by
  obtain ⟨calls, hruns, rfl⟩ := h
  obtain ⟨calls', hruns', rfl⟩ := h'
  exact ⟨calls ++ calls', hruns.trans hruns', List.filterMap_append⟩

theorem Makes.look {ms : List Move} (hstep : m.step = some (.look, m')) (h : Makes m' ms m'') : Makes m ms m'' := by
  obtain ⟨calls, hruns, rfl⟩ := h
  exact ⟨.look :: calls, .cons hstep hruns, rfl⟩

theorem Makes.move {move : Move} {ms : List Move} (hstep : m.step = some (.move move, m')) (h : Makes m' ms m'') :
    Makes m (move :: ms) m'' := by
  obtain ⟨calls, hruns, rfl⟩ := h
  exact ⟨.move move :: calls, .cons hstep hruns, rfl⟩

/-- What is done after `w`, the walk to one selector. -/
def goOn (w : Walk d) (rest : List Selector) : Matcher d :=
  if w.found then aim rest w.cursor else .stopped false w.cursor

/-- A look after which there is no going on. -/
theorem makes_look (s : Selector) (rest : List Selector) (c : Cursor d) :
    Makes (.looking s none rest c) [] (goOn ⟨s.matches c.node, c, []⟩ rest) := by
  by_cases hs : s.matches c.node = true
  · rw [goOn, if_pos hs]
    exact .look (step_of_matches hs) (.refl _)
  · rw [goOn, if_neg hs]
    exact .look (step_of_mismatch hs) (.refl _)

theorem makes_hop (dir : Direction) (s : Selector) (rest : List Selector) (c : Cursor d) :
    Makes (.moving dir s none rest c) (c.hop dir s).moves (goOn (c.hop dir s) rest) := by
  cases hd : d.toward dir c.here with
  | some i =>
    rw [Cursor.hop_of_some hd]
    exact .move (step_of_some hd) (makes_look s rest (c.goTo i))
  | none =>
    rw [Cursor.hop_of_none hd]
    exact .move (step_of_none hd) (.refl _)

theorem makes_seek (dir : Direction) (s : Selector) (rest : List Selector) (c : Cursor d) :
    Makes (.moving dir s (some dir) rest c) (c.seek dir s).moves (goOn (c.seek dir s) rest) := by
  fun_induction Cursor.seek dir s c with
  | case1 c i hd hs => exact .move (step_of_some hd) (.look (step_of_matches hs) (.refl _))
  | case2 c i hd hs ih => exact .move (step_of_some hd) (.look (step_of_onward hs) ih)
  | case3 c hd => exact .move (step_of_none hd) (.refl _)

theorem makes_relate (s : Selector) (rest : List Selector) (c : Cursor d) :
    Makes (aim (s :: rest) c) (c.relate s).moves (goOn (c.relate s) rest) := by
  simp only [aim, Cursor.relate]
  cases s.combinator with
  | none => exact makes_look s rest c
  | descendant => exact makes_seek .up s rest c
  | child => exact makes_hop .up s rest c
  | next => exact makes_hop .left s rest c
  | subsequent => exact makes_seek .left s rest c

/-- The matcher that stands where the walk ends. -/
def ended (w : Walk d) : Matcher d := .stopped w.found w.cursor

theorem makes_climb (rest : List Selector) (c : Cursor d) :
    Makes (aim rest c) (c.climb rest).moves (ended (c.climb rest)) := by
  induction rest generalizing c with
  | nil => exact .refl _
  | cons s rest ih =>
    have hrelate := makes_relate s rest c
    rw [Cursor.climb]
    by_cases hf : (c.relate s).found = true
    · simp only [hf, if_true]
      rw [goOn, if_pos hf] at hrelate
      exact hrelate.trans (ih (c.relate s).cursor)
    · simp only [hf]
      rw [goOn, if_neg hf] at hrelate
      have hend : ended (c.relate s) = .stopped false (c.relate s).cursor := by
        rw [ended, Bool.eq_false_iff.mpr hf]
      rw [← hend] at hrelate
      exact hrelate

/-- A matcher comes to the end of the walk, by the moves of the walk. -/
theorem makes_walk (chain : Chain) (c : Cursor d) :
    Makes (start chain c) (chain.walk c).moves (ended (chain.walk c)) := by
  unfold start Chain.walk
  cases chain.selectors.reverse with
  | nil => exact .refl _
  | cons subject rest =>
    dsimp only
    by_cases hs : subject.matches c.node = true
    · rw [if_pos hs]
      exact .look (step_of_matches hs) (makes_climb rest c)
    · rw [if_neg hs]
      exact .look (step_of_mismatch hs) (.refl _)

end Matcher

/-- What is found ends on a node that the last selector asks for. -/
theorem Cursor.climb_here {d : Document} {c : Cursor d} {s : Selector} {rest : List Selector}
    (hs : s.matches c.node = true) (h : (c.climb rest).found = true) :
    ∃ t, (s :: rest).getLast? = some t ∧ t.matches (c.climb rest).cursor.node = true := by
  induction rest generalizing s c with
  | nil => exact ⟨s, rfl, hs⟩
  | cons t rest ih =>
    rw [climb] at h ⊢
    by_cases hf : (c.relate t).found = true
    · simp only [hf, if_true] at h ⊢
      have ht : t.matches (c.relate t).cursor.node = true := (relate_here hf).1.1
      rw [List.getLast?_cons_cons]
      exact ih ht h
    · simp only [hf] at h
      exact absurd h hf

theorem walk_here {d : Document} {chain : Chain} {c : Cursor d} (h : (chain.walk c).found = true) :
    ∃ s, chain.selectors.head? = some s ∧ s.matches (chain.walk c).cursor.node = true := by
  rw [← List.getLast?_reverse]
  unfold Chain.walk at h ⊢
  generalize chain.selectors.reverse = xs at h ⊢
  cases xs with
  | nil => cases h
  | cons subject rest =>
    dsimp only at h ⊢
    by_cases hs : subject.matches c.node = true
    · rw [if_pos hs] at h ⊢
      exact Cursor.climb_here hs h
    · rw [if_neg hs] at h
      cases h

/-- Where the node under the cursor is not what the subject asks for, or there is no subject, nothing is moved. -/
theorem walk_of_mismatch {d : Document} {chain : Chain} {c : Cursor d}
    (h : ∀ s, chain.subject? = some s → s.matches c.node = false) : chain.walk c = ⟨false, c, []⟩ := by
  rw [Chain.subject?, ← List.head?_reverse] at h
  unfold Chain.walk
  generalize chain.selectors.reverse = xs at h ⊢
  cases xs with
  | nil => rfl
  | cons subject rest =>
    dsimp only
    rw [h subject rfl]
    rfl

/-- A walk stops, after at most two calls for each node before the first one and one for each selector. It never goes
    back; the nodes that its moves lead to are earlier and earlier; a move that is refused is its last call, and then
    the answer is no. Where the subject does not match, or there is none, it makes no move, and where the answer is
    yes, the cursor is on a node that the outermost selector asks for. -/
theorem walk_once {d : Document} (chain : Chain) (c : Cursor d) :
    let w := chain.walk c
    (∃ calls places,
      (Matcher.Runs (.start chain c) calls (.stopped w.found w.cursor) ∧ calls.filterMap Call.move? = w.moves ∧
        calls.length ≤ 2 * c.here.val + chain.length) ∧
      (.move .reset ∉ calls ∧
        ∀ front dir back, calls = front ++ .move (.refused dir) :: back → back = [] ∧ w.found = false) ∧
      (Route c calls places w.cursor ∧ (c.here :: places).SortedGT ∧ (c.here :: places).Nodup ∧
        calls.countP Call.isMade = places.length ∧ places.length ≤ c.here.val)) ∧
    ((∀ s, chain.subject? = some s → s.matches c.node = false) → w = ⟨false, c, []⟩) ∧
    (w.found = true → ∃ s, chain.selectors.head? = some s ∧ s.matches w.cursor.node = true) := by
  intro w
  refine ⟨?_, walk_of_mismatch, walk_here⟩
  obtain ⟨calls, hruns, hmoves⟩ := Matcher.makes_walk chain c
  obtain ⟨places, hroute, hsorted, hcount⟩ := Matcher.route_of_runs hruns
  rw [Matcher.cursor_start] at hroute hsorted
  have hlength := Matcher.length_le_of_runs hruns
  have hstart := Matcher.left_start_le chain c
  refine ⟨calls, places, ⟨hruns, hmoves, by omega⟩, ⟨Matcher.reset_notMem hruns, ?_⟩,
    hroute, hsorted, hsorted.nodup, hcount, length_le_of_sortedGT hsorted⟩
  intro front dir back hcalls
  rw [hcalls] at hruns
  obtain ⟨hback, c', hstopped⟩ := Matcher.last_of_refused hruns
  exact ⟨hback, (Matcher.stopped.inj hstopped).1⟩

theorem walk_once_branched :
    ((straightChain.walk (Cursor.atHome (d := branched) (7 : Fin 8))).found = true ∧
        ∃ s, straightChain.selectors.head? = some s ∧
          s.matches (straightChain.walk (Cursor.atHome (d := branched) (7 : Fin 8))).cursor.node = true) ∧
      (∀ s, straightChain.subject? = some s → s.matches (branched.node (5 : Fin 8)) = false) ∧
        straightChain.walk (Cursor.atHome (d := branched) (5 : Fin 8)) = ⟨false, .atHome (5 : Fin 8), []⟩ := by
  have hfound : (straightChain.walk (Cursor.atHome (d := branched) (7 : Fin 8))).found = true := by decide +kernel
  have hmismatch : ∀ s, straightChain.subject? = some s → s.matches (branched.node (5 : Fin 8)) = false := by
    intro s hs
    cases hs
    decide
  exact ⟨⟨hfound, (walk_once straightChain (Cursor.atHome (d := branched) (7 : Fin 8))).2.2 hfound⟩, hmismatch,
    (walk_once straightChain (Cursor.atHome (d := branched) (5 : Fin 8))).2.1 hmismatch⟩

-- three nodes before the first one and two selectors: eight calls, as many as there may be, and four of them moves
example :
    let chain : Chain := ⟨[{ tag := "x", combinator := .descendant }, { tag := "c" }]⟩
    (chain.walk (Cursor.atHome (d := nested) (3 : Fin 4))).moves =
      [.made .up, .made .up, .made .up, .refused .up] := by
  decide +kernel

end Cascade
