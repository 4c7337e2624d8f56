/-
  Cascade.Proofs.Tool.Session — where a session comes to. All that a call can do is said once
  (`Moves`), and the rest is told from that:

  1. Each state of a session decides how it will end, and no call changes that (`due_moves`).
     What is left to be read counts, and not how it is cut.
  2. Each call brings a session nearer to its end, so it comes to one (`comes_end`).
  3. Before the first write all files are as they were. After it the file that the arguments
     ask for holds what has been written, and all others are as they were (`kept_moves`).
-/

import Cascade.Proofs.Tool.Files

namespace Cascade

/-- How a run of the formatter ends. -/
structure Ending where
  failure? : Option Failure
  output : List UInt8
  files : Workspace

namespace World

def ending (world : World) (failure? : Option Failure) : Ending := ⟨failure?, world.output, world.files⟩

/-- What is left to be read. -/
def unread (world : World) : Handle → List Reply
  | .standardInput => world.input
  | .item p offset => world.files.readings p offset

/-! ## What is due

How a session ends that has these bytes to write, this text to put somewhere, this reading
behind it, this job to do, these arguments to look at. -/

def dueWriting (world : World) (place? : Option Path) (left : List UInt8) : Ending :=
  match left with
  | [] => world.ending none
  | _ => (world.put place? left).ending none

def dueCreating (world : World) (job : Job) (text : String) : Ending :=
  match job.output with
  | none => world.dueWriting none (Utf8.bytes text)
  | some path =>
    match world.files.create path with
    | .ok (p, files) => { world with files }.dueWriting (some p) (Utf8.bytes text)
    | .error fault => world.ending (some (.creating path fault))

def dueReading (world : World) (job : Job) (reading : Sheet.Reading NameTable String) : Ending :=
  match reading.result with
  | .ok sheet => world.dueCreating job (sheet.toText job.indent reading.memory.rendering)
  | .error e => world.ending (some (.parsing job.input e))

def dueOpening (world : World) (job : Job) : Ending :=
  match world.openInput job with
  | .ok handle => world.dueReading job (Sheet.read NameTable.host {} {} (world.unread handle))
  | .error f => world.ending (some f)

def dueStarting (world : World) (args : List String) : Ending :=
  match Command.parse args with
  | .error e => world.ending (some (.usage e))
  | .ok .help => world.dueWriting none (Utf8.bytes Command.helpText)
  | .ok (.format job) => world.dueOpening job

end World

/-- Nothing has been written in this stage. -/
def Stage.quiet : Stage → Bool
  | .writing _ _ | .ended none => false
  | _ => true

namespace Session

/-- How the session will end. -/
def due : Session → Ending
  | ⟨.starting args, world⟩ => world.dueStarting args
  | ⟨.opening job, world⟩ => world.dueOpening job
  | ⟨.reading job handle build supply, world⟩ =>
    world.dueReading job (Sheet.readFrom NameTable.host build.reader build.builder supply (world.unread handle))
  | ⟨.creating job text, world⟩ => world.dueCreating job text
  | ⟨.writing place? left, world⟩ => world.dueWriting place? left
  | ⟨.ended failure?, world⟩ => world.ending failure?

end Session

namespace World

variable {world world' : World} {job : Job} {handle handle' : Handle} {reply : Reply}

/-! ## Writes -/

theorem dueWriting_cons (world : World) (place? : Option Path) (b : UInt8) (before after : List UInt8) :
    (world.put place? (b :: before)).dueWriting place? after = world.dueWriting place? (b :: (before ++ after)) := by
  cases after with
  | nil => rw [List.append_nil]; rfl
  | cons c after =>
    cases place? with
    | none => simp [dueWriting, put, ending]
    | some p => simp [dueWriting, put, ending, Workspace.extend_extend]

theorem dueWriting_standardOutput (world : World) (left : List UInt8) :
    world.dueWriting none left = ⟨none, world.output ++ left, world.files⟩ := by
  cases left <;> simp [dueWriting, ending, put]

/-- A file that was made has the bytes of the writes. -/
theorem dueWriting_made {input : List Reply} {output : List UInt8} {w : Workspace} {p : Path} (sent left : List UInt8) :
    (⟨input, output, w.set p (.file sent)⟩ : World).dueWriting (some p) left =
      ⟨none, output, w.set p (.file (sent ++ left))⟩ := by
  cases left <;> simp [dueWriting, ending, put, Workspace.extend_set]

/-! ## Reads -/

/-- What the standard input holds plays no part once the reading is over. -/
theorem dueReading_input (world : World) (input : List Reply) (job : Job) (reading : Sheet.Reading NameTable String) :
    { world with input }.dueReading job reading = world.dueReading job reading := by
  unfold dueReading
  cases reading.result with
  | error e => rfl
  | ok sheet =>
    simp only [dueCreating]
    cases job.output with
    | none => rfl
    | some path =>
      simp only
      cases world.files.create path <;> rfl

/-- What a reading comes to depends on what is handed over and on the failure, if there is one. -/
theorem readFrom_congr {r : Reader} {b : Builder NameTable String} {supply : Supply} {source source' : List Reply}
    (hserved : Source.served source = Source.served source') (hhalt : Source.halt? source = Source.halt? source') :
    Sheet.readFrom NameTable.host r b supply source = Sheet.readFrom NameTable.host r b supply source' := by
  rw [Sheet.readFrom_eq, Sheet.readFrom_eq, hserved, hhalt]

/-- Bytes in two pieces, the first of which is empty only if both are. -/
theorem served_pieces {before after : List UInt8} (h : before = [] → after = []) :
    Source.served [.bytes before, .bytes after] = Source.served [.bytes (before ++ after)] ∧
      Source.halt? [.bytes before, .bytes after] = Source.halt? [.bytes (before ++ after)] := by
  match before, after with
  | [], [] => exact ⟨rfl, rfl⟩
  | [], _ :: _ => cases h rfl
  | _ :: _, [] => exact ⟨by simp [Source.served], rfl⟩
  | _ :: _, _ :: _ => exact ⟨by simp [Source.served], rfl⟩

/-- All that a read can do. -/
inductive Reads (world : World) (most : Nat) : Handle → Reply → Handle → World → Prop
  | ended : world.input = [] → Reads world most .standardInput (.bytes []) .standardInput world
  | replied {reply rest} : world.input = reply :: rest →
      Reads world most .standardInput reply .standardInput { world with input := rest }
  | file {p offset bytes} : world.files.item? p = some (.file bytes) →
      Reads world most (.item p offset) (.bytes ((bytes.drop offset).take most))
        (.item p (offset + ((bytes.drop offset).take most).length)) world
  | directory {p offset} : world.files.item? p = some .directory →
      Reads world most (.item p offset) (.failed .isADirectory) (.item p offset) world
  | gone {p offset} : world.files.item? p = none → Reads world most (.item p offset) (.bytes []) (.item p offset) world

theorem reads_of_read {most : Nat} (h : world.read most handle = (reply, handle', world')) :
    Reads world most handle reply handle' world' := by
  cases handle with
  | standardInput =>
    simp only [read] at h
    cases hinput : world.input with
    | nil =>
      rw [hinput] at h
      cases h
      exact .ended hinput
    | cons first rest =>
      rw [hinput] at h
      cases h
      exact .replied hinput
  | item p offset =>
    simp only [read] at h
    match hitem : world.files.item? p with
    | none =>
      rw [hitem] at h
      cases h
      exact .gone hitem
    | some .directory =>
      rw [hitem] at h
      cases h
      exact .directory hitem
    | some (.file bytes) =>
      rw [hitem] at h
      cases h
      exact .file hitem

/-- A read takes a reply off what is left to be read. -/
theorem readFrom_read {r : Reader} {b : Builder NameTable String} {supply : Supply} {more : Nat}
    (h : Reads world (more + 1) handle reply handle' world') :
    Sheet.readFrom NameTable.host r b supply (reply :: world'.unread handle') =
      Sheet.readFrom NameTable.host r b supply (world.unread handle) := by
  cases h with
  | ended hinput => simp [unread, hinput, Sheet.readFrom]
  | replied hinput => simp [unread, hinput]
  | directory hitem => simp [unread, Workspace.readings, hitem, Sheet.readFrom]
  | gone hitem => simp [unread, Workspace.readings, hitem, Sheet.readFrom]
  | @file p offset bytes hitem =>
    generalize hleft : bytes.drop offset = left
    have hrest : bytes.drop (offset + (left.take (more + 1)).length) = left.drop (more + 1) := by
      rw [← List.drop_drop, hleft, List.drop_eq_drop_iff, List.length_take]
      omega
    have hend : left.take (more + 1) = [] → left.drop (more + 1) = [] := by
      intro hnone
      have hnil : left = [] := by simpa using hnone
      rw [hnil, List.drop_nil]
    have hpieces := served_pieces hend
    rw [List.take_append_drop] at hpieces
    simp only [unread, Workspace.readings, hitem, hrest, hleft]
    exact readFrom_congr hpieces.1 hpieces.2

theorem world_of_reads {most : Nat} (h : Reads world most handle reply handle' world') :
    ∃ input, world' = { world with input } := by
  cases h with
  | replied => exact ⟨_, rfl⟩
  | ended | file | directory | gone => exact ⟨world.input, rfl⟩

/-- So many replies or bytes are left. -/
def amount (world : World) : Handle → Nat
  | .standardInput => world.input.length
  | .item p offset =>
    match world.files.item? p with
    | some (.file bytes) => bytes.length - offset
    | _ => 0

/-- There is less left after each read, but for one at the end and one that fails. -/
theorem amount_read {more : Nat} (h : Reads world (more + 1) handle reply handle' world') (hend : reply ≠ .bytes [])
    (hfail : ∀ fault, reply ≠ .failed fault) : world'.amount handle' < world.amount handle := by
  cases h with
  | ended => exact absurd rfl hend
  | replied hinput => simp [amount, hinput]
  | directory => exact absurd rfl (hfail _)
  | gone => exact absurd rfl hend
  | @file p offset bytes hitem =>
    have hsome : offset < bytes.length := by
      by_contra hnone
      exact hend (by simp [List.drop_eq_nil_of_le (Nat.le_of_not_lt hnone)])
    simp only [amount, hitem, List.length_take, List.length_drop]
    omega

end World

namespace Session

variable {s s' : Session} {more : Nat}

/-! ## One call -/

/-- All that a call can do. -/
inductive Moves : Session → Session → Prop
  | begun {args world} : Moves ⟨.starting args, world⟩ ⟨.begin args, world⟩
  | opened {job world handle} : world.openInput job = .ok handle →
      Moves ⟨.opening job, world⟩ ⟨.reading job handle (.new {}) {}, world⟩
  | unopened {job world f} : world.openInput job = .error f → Moves ⟨.opening job, world⟩ ⟨.ended (some f), world⟩
  | heard {job handle build supply world more reply handle' world'} :
      World.Reads world (more + 1) handle reply handle' world' →
      Moves ⟨.reading job handle build supply, world⟩ ⟨.hear job handle' build supply reply, world'⟩
  | shown {job text world} : job.output = none →
      Moves ⟨.creating job text, world⟩ ⟨.writing none (Utf8.bytes text), world⟩
  | made {job text world path p files} : job.output = some path → world.files.create path = .ok (p, files) →
      Moves ⟨.creating job text, world⟩ ⟨.writing (some p) (Utf8.bytes text), { world with files }⟩
  | unmade {job text world path fault} : job.output = some path → world.files.create path = .error fault →
      Moves ⟨.creating job text, world⟩ ⟨.ended (some (.creating path fault)), world⟩
  | finished {place? world} : Moves ⟨.writing place? [], world⟩ ⟨.ended none, world⟩
  | wrote {place? b bs world more} :
      Moves ⟨.writing place? (b :: bs), world⟩ ⟨.writing place? (bs.drop more), world.put place? (b :: bs.take more)⟩

theorem moves_of_step (h : s.step more = some s') : Moves s s' := by
  obtain ⟨stage, world⟩ := s
  cases stage with
  | starting args =>
    cases h
    exact .begun
  | opening job =>
    simp only [step] at h
    cases hopen : world.openInput job <;> rw [hopen] at h <;> cases h
    · exact .unopened hopen
    · exact .opened hopen
  | reading job handle build supply =>
    cases h
    exact .heard (World.reads_of_read rfl)
  | creating job text =>
    simp only [step] at h
    cases hout : job.output with
    | none =>
      rw [hout] at h
      cases h
      exact .shown hout
    | some path =>
      simp only [hout] at h
      cases hmade : world.files.create path <;> rw [hmade] at h <;> cases h
      · exact .unmade hout hmade
      · exact .made hout hmade
  | writing place? left =>
    cases left with
    | nil =>
      cases h
      exact .finished
    | cons b bs =>
      cases h
      exact .wrote
  | ended failure? => cases h

/-- A session that has not ended goes on. -/
theorem step_isSome (h : ∀ failure?, s.stage ≠ .ended failure?) : ∃ s', s.step more = some s' := by
  obtain ⟨stage, world⟩ := s
  cases stage with
  | starting args => exact ⟨_, rfl⟩
  | opening job => cases hopen : world.openInput job <;> exact ⟨_, by simp only [step, hopen]; rfl⟩
  | reading job handle build supply => exact ⟨_, rfl⟩
  | creating job text =>
    cases hout : job.output with
    | none => exact ⟨_, by simp only [step, hout]; rfl⟩
    | some path => cases hmade : world.files.create path <;> exact ⟨_, by simp only [step, hout, hmade]; rfl⟩
  | writing place? left => cases left <;> exact ⟨_, rfl⟩
  | ended failure? => exact absurd rfl (h failure?)

/-! ## What is due stays due -/

theorem due_hear (job : Job) (handle : Handle) (build : Build NameTable String) (supply : Supply) (reply : Reply)
    (world : World) :
    due ⟨.hear job handle build supply reply, world⟩ =
      world.dueReading job
        (Sheet.readFrom NameTable.host build.reader build.builder supply (reply :: world.unread handle)) := by
  rcases reply with ⟨_ | ⟨b, bs⟩⟩ | _ | fault
  · simp only [Stage.hear, Sheet.readFrom, Sheet.endReading]
    cases build.reader.endError? <;> rfl
  · simp only [Stage.hear, Sheet.readFrom]
    cases (build.reader.run (b :: bs)).error? <;> rfl
  · rfl
  · rfl

theorem due_begin (args : List String) (world : World) : due ⟨.begin args, world⟩ = world.dueStarting args := by
  unfold Stage.begin World.dueStarting
  rcases Command.parse args with e | (_ | job) <;> rfl

theorem due_moves (h : Moves s s') : s'.due = s.due := by
  cases h with
  | begun => exact due_begin _ _
  | opened hopen => simp only [due, World.dueOpening, hopen]; rfl
  | unopened hopen => simp only [due, World.dueOpening, hopen]
  | heard hread =>
    obtain ⟨input, rfl⟩ := World.world_of_reads hread
    rw [due_hear, World.readFrom_read hread, World.dueReading_input]
    rfl
  | shown hout => simp only [due, World.dueCreating, hout]
  | made hout hmade => simp only [due, World.dueCreating, hout, hmade]
  | unmade hout hmade => simp only [due, World.dueCreating, hout, hmade]
  | finished => rfl
  | @wrote place? b bs world more =>
    have hwhole := World.dueWriting_cons world place? b (bs.take more) (bs.drop more)
    rwa [List.take_append_drop] at hwhole

theorem due_comes (h : Comes s s') : s'.due = s.due := by
  induction h with
  | here => rfl
  | next _ hstep ih => exact (due_moves (moves_of_step hstep)).trans ih

/-! ## Every session ends -/

/-- The stages come in this order, from the highest number down. -/
def rank : Stage → Nat
  | .starting _ => 5
  | .opening _ => 4
  | .reading _ _ _ _ => 3
  | .creating _ _ => 2
  | .writing _ _ => 1
  | .ended _ => 0

/-- How much there is left to do in the stage. -/
def amount : Session → Nat
  | ⟨.reading _ handle _ _, world⟩ => world.amount handle
  | ⟨.writing _ left, _⟩ => left.length
  | _ => 0

/-- The session is nearer to its end. -/
def Nearer : Session → Session → Prop := InvImage (Prod.Lex (· < ·) (· < ·)) fun s => (rank s.stage, amount s)

theorem nearer_of_rank (h : rank s'.stage < rank s.stage) : Nearer s' s := Prod.Lex.left _ _ h

theorem nearer_of_amount (hrank : rank s'.stage = rank s.stage) (h : amount s' < amount s) : Nearer s' s := by
  show Prod.Lex _ _ (rank s'.stage, amount s') (rank s.stage, amount s)
  rw [hrank]
  exact Prod.Lex.right _ h

theorem wellFounded_nearer : WellFounded Nearer :=
  InvImage.wf _ (Prod.lex ⟨_, Nat.lt_wfRel.wf⟩ ⟨_, Nat.lt_wfRel.wf⟩).wf

/-- All that can come of a reply. -/
theorem hear_cases (job : Job) (handle : Handle) (build : Build NameTable String) (supply : Supply) (reply : Reply) :
    (∃ build' supply', Stage.hear job handle build supply reply = .reading job handle build' supply' ∧
      reply ≠ .bytes [] ∧ ∀ fault, reply ≠ .failed fault) ∨
    (∃ text, Stage.hear job handle build supply reply = .creating job text) ∨
    ∃ f, Stage.hear job handle build supply reply = .ended (some f) := by
  rcases reply with ⟨_ | ⟨b, bs⟩⟩ | _ | fault
  · simp only [Stage.hear]
    cases build.reader.endError? with
    | none => exact .inr (.inl ⟨_, rfl⟩)
    | some e => exact .inr (.inr ⟨_, rfl⟩)
  · simp only [Stage.hear]
    cases (build.reader.run (b :: bs)).error? with
    | none => exact .inl ⟨_, _, rfl, by simp, by simp⟩
    | some e => exact .inr (.inr ⟨_, rfl⟩)
  · exact .inl ⟨build, supply, rfl, by simp, by simp⟩
  · exact .inr (.inr ⟨_, rfl⟩)

/-- All that arguments can begin with. -/
theorem begin_cases (args : List String) :
    (∃ e, Command.parse args = .error e ∧ Stage.begin args = .ended (some (.usage e))) ∨
    (Command.parse args = .ok .help ∧ Stage.begin args = .writing none (Utf8.bytes Command.helpText)) ∨
    ∃ job, Command.parse args = .ok (.format job) ∧ Stage.begin args = .opening job := by
  unfold Stage.begin
  rcases Command.parse args with e | (_ | job)
  · exact .inl ⟨e, rfl, rfl⟩
  · exact .inr (.inl ⟨rfl, rfl⟩)
  · exact .inr (.inr ⟨job, rfl, rfl⟩)

theorem nearer_moves (h : Moves s s') : Nearer s' s := by
  cases h with
  | @begun args world =>
    refine nearer_of_rank ?_
    rcases begin_cases args with ⟨e, -, hbegin⟩ | ⟨-, hbegin⟩ | ⟨job, -, hbegin⟩ <;> simp [hbegin, rank]
  | @heard job handle build supply world more reply handle' world' hread =>
    rcases hear_cases job handle' build supply reply with
      ⟨build', supply', hhear, hend, hfail⟩ | ⟨text, hhear⟩ | ⟨f, hhear⟩ <;> rw [hhear]
    · exact nearer_of_amount rfl (World.amount_read hread hend hfail)
    · exact nearer_of_rank (by simp [rank])
    · exact nearer_of_rank (by simp [rank])
  | wrote =>
    refine nearer_of_amount rfl ?_
    simp only [amount, List.length_drop, List.length_cons]
    omega
  | opened | unopened | shown | made | unmade | finished => exact nearer_of_rank (by simp [rank])

/-- No session goes on for ever, whatever the calls move. -/
theorem wellFounded_step : WellFounded fun s' s : Session => ∃ more, s.step more = some s' :=
  Subrelation.wf (fun ⟨_, hstep⟩ => nearer_moves (moves_of_step hstep)) wellFounded_nearer

theorem Comes.first {s'' : Session} (hstep : s.step more = some s') (h : Comes s' s'') : Comes s s'' := by
  induction h with
  | here => exact .next (.here s) hstep
  | next _ hstep' ih => exact .next ih hstep'

theorem comes_end (s : Session) : ∃ s' failure?, Comes s s' ∧ s'.stage = .ended failure? := by
  induction s using wellFounded_step.induction with | _ s ih
  by_cases hended : ∃ failure?, s.stage = .ended failure?
  · obtain ⟨failure?, hended⟩ := hended
    exact ⟨s, failure?, .here s, hended⟩
  · obtain ⟨next, hstep⟩ := @step_isSome s 0 (fun failure? he => hended ⟨failure?, he⟩)
    obtain ⟨s', failure?, hcomes, hended'⟩ := ih next ⟨0, hstep⟩
    exact ⟨s', failure?, .first hstep hcomes, hended'⟩

theorem due_of_ended {failure? : Option Failure} (h : s.stage = .ended failure?) :
    s.due = ⟨failure?, s.world.output, s.world.files⟩ := by
  obtain ⟨stage, world⟩ := s
  cases h
  rfl

/-! ## What is kept -/

/-- The arguments ask for a file to be written, and this is its place. -/
def OutputAt (args : List String) (w : Workspace) (p : Path) : Prop :=
  ∃ job path, Command.parse args = .ok (.format job) ∧ job.output = some path ∧ w.place path = .ok p

/-- The file that the arguments ask for holds some bytes, and no other file differs. -/
def Written (args : List String) (w : Workspace) (world : World) : Prop :=
  world.output = [] ∧ ∃ p sent, OutputAt args w p ∧ world.files = w.set p (.file sent)

/-- What a session with these arguments has done to the files by the time that it is in a stage. -/
def Kept (args : List String) (w : Workspace) : Session → Prop
  | ⟨.starting args', world⟩ => args' = args ∧ world.output = [] ∧ world.files = w
  | ⟨.opening job, world⟩ | ⟨.reading job _ _ _, world⟩ | ⟨.creating job _, world⟩ =>
    Command.parse args = .ok (.format job) ∧ world.output = [] ∧ world.files = w
  | ⟨.writing none _, world⟩ => world.files = w
  | ⟨.writing (some p) _, world⟩ =>
    world.output = [] ∧ OutputAt args w p ∧ ∃ sent, world.files = w.set p (.file sent)
  | ⟨.ended none, world⟩ => world.files = w ∨ Written args w world
  | ⟨.ended (some _), world⟩ => world.output = [] ∧ world.files = w

variable {args : List String} {stdin : List Reply} {w : Workspace}

theorem kept_moves (h : Moves s s') (hkept : Kept args w s) : Kept args w s' := by
  cases h with
  | @begun args' world =>
    obtain ⟨rfl, hworld⟩ := hkept
    rcases begin_cases args' with ⟨e, -, hbegin⟩ | ⟨-, hbegin⟩ | ⟨job, hparse, hbegin⟩ <;> rw [hbegin]
    · exact hworld
    · exact hworld.2
    · exact ⟨hparse, hworld⟩
  | opened => exact hkept
  | unopened => exact hkept.2
  | @heard job handle build supply world more reply handle' world' hread =>
    obtain ⟨input, rfl⟩ := World.world_of_reads hread
    rcases hear_cases job handle' build supply reply with ⟨build', supply', hhear, -⟩ | ⟨text, hhear⟩ | ⟨f, hhear⟩ <;>
      rw [hhear]
    · exact hkept
    · exact hkept
    · exact hkept.2
  | shown => exact hkept.2.2
  | made hout hmade =>
    obtain ⟨hparse, houtput, rfl⟩ := hkept
    obtain ⟨hplace, -, rfl⟩ := Workspace.create_ok hmade
    exact ⟨houtput, ⟨_, _, hparse, hout, hplace⟩, [], rfl⟩
  | unmade => exact hkept.2
  | @finished place? world =>
    cases place? with
    | none => exact .inl hkept
    | some p =>
      obtain ⟨houtput, hat, sent, hfiles⟩ := hkept
      exact .inr ⟨houtput, p, sent, hat, hfiles⟩
  | @wrote place? b bs world more =>
    cases place? with
    | none => exact hkept
    | some p =>
      obtain ⟨houtput, hat, sent, hfiles⟩ := hkept
      refine ⟨houtput, hat, sent ++ (b :: bs.take more), ?_⟩
      show world.files.extend p _ = _
      rw [hfiles, Workspace.extend_set]

theorem kept_comes (h : Comes (start args stdin w) s) : Kept args w s := by
  induction h with
  | here => exact ⟨rfl, rfl, rfl⟩
  | next _ hstep ih => exact kept_moves (moves_of_step hstep) ih

/-- As long as nothing is written, nothing is shown, and the files are as they were. -/
theorem untouched_of_quiet (h : Kept args w s) (hquiet : s.stage.quiet = true) :
    s.world.output = [] ∧ s.world.files = w := by
  obtain ⟨stage, world⟩ := s
  cases stage with
  | starting | opening | reading | creating => exact h.2
  | writing => cases hquiet
  | ended failure? =>
    cases failure? with
    | none => cases hquiet
    | some f => exact h

/-- At each moment the files are as they were, or the one asked for is being written and all others are as they were. -/
theorem kept_files (h : Kept args w s) : s.world.files = w ∨ Written args w s.world := by
  obtain ⟨stage, world⟩ := s
  cases stage with
  | starting | opening | reading | creating => exact .inl h.2.2
  | writing place? =>
    cases place? with
    | none => exact .inl h
    | some p =>
      obtain ⟨houtput, hat, sent, hfiles⟩ := h
      exact .inr ⟨houtput, p, sent, hat, hfiles⟩
  | ended failure? =>
    cases failure? with
    | none => exact h
    | some f => exact .inl h.2

/-- A session that helps opens nothing and reads nothing. -/
theorem comes_help (hparse : Command.parse args = .ok .help) (h : Comes (start args stdin w) s) :
    s.world.input = stdin ∧ s.world.files = w ∧
      (s.stage = .starting args ∨ (∃ left, s.stage = .writing none left) ∨ s.stage = .ended none) := by
  induction h with
  | here => exact ⟨rfl, rfl, .inl rfl⟩
  | @next before after more _ hstep ih =>
    obtain ⟨hinput, hfiles, hstage⟩ := ih
    obtain ⟨stage, world⟩ := before
    rcases hstage with rfl | ⟨left, rfl⟩ | rfl
    · cases hstep
      have hbegin : Stage.begin args = .writing none (Utf8.bytes Command.helpText) := by
        unfold Stage.begin
        rw [hparse]
      exact ⟨hinput, hfiles, .inr (.inl ⟨_, hbegin⟩)⟩
    · cases left <;> cases hstep
      · exact ⟨hinput, hfiles, .inr (.inr rfl)⟩
      · exact ⟨hinput, hfiles, .inr (.inl ⟨_, rfl⟩)⟩
    · cases hstep

end Session

end Cascade
