/-
  Cascade.Proofs.Tool.Frame — what the formatter does to files. `Succeeds` says what a run may
  leave behind that has not failed: the help, or the canonical text of what the input held
  before, at the one place that the arguments name. It says so of the arguments, the input and
  the files alone, and nothing of how the text is come by.

  1. A session that fails has done nothing. One that does not fail leaves what `Succeeds` says,
     and no file differs on the way but the one that is written (`careful`).
  2. A run leaves what a session on the same bytes leaves, however these are cut (`files_unharmed`).

  So the output may be the input itself: it is emptied only when all of it has been read.
-/

import Cascade.Proofs.Tool.Again
import Cascade.Proofs.Tool.Arguments
import Cascade.Proofs.Tool.Session

namespace Cascade

open Grammar Sheet

/-! ## The text of a run -/

/-- The bytes are the text of a sheet, and the other is its canonical text. -/
def Canonical (indent : String) (bytes : List UInt8) (text : String) : Prop :=
  ∃ rs, SheetText bytes rs ∧ text = textOf indent rs

theorem Source.format_eq_ok_iff {indent text : String} {source : List Reply} :
    Source.format indent source = .ok text ↔
      Source.halt? source = none ∧ Canonical indent (Source.served source) text := by
  constructor
  · intro h
    cases hread : (Sheet.read NameTable.host {} {} source).result with
    | error e => simp [Source.format, hread, Except.map] at h
    | ok s =>
      obtain ⟨hhalt, rs, hsheet, -⟩ := (read_eq_ok_iff NameTable.host).mp hread
      rw [format_eq hsheet hhalt] at h
      exact ⟨hhalt, rs, hsheet, (Except.ok.inj h).symm⟩
  · rintro ⟨hhalt, rs, hsheet, rfl⟩
    exact format_eq hsheet hhalt

/-- The input of a job holds these bytes. -/
inductive Job.Holds (job : Job) (stdin : List Reply) (w : Workspace) : List UInt8 → Prop
  | standardInput : job.input = Job.standardInput → Source.halt? stdin = none → Holds job stdin w (Source.served stdin)
  | file {p bytes} : job.input ≠ Job.standardInput → w.locate job.input = .ok p → w.item? p = some (.file bytes) →
      Holds job stdin w bytes

namespace World

variable {world : World} {job : Job} {text : String} {bytes : List UInt8}

theorem dueReading_read (world : World) (job : Job) (source : List Reply) :
    world.dueReading job (Sheet.read NameTable.host {} {} source) =
      match Source.format job.indent source with
      | .ok text => world.dueCreating job text
      | .error e => world.ending (some (.parsing job.input e)) := by
  have hformat : Source.format job.indent source =
      (Sheet.read NameTable.host {} {} source).result.map fun sheet =>
        sheet.toText job.indent (Sheet.read NameTable.host {} {} source).memory.rendering := rfl
  rw [hformat]
  unfold dueReading
  cases (Sheet.read NameTable.host {} {} source).result <;> rfl

/-- The input of a job holds what is read once it is open. -/
theorem holds_iff : job.Holds world.input world.files bytes ↔
    ∃ handle, world.openInput job = .ok handle ∧ Source.halt? (world.unread handle) = none ∧
      Source.served (world.unread handle) = bytes := by
  constructor
  · intro h
    cases h with
    | standardInput hin hhalt => exact ⟨.standardInput, if_pos hin, hhalt, rfl⟩
    | @file p bytes hin hlocate hitem =>
      obtain ⟨hserved, hhalt⟩ := Workspace.served_readings hitem
      exact ⟨.item p 0, by simp [openInput, hin, hlocate], hhalt, hserved⟩
  · rintro ⟨handle, hopen, hhalt, rfl⟩
    by_cases hin : job.input = Job.standardInput
    · cases (if_pos hin).symm.trans hopen
      exact .standardInput hin hhalt
    · cases hlocate : world.files.locate job.input with
      | error fault => simp [openInput, hin, hlocate] at hopen
      | ok p =>
        obtain rfl : Handle.item p 0 = handle := by simpa [openInput, hin, hlocate] using hopen
        match hitem : world.files.item? p with
        | none => exact absurd hitem (Workspace.locate_ok hlocate)
        | some .directory => simp [unread, Workspace.readings, hitem, Source.halt?] at hhalt
        | some (.file bytes) =>
          have hserved : Source.served (world.unread (.item p 0)) = bytes := (Workspace.served_readings hitem).1
          rw [hserved]
          exact .file hin hlocate hitem

theorem dueOpening_eq (hbytes : job.Holds world.input world.files bytes) (htext : Canonical job.indent bytes text) :
    world.dueOpening job = world.dueCreating job text := by
  obtain ⟨handle, hopen, hhalt, rfl⟩ := holds_iff.mp hbytes
  unfold dueOpening
  rw [hopen]
  show world.dueReading job _ = _
  rw [dueReading_read, Source.format_eq_ok_iff.mpr ⟨hhalt, htext⟩]

theorem holds_of_dueOpening (h : (world.dueOpening job).failure? = none) :
    ∃ bytes text, job.Holds world.input world.files bytes ∧ Canonical job.indent bytes text := by
  unfold dueOpening at h
  cases hopen : world.openInput job with
  | error f => simp [hopen, ending] at h
  | ok handle =>
    simp only [hopen, dueReading_read] at h
    cases htext : Source.format job.indent (world.unread handle) with
    | error e => simp [htext, ending] at h
    | ok text =>
      obtain ⟨hhalt, hcanonical⟩ := Source.format_eq_ok_iff.mp htext
      exact ⟨_, text, holds_iff.mpr ⟨handle, hopen, hhalt, rfl⟩, hcanonical⟩

/-- What is due when the text is at hand. -/
theorem dueCreating_standardOutput (h : job.output = none) :
    world.dueCreating job text = ⟨none, world.output ++ Utf8.bytes text, world.files⟩ := by
  unfold dueCreating
  rw [h]
  exact dueWriting_standardOutput world _

theorem dueCreating_file {path : String} (h : job.output = some path) :
    world.dueCreating job text =
      match world.files.write path (Utf8.bytes text) with
      | .ok files => ⟨none, world.output, files⟩
      | .error fault => ⟨some (.creating path fault), world.output, world.files⟩ := by
  unfold dueCreating
  rw [h, Workspace.write_eq]
  cases hmade : world.files.create path with
  | error fault => simp [hmade, Except.map, ending]
  | ok made =>
    obtain ⟨p, files⟩ := made
    obtain ⟨-, -, rfl⟩ := Workspace.create_ok hmade
    simp [hmade, Except.map, dueWriting_made, Workspace.extend_set]

end World

/-! ## Runs that succeed -/

/-- What a run that succeeds may have written to the standard output, and the files after it. -/
inductive Succeeds (args : List String) (stdin : List Reply) (w : Workspace) : List UInt8 → Workspace → Prop
  | help : Command.Asks args (.ok .help) → Succeeds args stdin w (Utf8.bytes Command.helpText) w
  | shown {job bytes text} : Command.Asks args (.ok (.format job)) → job.output = none → job.Holds stdin w bytes →
      Canonical job.indent bytes text → Succeeds args stdin w (Utf8.bytes text) w
  | written {job path bytes text w'} : Command.Asks args (.ok (.format job)) → job.output = some path →
      job.Holds stdin w bytes → Canonical job.indent bytes text → w.OnlyWrote path (Utf8.bytes text) w' →
      Succeeds args stdin w [] w'

namespace Session

variable {args : List String} {stdin : List Reply} {w w' : Workspace} {output : List UInt8} {s : Session}

theorem due_start_help (h : Command.Asks args (.ok .help)) :
    (start args stdin w).due = ⟨none, Utf8.bytes Command.helpText, w⟩ := by
  show World.dueStarting _ _ = _
  unfold World.dueStarting
  rw [Command.parse_iff.mpr h]
  exact World.dueWriting_standardOutput _ _

theorem due_start_format {job : Job} (h : Command.Asks args (.ok (.format job))) :
    (start args stdin w).due = World.dueOpening { input := stdin, files := w } job := by
  show World.dueStarting _ _ = _
  unfold World.dueStarting
  rw [Command.parse_iff.mpr h]

theorem succeeds_of_due (h : (start args stdin w).due.failure? = none) :
    Succeeds args stdin w (start args stdin w).due.output (start args stdin w).due.files := by
  match hparse : Command.parse args with
  | .error e =>
    have hdue : (start args stdin w).due = ⟨some (.usage e), [], w⟩ := by
      show World.dueStarting _ _ = _
      unfold World.dueStarting
      rw [hparse]
      rfl
    rw [hdue] at h
    cases h
  | .ok .help =>
    have hasks := Command.parse_iff.mp hparse
    rw [due_start_help hasks]
    exact .help hasks
  | .ok (.format job) =>
    have hasks := Command.parse_iff.mp hparse
    rw [due_start_format hasks] at h ⊢
    obtain ⟨bytes, text, hbytes, htext⟩ := World.holds_of_dueOpening h
    rw [World.dueOpening_eq hbytes htext] at h ⊢
    cases hout : job.output with
    | none =>
      rw [World.dueCreating_standardOutput hout]
      exact .shown hasks hout hbytes htext
    | some path =>
      rw [World.dueCreating_file hout] at h ⊢
      cases hwrite : Workspace.write w path (Utf8.bytes text) with
      | error fault => simp [hwrite] at h
      | ok files =>
        exact .written hasks hout hbytes htext (Workspace.onlyWrote_of_write hwrite)

theorem due_of_succeeds (h : Succeeds args stdin w output w') : (start args stdin w).due.failure? = none := by
  cases h with
  | help hasks => rw [due_start_help hasks]
  | shown hasks hout hbytes htext =>
    rw [due_start_format hasks, World.dueOpening_eq hbytes htext, World.dueCreating_standardOutput hout]
  | written hasks hout hbytes htext hwrote =>
    obtain ⟨p, hplace, hfile, -⟩ := hwrote.written
    rw [due_start_format hasks, World.dueOpening_eq hbytes htext, World.dueCreating_file hout,
      Workspace.write_ok_iff.mpr ⟨p, hplace, hfile, rfl⟩]

end Session

/-! ## Runs -/

/-- A run that ends so. -/
inductive Ending.Shows : Ending → Run → Prop
  | failed {f w} : Ending.Shows ⟨some f, [], w⟩ (.failed w f)
  | done {text w} : Ending.Shows ⟨none, Utf8.bytes text, w⟩ ⟨0, text, "", w⟩

namespace Run

variable {args : List String} {stdin : List Reply} {input : List UInt8} {w : Workspace} {job : Job}
  (hserved : Source.served stdin = input) (hhalt : Source.halt? stdin = none)

include hserved hhalt

/-- The source of a run hands over what is left to be read of an open input. -/
theorem openInput_source :
    (∃ f, source job input w = .error f ∧ World.openInput { input := stdin, files := w } job = .error f) ∨
    ∃ replies handle, source job input w = .ok replies ∧
      World.openInput { input := stdin, files := w } job = .ok handle ∧
      Source.served (World.unread { input := stdin, files := w } handle) = Source.served replies ∧
      Source.halt? (World.unread { input := stdin, files := w } handle) = Source.halt? replies := by
  by_cases hin : job.input = Job.standardInput
  · obtain ⟨hserved', hhalt'⟩ := Source.served_replies input
    exact .inr ⟨_, .standardInput, if_pos hin, if_pos hin, hserved.trans hserved'.symm, hhalt.trans hhalt'.symm⟩
  · simp only [source, World.openInput, hin, if_false, Workspace.openFile_eq]
    cases hlocate : w.locate job.input with
    | error fault => exact .inl ⟨_, rfl, rfl⟩
    | ok p =>
      refine .inr ⟨_, .item p 0, rfl, rfl, ?_⟩
      cases hitem : w.item? p with
      | none => simp [World.unread, Workspace.readings, hitem]
      | some item =>
        cases item with
        | directory => simp [World.unread, Workspace.readings, hitem]
        | file bytes =>
          obtain ⟨hserved, hhalt⟩ := Source.served_replies bytes
          obtain ⟨hserved', hhalt'⟩ := Workspace.served_readings hitem
          simp only [hitem]
          exact ⟨hserved'.trans hserved.symm, hhalt'.trans hhalt.symm⟩

theorem shows_opening :
    (World.dueOpening { input := stdin, files := w } job).Shows
      (match perform job input w with
      | .error f => failed w f
      | .ok (text, w) => ⟨0, text, "", w⟩) := by
  unfold World.dueOpening perform
  rcases @openInput_source stdin input w job hserved hhalt with
    ⟨f, hsource, hopen⟩ | ⟨replies, handle, hsource, hopen, hserved', hhalt'⟩
  · simp only [hsource, hopen, bind, Except.bind]
    exact .failed
  · have hread : Sheet.read NameTable.host {} {} (World.unread { input := stdin, files := w } handle) =
        Sheet.read NameTable.host {} {} replies := World.readFrom_congr hserved' hhalt'
    simp only [hsource, hopen, hread, World.dueReading_read, bind, Except.bind, formatted]
    cases htext : Source.format job.indent replies with
    | error e =>
      simp only [Except.mapError]
      exact .failed
    | ok text =>
      simp only [Except.mapError]
      cases hout : job.output with
      | none =>
        rw [World.dueCreating_standardOutput hout]
        exact .done
      | some path =>
        rw [World.dueCreating_file hout]
        cases hwrite : Workspace.write w path (Utf8.bytes text) with
        | error fault =>
          simp only [hwrite]
          exact .failed
        | ok files =>
          simp only [hwrite]
          exact @Ending.Shows.done "" files

/-- A session on the same standard input ends as the run does. -/
theorem shows_start : (Session.start args stdin w).due.Shows (of args input w) := by
  show (World.dueStarting _ _).Shows _
  unfold World.dueStarting of
  rcases Command.parse args with e | (_ | job)
  · exact .failed
  · simp only [World.dueWriting_standardOutput]
    exact .done
  · exact shows_opening hserved hhalt

end Run

/-! ## The files -/

/-- A session takes care of the files at each moment. -/
structure Careful (args : List String) (stdin : List Reply) (w : Workspace) : Prop where
  /-- Before the first write nothing differs, and if it fails, it does so before the first write. -/
  quiet : ∀ s, Session.Comes (.start args stdin w) s → s.stage.quiet = true → s.world.output = [] ∧ s.world.files = w
  /-- No file but the one asked for ever differs. -/
  files : ∀ s, Session.Comes (.start args stdin w) s → s.world.files = w ∨
    s.world.output = [] ∧ ∃ job path p, Command.Asks args (.ok (.format job)) ∧ job.output = some path ∧
      w.place path = .ok p ∧ w.SameBut p s.world.files
  /-- Nothing is opened or read for the sake of help. -/
  help : Command.Asks args (.ok .help) → ∀ s, Session.Comes (.start args stdin w) s →
    s.world.input = stdin ∧ s.world.files = w ∧
      (s.stage = .starting args ∨ (∃ left, s.stage = .writing none left) ∨ s.stage = .ended none)
  ends : ∃ s failure?, Session.Comes (.start args stdin w) s ∧ s.stage = .ended failure?
  failed : ∀ s f, Session.Comes (.start args stdin w) s → s.stage = .ended (some f) →
    s.world.output = [] ∧ s.world.files = w ∧ ∀ output w', ¬ Succeeds args stdin w output w'
  done : ∀ s, Session.Comes (.start args stdin w) s → s.stage = .ended none →
    Succeeds args stdin w s.world.output s.world.files

theorem careful (args : List String) (stdin : List Reply) (w : Workspace) : Careful args stdin w where
  quiet s h hquiet := Session.untouched_of_quiet (Session.kept_comes h) hquiet
  files s h := by
    refine (Session.kept_files (Session.kept_comes h)).imp_right ?_
    rintro ⟨houtput, p, sent, ⟨job, path, hparse, hout, hplace⟩, hfiles⟩
    have hsame := Workspace.sameBut_set (Workspace.inside_of_place hplace) (.file sent)
    exact ⟨houtput, job, path, p, Command.parse_iff.mp hparse, hout, hplace, hfiles ▸ hsame⟩
  help hasks s h := Session.comes_help (Command.parse_iff.mpr hasks) h
  ends := Session.comes_end _
  failed s f h hended := by
    obtain ⟨houtput, hfiles⟩ := Session.untouched_of_quiet (Session.kept_comes h) (by rw [hended]; rfl)
    refine ⟨houtput, hfiles, fun output w' hsucceeds => ?_⟩
    have hdue := Session.due_of_succeeds hsucceeds
    rw [← Session.due_comes h, Session.due_of_ended hended] at hdue
    cases hdue
  done s h hended := by
    have hdue := (Session.due_comes h).symm.trans (Session.due_of_ended hended)
    have hsucceeds := Session.succeeds_of_due (congrArg Ending.failure? hdue)
    rw [hdue] at hsucceeds
    exact hsucceeds

/-- A run that fails shows nothing and leaves all files as they were, and nothing could have succeeded in its place. A
    run that succeeds has helped, or it has put the canonical text of what its input held before the run where the
    arguments ask for it, and nowhere else. A session comes to the same end, and takes care of the files on the way. -/
theorem files_unharmed (args : List String) (input : List UInt8) (w : Workspace) :
    ((Run.of args input w).code = 0 →
      Succeeds args (Source.replies input) w (Utf8.bytes (Run.of args input w).output)
        (Run.of args input w).workspace) ∧
    ((Run.of args input w).code ≠ 0 → (Run.of args input w).output = "" ∧ (Run.of args input w).workspace = w ∧
      ∀ output w', ¬ Succeeds args (Source.replies input) w output w') ∧
    ∀ stdin, Careful args stdin w ∧
      (Source.served stdin = input → Source.halt? stdin = none →
        ∀ s failure?, Session.Comes (.start args stdin w) s → s.stage = .ended failure? →
          Ending.Shows ⟨failure?, s.world.output, s.world.files⟩ (Run.of args input w)) := by
  have hagrees : ∀ stdin, Source.served stdin = input → Source.halt? stdin = none →
      ∀ s failure?, Session.Comes (.start args stdin w) s → s.stage = .ended failure? →
        Ending.Shows ⟨failure?, s.world.output, s.world.files⟩ (Run.of args input w) := by
    intro stdin hserved hhalt s failure? hcomes hended
    rw [← Session.due_of_ended hended, Session.due_comes hcomes]
    exact Run.shows_start hserved hhalt
  have hcareful := careful args (Source.replies input) w
  obtain ⟨hserved, hhalt⟩ := Source.served_replies input
  obtain ⟨s, failure?, hcomes, hended⟩ := hcareful.ends
  have hshows := hagrees _ hserved hhalt s failure? hcomes hended
  rw [← and_assoc]
  refine ⟨?_, fun stdin => ⟨careful args stdin w, hagrees stdin⟩⟩
  cases failure? with
  | none =>
    have hsucceeds := hcareful.done s hcomes hended
    generalize s.world.output = output, s.world.files = files at hshows hsucceeds
    generalize Run.of args input w = run at hshows ⊢
    cases hshows with
    | done => exact ⟨fun _ => hsucceeds, fun hcode => absurd rfl hcode⟩
  | some f =>
    obtain ⟨-, hfiles, hnone⟩ := hcareful.failed s f hcomes hended
    generalize s.world.output = output, s.world.files = files at hshows hfiles
    generalize Run.of args input w = run at hshows ⊢
    cases hshows with
    | failed =>
      have hcode : (1 : UInt32) ≠ 0 := by decide
      exact ⟨fun h => absurd h hcode, fun _ => ⟨rfl, hfiles, hnone⟩⟩

end Cascade
