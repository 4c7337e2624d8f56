/-
  Cascade.Tool.Session — the formatter at work, one call on the files and streams after
  another. A call moves some of the bytes, as many as it likes. A file that is open is not
  held: what is read of it is what is there at that moment, so a file that is emptied while
  it is read ends there.

  1. The arguments come first. Help is written out, and nothing is opened for it.
  2. What is read goes to the build at once. A fault ends the session; nothing more is read then.
  3. The output is made when the text is at hand, and takes the place of what was there. It
     is empty at first and grows with each write.

  No write fails here, and the line that is logged to the standard error is left out. The
  files are those of a `Workspace`, without links, devices and permissions.
-/

import Cascade.Sheet.Bench
import Cascade.Tool.Run

namespace Cascade

namespace Workspace

/-- Where a path leads, if something is there. -/
def locate (w : Workspace) (path : String) : Except IoFault Path := do
  let all ← names path
  let p ← w.follow (w.start all) all
  match w.item? p with
  | none => .error .notFound
  | some _ => .ok p

/-- Make an empty file at a path, and say where it is. -/
def create (w : Workspace) (path : String) : Except IoFault (Path × Workspace) := do
  let p ← w.place path
  let w ← w.write path []
  .ok (p, w)

/-- Write at the end of a file. -/
def extend (w : Workspace) (p : Path) (bytes : List UInt8) : Workspace :=
  match w.item? p with
  | some (.file before) => w.set p (.file (before ++ bytes))
  | _ => w

end Workspace

/-- The standard streams and the files. -/
structure World where
  /-- What the standard input has left to reply. -/
  input : List Reply
  /-- What the standard output has got. -/
  output : List UInt8 := []
  files : Workspace

/-- Something open to be read. -/
inductive Handle where
  | standardInput
  /-- What is at a place, from an offset on. -/
  | item (p : Path) (offset : Nat)
  deriving DecidableEq, Repr

namespace World

/-- Open the input of a job. -/
def openInput (world : World) (job : Job) : Except Failure Handle :=
  if job.input = Job.standardInput then .ok .standardInput
  else
    match world.files.locate job.input with
    | .ok p => .ok (.item p 0)
    | .error fault => .error (.opening job.input fault)

/-- One read of no more than so many bytes of a file, or the next reply of the standard input. -/
def read (world : World) (most : Nat) : Handle → Reply × Handle × World
  | .standardInput =>
    match world.input with
    | [] => (.bytes [], .standardInput, world)
    | reply :: rest => (reply, .standardInput, { world with input := rest })
  | .item p offset =>
    match world.files.item? p with
    | some (.file bytes) =>
      let bs := (bytes.drop offset).take most
      (.bytes bs, .item p (offset + bs.length), world)
    | some .directory => (.failed .isADirectory, .item p offset, world)
    | none => (.bytes [], .item p offset, world)

/-- Write to the file at a place, or to the standard output. -/
def put (world : World) (place? : Option Path) (bytes : List UInt8) : World :=
  match place? with
  | some p => { world with files := world.files.extend p bytes }
  | none => { world with output := world.output ++ bytes }

end World

/-- What a session does next. -/
inductive Stage where
  | starting (args : List String)
  | opening (job : Job)
  | reading (job : Job) (handle : Handle) (build : Build NameTable String) (supply : Supply)
  | creating (job : Job) (text : String)
  /-- What is left to be written to a file, or to the standard output. -/
  | writing (place? : Option Path) (left : List UInt8)
  | ended (failure? : Option Failure)

namespace Stage

def begin (args : List String) : Stage :=
  match Command.parse args with
  | .error e => .ended (some (.usage e))
  | .ok .help => .writing none (Utf8.bytes Command.helpText)
  | .ok (.format job) => .opening job

/-- What comes of a reply to a read. -/
def hear (job : Job) (handle : Handle) (build : Build NameTable String) (supply : Supply) : Reply → Stage
  | .interrupted => .reading job handle build supply
  | .failed fault => .ended (some (.parsing job.input (.io fault)))
  | .bytes [] =>
    match build.reader.endError? with
    | some e => .ended (some (.parsing job.input (.syntactic e)))
    | none => .creating job (build.sheet.toText job.indent build.builder.memory.rendering)
  | .bytes (b :: bs) =>
    match (build.reader.run (b :: bs)).error? with
    | some e => .ended (some (.parsing job.input (.syntactic e)))
    | none =>
      let (build, supply) := build.feed NameTable.host supply (b :: bs)
      .reading job handle build supply

end Stage

structure Session where
  stage : Stage
  world : World

namespace Session

def start (args : List String) (input : List Reply) (files : Workspace) : Session := ⟨.starting args, { input, files }⟩

/-- The next call, which moves up to so many bytes beside the first. -/
def step (more : Nat) : Session → Option Session
  | ⟨.starting args, world⟩ => some ⟨.begin args, world⟩
  | ⟨.opening job, world⟩ =>
    match world.openInput job with
    | .ok handle => some ⟨.reading job handle (.new {}) {}, world⟩
    | .error f => some ⟨.ended (some f), world⟩
  | ⟨.reading job handle build supply, world⟩ =>
    let (reply, handle, world) := world.read (more + 1) handle
    some ⟨.hear job handle build supply reply, world⟩
  | ⟨.creating job text, world⟩ =>
    match job.output with
    | none => some ⟨.writing none (Utf8.bytes text), world⟩
    | some path =>
      match world.files.create path with
      | .ok (p, files) => some ⟨.writing (some p) (Utf8.bytes text), { world with files }⟩
      | .error fault => some ⟨.ended (some (.creating path fault)), world⟩
  | ⟨.writing _ [], world⟩ => some ⟨.ended none, world⟩
  | ⟨.writing place? (b :: bs), world⟩ =>
    some ⟨.writing place? (bs.drop more), world.put place? (b :: bs.take more)⟩
  | ⟨.ended _, _⟩ => none

/-- Call after call. -/
inductive Comes : Session → Session → Prop
  | here (s : Session) : Comes s s
  | next {s s' s'' : Session} {more : Nat} : Comes s s' → s'.step more = some s'' → Comes s s''

end Session

end Cascade
