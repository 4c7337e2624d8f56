/-
  Cascade.Main — the formatter as a program. It opens, reads and writes files; what it
  makes of the arguments and of the bytes is `Command.parse` and `Run.formatted`.
-/

import Cascade.Tool.Run

namespace Cascade.Main

def fault : IO.Error → IoFault
  | .noFileOrDirectory _ _ _ => .notFound
  | .inappropriateType _ 20 _ => .notADirectory
  | .inappropriateType _ 21 _ => .isADirectory
  | other => .other (toString other)

partial def readAll (stream : IO.FS.Stream) (bytes : ByteArray) : IO ByteArray := do
  let more ← stream.read (USize.ofNat Source.readSize)
  if more.isEmpty then return bytes else readAll stream (bytes ++ more)

/-- The replies of a stream that is open. -/
def replies (stream : IO.FS.Stream) : IO (List Reply) := do
  try
    let bytes ← readAll stream .empty
    return Source.replies bytes.data.toList
  catch e => return [.failed (fault e)]

def source (job : Job) : IO (Except Failure (List Reply)) := do
  if job.input = Job.standardInput then
    return .ok (← replies (← IO.getStdin))
  try
    let handle ← IO.FS.Handle.mk job.input .read
    return .ok (← replies (.ofHandle handle))
  catch e => return .error (.opening job.input (fault e))

/-- Write the text to an open stream. -/
def put (stream : IO.FS.Stream) (text : String) : IO (Except Failure Unit) := do
  try
    stream.putStr text
    stream.flush
    return .ok ()
  catch e => return .error (.writing (fault e))

def deliver (job : Job) (text : String) : IO (Except Failure Unit) := do
  match job.output with
  | none => put (← IO.getStdout) text
  | some path =>
    try
      let handle ← IO.FS.Handle.mk path .write
      put (.ofHandle handle) text
    catch e => return .error (.creating path (fault e))

def perform (job : Job) : IO (Except Failure Unit) := do
  match (← source job).bind (Run.formatted job) with
  | .ok text => deliver job text
  | .error f => return .error f

def exit (result : Except Failure Unit) : IO UInt32 := do
  match result with
  | .ok () => return 0
  | .error f =>
    (← IO.getStderr).putStr f.report
    return 1

end Cascade.Main

def main (args : List String) : IO UInt32 := do
  match Cascade.Command.parse args with
  | .error e => Cascade.Main.exit (.error (.usage e))
  | .ok .help => Cascade.Main.exit (← Cascade.Main.put (← IO.getStdout) Cascade.Command.helpText)
  | .ok (.format job) => Cascade.Main.exit (← Cascade.Main.perform job)
