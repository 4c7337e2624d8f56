/-
  Cascade.Tool.Run — the formatter: one sheet is read to its end, then written in its
  canonical text. The output is made only when the input has been read without a fault,
  so a run that fails changes no file, and the input may be the output too.

  A failure says what was being done and, below that, why it failed, down to the first
  cause. That report is all that is kept of the standard error: the line that is logged
  there when a sheet has been read is left out.
-/

import Cascade.NameTable
import Cascade.Sheet.Read
import Cascade.Tool.Command
import Cascade.Tool.Workspace

namespace Cascade

/-- What was being done when a run failed, and why it failed. -/
inductive Failure where
  | usage (e : UsageError)
  | opening (path : String) (fault : IoFault)
  | parsing (path : String) (e : Error)
  | creating (path : String) (fault : IoFault)
  | writing (fault : IoFault)
  deriving DecidableEq, Repr

namespace Failure

def context : Failure → String
  | .usage e => e.message
  | .opening path _ => "opening " ++ path
  | .parsing path _ => "parsing " ++ path
  | .creating path _ => "creating " ++ path
  | .writing fault => (Error.io fault).message

/-- The causes, from the nearest to the first. -/
def causes : Failure → List String
  | .usage _ => []
  | .opening _ fault => [fault.message]
  | .parsing _ (.io fault) => [(Error.io fault).message, fault.message]
  | .parsing _ e => [e.message]
  | .creating _ fault => [fault.message]
  | .writing fault => [fault.message]

def causeLine (cause : String) : String := "    " ++ cause ++ "\n"

def numberedLine (cause : String × Nat) : String := "    " ++ toString cause.2 ++ ": " ++ cause.1 ++ "\n"

/-- The causes are numbered if there are several. -/
def report (f : Failure) : String :=
  "Error: " ++ f.context ++ "\n" ++
    match f.causes with
    | [] => ""
    | [cause] => "\nCaused by:\n" ++ causeLine cause
    | causes => "\nCaused by:\n" ++ String.join (causes.zipIdx.map numberedLine)

end Failure

/-- The canonical text of the sheet that a source holds; all names are known. -/
def Source.format (indent : String) (source : List Reply) : Except Error String :=
  let reading := Sheet.read NameTable.host {} {} source
  reading.result.map fun sheet => sheet.toText indent reading.memory.rendering

/-- What a run shows, and the files after it. -/
structure Run where
  code : UInt32
  output : String
  /-- The report of a failure, without what is logged. -/
  errors : String
  workspace : Workspace

namespace Run

/-- Where the sheet comes from. -/
def source (job : Job) (input : List UInt8) (w : Workspace) : Except Failure (List Reply) :=
  if job.input = Job.standardInput then .ok (Source.replies input)
  else (w.openFile job.input).mapError (.opening job.input)

def formatted (job : Job) (source : List Reply) : Except Failure String :=
  (Source.format job.indent source).mapError (.parsing job.input)

/-- The text for the standard output, and the files. -/
def perform (job : Job) (input : List UInt8) (w : Workspace) : Except Failure (String × Workspace) := do
  let text ← formatted job (← source job input w)
  match job.output with
  | none => .ok (text, w)
  | some path =>
    let w ← (w.write path (Utf8.bytes text)).mapError (.creating path)
    .ok ("", w)

def failed (w : Workspace) (f : Failure) : Run := ⟨1, "", f.report, w⟩

/-- A run with these arguments, standard input and files. The line that is logged to the standard error is left out,
    and the files are those of a `Workspace`, without links, devices and permissions; so once a file has been made, no
    write to it fails. -/
def of (args : List String) (input : List UInt8) (w : Workspace) : Run :=
  match Command.parse args with
  | .error e => failed w (.usage e)
  | .ok .help => ⟨0, Command.helpText, "", w⟩
  | .ok (.format job) =>
    match perform job input w with
    | .error f => failed w f
    | .ok (text, w) => ⟨0, text, "", w⟩

end Run

end Cascade
