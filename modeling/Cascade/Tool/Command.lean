/-
  Cascade.Tool.Command — what the arguments of the formatter ask for. Arguments are
  taken from left to right; an option takes the next argument whatever it is, and of
  several the last counts. Asking for help ends it, and hides every mistake further
  right.
-/

namespace Cascade

/-- What is wrong with the arguments. -/
inductive UsageError where
  | noFileName
  | noIndent
  | unexpected (argument : String)
  | noInput
  deriving DecidableEq, Repr

def UsageError.message : UsageError → String
  | .noFileName => "missing file name after -o"
  | .noIndent => "missing prefix after --indent"
  | .unexpected argument => "unexpected argument: " ++ argument
  | .noInput => "no input file given"

/-- One sheet to format: where it is, where its text goes, and the indent. -/
structure Job where
  input : String
  /-- The standard output if none. -/
  output : Option String := none
  indent : String := ""
  deriving DecidableEq, Repr

/-- The input that stands for the standard input. -/
def Job.standardInput : String := "-"

inductive Command where
  | help
  | format (job : Job)
  deriving DecidableEq, Repr

namespace Command

/-- The rest of the arguments, after those that gave these. -/
def parseFrom (input output : Option String) (indent : String) : List String → Except UsageError Command
  | [] =>
    match input with
    | some input => .ok (.format ⟨input, output, indent⟩)
    | none => .error .noInput
  | arg :: rest =>
    if arg = "-h" ∨ arg = "--help" then .ok .help
    else if arg = "-o" ∨ arg = "--out-file" then
      match rest with
      | path :: rest => parseFrom input (some path) indent rest
      | [] => .error .noFileName
    else if arg = "--indent" then
      match rest with
      | text :: rest => parseFrom input output text rest
      | [] => .error .noIndent
    else
      match input with
      | none => parseFrom (some arg) output indent rest
      | some _ => .error (.unexpected arg)

def parse (args : List String) : Except UsageError Command := parseFrom none none "" args

def helpText : String :=
  "Parses a CSS file and writes it back in canonical form.\n" ++
  "Usage: cssom-fmt [-o <out.css>] [--indent <prefix>] <in.css | ->\n"

end Command

end Cascade
