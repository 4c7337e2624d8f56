/-
  Cascade.Proofs.Tool.Arguments — what a list of arguments asks for, said without the order
  in which it is found out. A list starts with settings: an option with the argument after
  it, whatever that is, or an input. `Ends` is what comes after them, where there is help or
  a mistake, or the end of the list. The last of several outputs counts, and of several
  indents. What stands right of help, or of a mistake, plays no part (`parse_iff`).
-/

import Cascade.Tool.Command

namespace Cascade

/-- One thing that arguments set. -/
inductive Setting where
  | output (path : String)
  | indent (text : String)
  | input (path : String)
  deriving DecidableEq, Repr

namespace Setting

def output? : Setting → Option String
  | .output path => some path
  | _ => none

def indent? : Setting → Option String
  | .indent text => some text
  | _ => none

def input? : Setting → Option String
  | .input path => some path
  | _ => none

def inputs (ss : List Setting) : List String := ss.filterMap input?

def lastOutput? (ss : List Setting) : Option String := (ss.filterMap output?).getLast?

def lastIndent (ss : List Setting) : String := (ss.filterMap indent?).getLast?.getD ""

theorem inputs_append (ss ss' : List Setting) : inputs (ss ++ ss') = inputs ss ++ inputs ss' := List.filterMap_append

end Setting

namespace Command

def AsksHelp (arg : String) : Prop := arg = "-h" ∨ arg = "--help"
def AsksOutput (arg : String) : Prop := arg = "-o" ∨ arg = "--out-file"
def AsksIndent (arg : String) : Prop := arg = "--indent"

/-- An argument that is no option. -/
def Plain (arg : String) : Prop := ¬ AsksHelp arg ∧ ¬ AsksOutput arg ∧ ¬ AsksIndent arg

/-- Arguments and what they set. -/
inductive Sets : List String → List Setting → Prop
  | nil : Sets [] []
  | output {arg path args ss} : AsksOutput arg → Sets args ss → Sets (arg :: path :: args) (.output path :: ss)
  | indent {arg text args ss} : AsksIndent arg → Sets args ss → Sets (arg :: text :: args) (.indent text :: ss)
  | input {path args ss} : Plain path → Sets args ss → Sets (path :: args) (.input path :: ss)

/-- What comes after settings, and what is made of it all. -/
inductive Ends (ss : List Setting) : List String → Except UsageError Command → Prop
  | format {path} : Setting.inputs ss = [path] →
      Ends ss [] (.ok (.format ⟨path, Setting.lastOutput? ss, Setting.lastIndent ss⟩))
  | noInput : Setting.inputs ss = [] → Ends ss [] (.error .noInput)
  | help {arg args} : AsksHelp arg → Ends ss (arg :: args) (.ok .help)
  | noFileName {arg} : AsksOutput arg → Ends ss [arg] (.error .noFileName)
  | noIndent {arg} : AsksIndent arg → Ends ss [arg] (.error .noIndent)
  | unexpected {arg args} : Plain arg → Setting.inputs ss ≠ [] → Ends ss (arg :: args) (.error (.unexpected arg))

/-- What the arguments come to: settings, with no more than one input, and what is after them. -/
def Asks (args : List String) (r : Except UsageError Command) : Prop :=
  ∃ before rest ss, args = before ++ rest ∧ Sets before ss ∧ (Setting.inputs ss).length ≤ 1 ∧ Ends ss rest r

/-- The rest of the arguments, after those that gave these settings. -/
def parseAfter (ss : List Setting) (args : List String) : Except UsageError Command :=
  parseFrom (Setting.inputs ss).head? (Setting.lastOutput? ss) (Setting.lastIndent ss) args

variable {ss ss' : List Setting} {args : List String} {arg : String} {input output : Option String} {indent : String}

/-! ## One argument -/

theorem parseFrom_help (h : AsksHelp arg) : parseFrom input output indent (arg :: args) = .ok .help := by
  rw [parseFrom.eq_def]
  exact if_pos h

theorem parseFrom_plain (h : Plain arg) :
    parseFrom input output indent (arg :: args) =
      match input with
      | none => parseFrom (some arg) output indent args
      | some _ => .error (.unexpected arg) := by
  rw [parseFrom.eq_def]
  exact (if_neg h.1).trans ((if_neg h.2.1).trans (if_neg h.2.2))

theorem parseAfter_output (h : AsksOutput arg) (path : String) :
    parseAfter ss (arg :: path :: args) = parseAfter (ss ++ [.output path]) args := by
  rcases h with rfl | rfl <;>
    simp [parseAfter, parseFrom, Setting.inputs, Setting.lastOutput?, Setting.lastIndent, Setting.output?,
      Setting.input?, Setting.indent?]

theorem parseAfter_indent (h : AsksIndent arg) (text : String) :
    parseAfter ss (arg :: text :: args) = parseAfter (ss ++ [.indent text]) args := by
  cases h
  simp [parseAfter, parseFrom, Setting.inputs, Setting.lastOutput?, Setting.lastIndent, Setting.output?,
    Setting.input?, Setting.indent?]

theorem parseAfter_input {path : String} (h : Plain path) (hnone : Setting.inputs ss = []) :
    parseAfter ss (path :: args) = parseAfter (ss ++ [.input path]) args := by
  unfold parseAfter
  rw [parseFrom_plain h, Setting.inputs_append, hnone]
  simp [Setting.inputs, Setting.lastOutput?, Setting.lastIndent, Setting.output?, Setting.input?, Setting.indent?]

/-! ## All settings -/

theorem parseAfter_append {before : List String} (h : Sets before ss')
    (hone : (Setting.inputs (ss ++ ss')).length ≤ 1) (rest : List String) :
    parseAfter ss (before ++ rest) = parseAfter (ss ++ ss') rest := by
  induction h generalizing ss with
  | nil => rw [List.append_nil]; rfl
  | output hopt _ ih =>
    rw [List.append_cons] at hone ⊢
    exact (parseAfter_output hopt _).trans (ih hone)
  | indent hopt _ ih =>
    rw [List.append_cons] at hone ⊢
    exact (parseAfter_indent hopt _).trans (ih hone)
  | @input path args ss' hplain _ ih =>
    have hnone : Setting.inputs ss = [] := by
      have hlength : (Setting.inputs ss).length + ((Setting.inputs ss').length + 1) ≤ 1 := by
        simpa [Setting.inputs, Setting.input?] using hone
      exact List.length_eq_zero_iff.mp (by omega)
    rw [List.append_cons] at hone ⊢
    exact (parseAfter_input hplain hnone).trans (ih hone)

theorem parseAfter_ends {r : Except UsageError Command} (h : Ends ss args r) : parseAfter ss args = r := by
  cases h with
  | format hinputs => simp [parseAfter, parseFrom, hinputs]
  | noInput hinputs => simp [parseAfter, parseFrom, hinputs]
  | help hopt => exact parseFrom_help hopt
  | noFileName hopt => rcases hopt with rfl | rfl <;> simp [parseAfter, parseFrom]
  | noIndent hopt =>
    cases hopt
    simp [parseAfter, parseFrom]
  | unexpected hplain hinputs =>
    obtain ⟨path, paths, hpath⟩ := List.exists_cons_of_ne_nil hinputs
    unfold parseAfter
    rw [parseFrom_plain hplain, hpath]
    rfl

/-- Each list of arguments is settings, and then an end. -/
theorem exists_ends (ss : List Setting) (args : List String) (hone : (Setting.inputs ss).length ≤ 1) :
    ∃ before rest ss' r, args = before ++ rest ∧ Sets before ss' ∧ (Setting.inputs (ss ++ ss')).length ≤ 1 ∧
      Ends (ss ++ ss') rest r := by
  have hend {r : Except UsageError Command} (h : Ends ss args r) :
      ∃ before rest ss' r, args = before ++ rest ∧ Sets before ss' ∧ (Setting.inputs (ss ++ ss')).length ≤ 1 ∧
        Ends (ss ++ ss') rest r :=
    ⟨[], args, [], r, rfl, .nil, by simpa using hone, by simpa using h⟩
  have hgo (words : List String) {args' : List String} {x : Setting} (hargs : args = words ++ args')
      (hx : ∀ {before ss'}, Sets before ss' → Sets (words ++ before) (x :: ss'))
      (ih : ∃ before rest ss' r, args' = before ++ rest ∧ Sets before ss' ∧
        (Setting.inputs (ss ++ [x] ++ ss')).length ≤ 1 ∧ Ends (ss ++ [x] ++ ss') rest r) :
      ∃ before rest ss' r, args = before ++ rest ∧ Sets before ss' ∧ (Setting.inputs (ss ++ ss')).length ≤ 1 ∧
        Ends (ss ++ ss') rest r := by
    obtain ⟨before, rest, ss', r, rfl, hsets, hone', hends⟩ := ih
    rw [← List.append_cons] at hone' hends
    exact ⟨words ++ before, rest, x :: ss', r, by simp [hargs], hx hsets, hone', hends⟩
  have hsame {x : Setting} (hx : x.input? = none) : (Setting.inputs (ss ++ [x])).length ≤ 1 := by
    simpa [Setting.inputs, hx] using hone
  match args with
  | [] =>
    match hinputs : Setting.inputs ss with
    | [] => exact hend (.noInput hinputs)
    | [path] => exact hend (.format hinputs)
    | _ :: _ :: _ => simp [hinputs] at hone
  | arg :: args =>
    by_cases hhelp : AsksHelp arg
    · exact hend (.help hhelp)
    by_cases houtput : AsksOutput arg
    · match args with
      | [] => exact hend (.noFileName houtput)
      | path :: args => exact hgo [arg, path] rfl (.output houtput) (exists_ends _ args (hsame rfl))
    by_cases hindent : AsksIndent arg
    · match args with
      | [] => exact hend (.noIndent hindent)
      | text :: args => exact hgo [arg, text] rfl (.indent hindent) (exists_ends _ args (hsame rfl))
    have hplain : Plain arg := ⟨hhelp, houtput, hindent⟩
    by_cases hinputs : Setting.inputs ss = []
    · have hfirst : (Setting.inputs (ss ++ [.input arg])).length ≤ 1 := by
        rw [Setting.inputs_append, hinputs]
        exact Nat.le_refl 1
      exact hgo [arg] rfl (.input hplain) (exists_ends _ args hfirst)
    · exact hend (.unexpected hplain hinputs)
termination_by args.length

theorem parse_iff {r : Except UsageError Command} : parse args = r ↔ Asks args r := by
  have hof {before rest : List String} {ss : List Setting} {r : Except UsageError Command} (hsets : Sets before ss)
      (hone : (Setting.inputs ss).length ≤ 1) (hends : Ends ss rest r) : parse (before ++ rest) = r :=
    (@parseAfter_append [] ss before hsets hone rest).trans (parseAfter_ends hends)
  constructor
  · rintro rfl
    obtain ⟨before, rest, ss, r, rfl, hsets, hone, hends⟩ := exists_ends [] args (Nat.zero_le 1)
    exact ⟨before, rest, ss, rfl, hsets, hone, (hof hsets hone hends).symm ▸ hends⟩
  · rintro ⟨before, rest, ss, rfl, hsets, hone, hends⟩
    exact hof hsets hone hends

/-- Options take what comes after them, and the last output counts. -/
example : parse ["-o", "a.css", "-", "--out-file", "--help", "--indent", "-o"] =
    .ok (.format ⟨"-", some "--help", "-o"⟩) := rfl

end Command

end Cascade
