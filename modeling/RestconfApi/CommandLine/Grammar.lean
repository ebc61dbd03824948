import RestconfApi.Text.Blank
import RestconfApi.Text.Quoted

/-!
# Command line: grammar

The arguments that a program understands, and the ways in which given arguments do not fit.
-/

namespace RestconfApi.CommandLine

/-- What is wrong with the arguments of a program. -/
inductive Misuse where
  | noChoice (argument value : String) (choices : List String)
  | invalid (argument type value : String)
  | refused (argument reason : String)
  | noValue (argument : String)
  | unwanted (argument value : String)
  | ambiguous (given : String) (names : List String)
  | missing (arguments : List String)
  | unknown (given : List String)
deriving DecidableEq, Repr

def Misuse.message : Misuse → String
  | .noChoice argument value choices =>
    let listed := Text.join ", " (choices.map Text.quoted)
    s!"argument {argument}: invalid choice: {Text.quoted value} (choose from {listed})"
  | .invalid argument type value =>
    s!"argument {argument}: invalid {type} value: {Text.quoted value}"
  | .refused argument reason => s!"argument {argument}: {reason}"
  | .noValue argument => s!"argument {argument}: expected one argument"
  | .unwanted argument value =>
    s!"argument {argument}: ignored explicit argument {Text.quoted value}"
  | .ambiguous given names =>
    "ambiguous option: " ++ given ++ " could match " ++ Text.join ", " names
  | .missing arguments =>
    "the following arguments are required: " ++ Text.join ", " arguments
  | .unknown given => "unrecognized arguments: " ++ Text.join " " given

/-- What an option does: it shows the help, it is just there, or it takes a value. -/
inductive Effect where
  | help
  | flag
  | value
deriving DecidableEq, Repr

/-- An option with its names and the name under which it is found afterwards. `check` says what is wrong
with a value, given the way the option is called in messages. -/
structure Switch where
  names : List String
  key : String
  effect : Effect := .value
  isRequired : Bool := false
  choices : List String := []
  check : String → String → Option Misuse := fun _ _ => none
  about : String

namespace Switch

/-- How messages call the option. -/
def title (s : Switch) : String := Text.join "/" s.names

/-- What is wrong with a value of the option. -/
def fault? (s : Switch) (value : String) : Option Misuse :=
  if !s.choices.isEmpty && !s.choices.contains value then
    some (.noChoice s.title value s.choices)
  else s.check s.title value

end Switch

/-- The argument that is no option: a single one, or a command with everything after it. -/
structure Operand where
  name : String
  about : String
  isRequired : Bool := true
  commands : List (String × String) := []

def Operand.takesRest (o : Operand) : Bool := !o.commands.isEmpty

/-- The arguments of a program. -/
structure Grammar where
  program : String
  about : String := ""
  operand : Operand
  switches : List Switch

/-- The option that every program has. -/
def helpSwitch : Switch :=
  { names := ["-h", "--help"], key := "help", effect := .help
    about := "show this help message and exit" }

end RestconfApi.CommandLine
