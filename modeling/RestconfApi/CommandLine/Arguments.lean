import RestconfApi.CommandLine.Grammar
import RestconfApi.Datum.Basic
import RestconfApi.Text.Integer

/-!
# Command line: arguments

The reading of given arguments. An option may be shortened as long as only one option starts so, its
value may follow an equals sign, and the letters of options without values may stand together. After
two dashes nothing is an option any more; two dashes that are given to an option itself stand for no
values.
-/

namespace RestconfApi.CommandLine

/-- What an argument is: two dashes, an option under one of its names with the value that the argument
itself gives to it, an unknown option or anything else. -/
inductive Form where
  | dashes
  | option (s : Switch) (name : String) (attached : Option String)
  | unknown
  | plain

namespace Form

def isOption : Form → Bool
  | .option _ _ _ | .unknown => true
  | _ => false

def isPlain : Form → Bool
  | .plain => true
  | _ => false

end Form

namespace Grammar

variable (g : Grammar)

/-- All names of options in their order. -/
def names : List (String × Switch) := g.switches.flatMap fun s => s.names.map (·, s)

def switch? (name : String) : Option Switch := g.names.lookup name

/-- A text without the line feed that it ends with. -/
def chomp (cs : List Char) : List Char := if cs.getLast? = some '\n' then cs.dropLast else cs

/-- Whether an argument is a negative number: digits after a dash, with a point before some of them if
there is one. A line feed may follow. -/
def isNegative (argument : String) : Bool :=
  let isDigit (c : Char) : Bool := (Text.decimalValue? c).isSome
  match argument.toList with
  | '-' :: cs =>
    let cs := chomp cs
    match Text.cutFirst '.' cs with
    | some (whole, fraction) => whole.all isDigit && !fraction.isEmpty && fraction.all isDigit
    | none => !cs.isEmpty && cs.all isDigit
  | _ => false

/-- The value that stands after an equals sign, if there is one, and what is before it. -/
def splitValue (cs : List Char) : List Char × Option String :=
  match Text.cutFirst '=' cs with
  | some (name, value) => (name, some (String.ofList value))
  | none => (cs, none)

/-- The options that an argument may mean by the start of its name or by its first letter. -/
def matching (argument : String) : List (String × Form) :=
  let cs := argument.toList
  if "--".toList.isPrefixOf cs then
    let (start, attached) := splitValue cs
    g.names.filterMap fun (name, s) =>
      if start.isPrefixOf name.toList then some (name, .option s name attached) else none
  else
    g.names.filterMap fun (name, s) =>
      if name.toList = cs.take 2 then
        some (name, .option s name (some (String.ofList (cs.drop 2))))
      else if cs.isPrefixOf name.toList then some (name, .option s name none)
      else none

/-- The form of an argument that is not two dashes. -/
def formOf (argument : String) : Except Misuse Form :=
  let cs := argument.toList
  if cs.head? ≠ some '-' then .ok .plain
  else
    match g.switch? argument with
    | some s => .ok (.option s argument none)
    | none =>
      if cs.length = 1 then .ok .plain
      else
        let exact := match splitValue cs with
          | (name, some attached) =>
            (g.switch? (String.ofList name)).map fun s =>
              Form.option s (String.ofList name) (some attached)
          | (_, none) => none
        match exact with
        | some form => .ok form
        | none =>
          match g.matching argument with
          | [(_, form)] => .ok form
          | [] => .ok (if isNegative argument || cs.contains ' ' then .plain else .unknown)
          | several => .error (.ambiguous argument (several.map Prod.fst))

/-- The arguments with their forms. -/
def formsOf : List String → Except Misuse (List (String × Form))
  | [] => .ok []
  | argument :: rest =>
    if argument = "--" then .ok ((argument, .dashes) :: rest.map (·, .plain))
    else do
      let form ← g.formOf argument
      let forms ← formsOf rest
      .ok ((argument, form) :: forms)

end Grammar

/-- What has been read: the options with their values, which are texts unless there are none, the operand
with what belongs to it, and what nothing is known of. -/
structure Arguments where
  given : List (String × Datum) := []
  operands : List String := []
  extras : List String := []

namespace Arguments

/-- The last value of an option. -/
def value? (key : String) (a : Arguments) : Option Datum :=
  (a.given.filter (·.1 = key)).getLast?.map Prod.snd

/-- All values of an option. -/
def values (key : String) (a : Arguments) : List Datum :=
  (a.given.filter (·.1 = key)).map Prod.snd

def has (key : String) (a : Arguments) : Bool := a.given.any (·.1 = key)

end Arguments

/-- Why reading ends early: the help is asked for, or the arguments do not fit. -/
inductive Stop where
  | help (g : Grammar)
  | misuse (g : Grammar) (fault : Misuse)

namespace Grammar

variable (g : Grammar)

def stop {α : Type} (fault : Misuse) : Except Stop α := .error (.misuse g fault)

/-- An option that has been met, with its value if it takes one. -/
abbrev Met := Switch × Option String

/-- The options that stand together in one argument, after those `met` before, and how many of the
arguments after it belong to the last of them. The number bounds the letters. -/
def cluster (rest : List (String × Form)) : Nat → List Met → Switch → String → Option String →
    Except Stop (List Met × Nat)
  | 0, met, _, _, _ => .ok (met, 0)
  | fuel + 1, met, s, name, attached =>
    match s.effect, attached with
    | .value, some value => .ok (met ++ [(s, some value)], 0)
    | .value, none =>
      match rest with
      | (value, .plain) :: _ => .ok (met ++ [(s, some value)], 1)
      | _ => g.stop (.noValue s.title)
    | _, none => .ok (met ++ [(s, none)], 0)
    | _, some value =>
      match value.toList with
      | [] => g.stop (.unwanted s.title value)
      | c :: cs =>
        let next := String.ofList ['-', c]
        match if "--".toList.isPrefixOf name.toList then none else g.switch? next with
        | none => g.stop (.unwanted s.title value)
        | some other =>
          let attached := if cs.isEmpty then none else some (String.ofList cs)
          cluster rest fuel (met ++ [(s, none)]) other next attached

/-- Takes over an option that has been met. -/
def takeOver (a : Arguments) : Met → Except Stop Arguments
  | (s, value) =>
    match s.effect, value with
    | .help, _ => .error (.help g)
    | .value, some v =>
      if v = "--" then .ok { a with given := a.given ++ [(s.key, .list [])] }
      else
        match s.fault? v with
        | some fault => g.stop fault
        | none => .ok { a with given := a.given ++ [(s.key, .text v)] }
    | _, _ => .ok { a with given := a.given ++ [(s.key, .bool true)] }

/-- The arguments at the start that the operand takes, as many as there are of them. -/
def operandSize (items : List (String × Form)) : Nat :=
  let isDashes (item : String × Form) : Bool := !item.2.isOption && !item.2.isPlain
  let leading := (items.takeWhile isDashes).length
  match items.drop leading with
  | (_, .plain) :: rest =>
    if g.operand.takesRest then items.length
    else leading + 1 + (rest.takeWhile isDashes).length
  | _ => 0

/-- Takes the operand from the start, if it is still to come. -/
def takeOperand (a : Arguments) (items : List (String × Form)) :
    Except Stop (Arguments × List (String × Form)) :=
  let size := if a.operands.isEmpty then g.operandSize items else 0
  if size = 0 then .ok (a, items)
  else
    let taken := (items.take size).map Prod.fst
    let rest := items.drop size
    if g.operand.takesRest then
      let commands := g.operand.commands.map Prod.fst
      let command := taken.headD ""
      if commands.contains command then .ok ({ a with operands := taken }, rest)
      else g.stop (.noChoice g.operand.name command commands)
    else .ok ({ a with operands := taken.erase "--" }, rest)

/-- Reads argument by argument; the number bounds the steps. -/
def readFrom : Nat → Arguments → List (String × Form) → Except Stop Arguments
  | 0, a, _ => .ok a
  | fuel + 1, a, items =>
    match items with
    | [] => .ok a
    | (argument, form) :: rest =>
      if !items.any (·.2.isOption) then do
        let (a, items) ← g.takeOperand a items
        .ok { a with extras := a.extras ++ items.map Prod.fst }
      else
        match form with
        | .unknown => readFrom fuel { a with extras := a.extras ++ [argument] } rest
        | .option s name attached => do
          let (met, size) ← g.cluster rest (argument.length + 1) [] s name attached
          let a ← met.foldlM g.takeOver a
          readFrom fuel a (rest.drop size)
        | _ => do
          let (a', items') ← g.takeOperand a items
          if items'.length < items.length then readFrom fuel a' items'
          else
            let passed := items.takeWhile (!·.2.isOption)
            readFrom fuel { a with extras := a.extras ++ passed.map Prod.fst }
              (items.drop passed.length)

/-- What has to be there and is not. -/
def missing (a : Arguments) : List String :=
  (if g.operand.isRequired && a.operands.isEmpty then [g.operand.name] else []) ++
    (g.switches.filter fun s => s.isRequired && !a.has s.key).map Switch.title

/-- Reads arguments. -/
def read (arguments : List String) : Except Stop Arguments := do
  match g.formsOf arguments with
  | .error fault => g.stop fault
  | .ok items => do
    let a ← g.readFrom (2 * items.length + 1) {} items
    match g.missing a with
    | [] => .ok a
    | missing => g.stop (.missing missing)

end Grammar

end RestconfApi.CommandLine
