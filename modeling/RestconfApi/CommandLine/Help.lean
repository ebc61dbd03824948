import RestconfApi.CommandLine.Grammar

/-!
# Command line: help

The text that explains the arguments of a program, in lines of at most 78 characters: how the program
is used, and a table of its arguments. The explanations stand in a column that is no further to the
right than the 24th.
-/

namespace RestconfApi.CommandLine

def lineWidth : Nat := 78

def blanks (n : Nat) : String := String.ofList (List.replicate n ' ')

/-- Words in lines of a width; a word that is wider has a line of its own. `held` are the words of the
current line and `size` is its length. -/
def fillLines (width : Nat) : List String → Nat → List String → List (List String)
  | held, _, [] => if held.isEmpty then [] else [held]
  | held, size, word :: words =>
    if held.isEmpty then fillLines width [word] word.length words
    else if size + 1 + word.length ≤ width then
      fillLines width (held ++ [word]) (size + 1 + word.length) words
    else held :: fillLines width [word] word.length words

/-- A text in lines of a width. -/
def wrap (width : Nat) (s : String) : List String :=
  (fillLines width [] 0 (Text.words s)).map (Text.join " ")

namespace Switch

/-- What stands for the value of the option. -/
def placeholder (s : Switch) : String :=
  if s.choices.isEmpty then s.key.toUpper else "\x7b" ++ Text.join "," s.choices ++ "\x7d"

/-- The option under one of its names. -/
def withPlaceholder (s : Switch) (name : String) : String :=
  if s.effect = .value then name ++ " " ++ s.placeholder else name

/-- The words of the option in the usage line. An option that may be left out is in brackets, which
keep its words together. -/
def usage (s : Switch) : List String :=
  let text := s.withPlaceholder (s.names.headD "")
  if s.isRequired then Text.words text else ["[" ++ text ++ "]"]

def heading (s : Switch) : String := Text.join ", " (s.names.map s.withPlaceholder)

end Switch

namespace Operand

def heading (o : Operand) : String :=
  if o.takesRest then "\x7b" ++ Text.join "," (o.commands.map Prod.fst) ++ "\x7d" else o.name

def usage (o : Operand) : List String := if o.takesRest then [o.heading, "..."] else [o.heading]

end Operand

/-- A row of the table of arguments. -/
structure Row where
  indent : Nat
  heading : String
  about : String

/-- The lines of a row, given the column of the explanations. -/
def Row.lines (column : Nat) (r : Row) : List String :=
  let start := blanks r.indent ++ r.heading
  let about := wrap (lineWidth - column) r.about
  let further := fun (s : String) => blanks column ++ s
  if r.indent + r.heading.length + 2 ≤ column then
    (start ++ blanks (column - r.indent - r.heading.length) ++ about.headD "") ::
      about.tail.map further
  else start :: about.map further

namespace Grammar

variable (g : Grammar)

/-- The lines of the usage: on one line if there is room, else options and operand each start one. -/
def usageLines : List String :=
  let start := "usage: " ++ g.program
  let options := g.switches.flatMap Switch.usage
  let whole := Text.join " " (start :: options ++ g.operand.usage)
  if whole.length ≤ lineWidth then [whole]
  else
    let indent := start.length + 1
    let filled := fun (words : List String) =>
      (fillLines (lineWidth - indent) [] 0 words).map (Text.join " ")
    match filled options ++ filled g.operand.usage with
    | [] => [start]
    | first :: rest => (start ++ " " ++ first) :: rest.map (blanks indent ++ ·)

def operandRows : List Row :=
  ⟨2, g.operand.heading, g.operand.about⟩ ::
    g.operand.commands.map fun (name, about) => ⟨4, name, about⟩

def switchRows : List Row := g.switches.map fun s => ⟨2, s.heading, s.about⟩

/-- The column of the explanations: two after the longest heading, but at most the 24th. -/
def column : Nat :=
  min 24 ((g.operandRows ++ g.switchRows).foldl (fun n r => max n (r.heading.length + 2)) 0 + 2)

def help : String :=
  let table := fun (title : String) (rows : List Row) => title :: rows.flatMap (Row.lines g.column)
  let about := if g.about = "" then [] else wrap lineWidth g.about ++ [""]
  let lines :=
    g.usageLines ++ [""] ++ about ++ table "positional arguments:" g.operandRows ++ [""] ++
      table "options:" g.switchRows
  Text.join "\n" lines ++ "\n"

end Grammar

end RestconfApi.CommandLine
