import RestconfApi.CommandLine.Command
import RestconfApi.Generate
import RestconfApi.Schema.File
import RestconfApi.Text.Utf8

/-!
# Command line: runs

What a command answers when it is given the file that it asks for, and the run of the whole program on
the files of a folder.
-/

namespace RestconfApi.CommandLine

/-- The answer of a command: what it shows, and the file that it writes before that. -/
structure Answer where
  code : Nat := 0
  shown : String := ""
  file : Option (FilePath × String) := none

/-- The schema in a file, given its content. -/
def schemaOf (p : FilePath) (content : Except FileFault (List UInt8)) : Logged Schema := do
  let bytes ← Logged.ofExcept (content.mapError .file)
  let text ← Logged.ofExcept ((Text.Utf8.decode bytes).mapError .encoding)
  Schema.loadText p.text text

/-- The failures that are shown instead of the list of modules. -/
def isShownForModules : Failure → Bool
  | .file .holdsNul => false
  | .schema _ | .leafref _ | .selection _ | .file _ => true
  | _ => false

/-- The failures that are shown instead of a document: those of the schema and those of values. -/
def isShownForDocuments : Failure → Bool
  | .setting _ | .value _ | .calendar _ | .encoding _ | .file .holdsNul => true
  | e => isShownForModules e

/-- Shows some of the failures of a run instead of its answer. -/
def showing (isShown : Failure → Bool) (title : String) (x : Logged Answer) : Logged Answer :=
  match x.result with
  | .ok _ => x
  | .error e =>
    if isShown e then ⟨x.records, .ok { code := 1, shown := s!"✗ {title}: {e.message}\n" }⟩ else x

/-- The line of a module in the list of modules. -/
def moduleLine (m : Module) : Except Failure String := do
  let wording ← m.revision.wording?
  let revision := if m.revision.holds then s!" ({wording})" else ""
  let name ← m.name.wording?
  .ok s!"  ○ {name}{revision}: {m.data.length} data nodes, {m.rpcs.length} rpcs\n"

def modulesAnswer (p : FilePath) (content : Except FileFault (List UInt8)) : Logged Answer :=
  showing isShownForModules "Failed to load schema" do
    let s ← schemaOf p content
    let lines ← Logged.ofExcept (s.modules.mapM moduleLine)
    pure { shown := "Modules in schema:\n" ++ String.join lines }

def Order.text (o : Order) (content : Except FileFault (List UInt8)) : Logged String := do
  let s ← schemaOf o.schema content
  let settings ← Logged.ofExcept o.settings
  generateText s o.modules settings

def Order.answer (o : Order) (content : Except FileFault (List UInt8)) : Logged Answer :=
  showing isShownForDocuments "Failed to generate swagger" do
    let text ← o.text content
    match o.target with
    | none => pure { shown := text }
    | some p =>
      let modules := Text.join ", " (o.modules.map Datum.wording)
      pure { shown := s!"✓ Wrote swagger for {modules} to: {p.text}\n", file := some (p, text) }

namespace Command

/-- The file that a command reads. -/
def source? : Command → Option FilePath
  | .overview => none
  | .modules p => some p
  | .generate o => some o.schema

/-- The answer of a command, given the content of the file that it reads. -/
def answer (content : Except FileFault (List UInt8)) : Command → Logged Answer
  | .overview => pure { code := 1, shown := programGrammar.help }
  | .modules p => modulesAnswer p content
  | .generate o => o.answer content

end Command

namespace Stop

/-- The answer to arguments that are not carried out. -/
def answer : Stop → Answer
  | .help g => { shown := g.help }
  | .misuse _ _ => { code := 2 }

/-- What is complained about, if it is not just the help that is asked for. -/
def complaint? : Stop → Option String
  | .help _ => none
  | .misuse g fault => some s!"{g.program}: error: {fault.message}"

end Stop

/-! ### Runs in a folder -/

/-- The end of a run: its code, what it showed, the last line of its complaint, and the folder after it. -/
structure Outcome where
  code : Nat
  shown : String
  complaint : Option String
  folder : Folder

/-- Carries out the answer of a command. A file is emptied before it is written. -/
def Answer.carryOut (f : Folder) (a : Answer) : Except Failure Outcome := do
  let folder ←
    match a.file with
    | none => .ok f
    | some (p, text) => do
      let f ← (f.write p []).mapError .file
      let bytes ← (Text.Utf8.encode text).mapError .encoding
      (f.write p bytes).mapError .file
  .ok { code := a.code, shown := a.shown, complaint := none, folder }

/-- Runs the program with arguments in a folder. -/
def run (f : Folder) (arguments : List String) : Logged Outcome :=
  match Invocation.ofArguments arguments with
  | .error stop =>
    pure
      { code := stop.answer.code
        shown := stop.answer.shown
        complaint := stop.complaint?.map Text.lastLine
        folder := f }
  | .ok invocation => do
    let content := (invocation.command.source?.map f.read).getD (.ok [])
    let a ← invocation.command.answer content
    Logged.ofExcept (a.carryOut f)

end RestconfApi.CommandLine
