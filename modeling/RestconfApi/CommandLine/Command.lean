import RestconfApi.CommandLine.Arguments
import RestconfApi.CommandLine.Help
import RestconfApi.Folder
import RestconfApi.Settings

/-!
# Command line: commands

What the program can be asked for: the document for modules of a schema, a list of the modules, or
nothing, which is answered with the help.
-/

namespace RestconfApi.CommandLine

/-! ### Grammars -/

/-- What is wrong with a number of levels: it is a whole number above zero, or `unbounded`. -/
def depthFault? (title value : String) : Option Misuse :=
  if Text.lower value = "unbounded" then none
  else
    match Text.whole 10 value with
    | .error _ => some (.invalid title "_max_depth" value)
    | .ok n =>
      if n < 1 then some (.refused title "depth must be a positive integer or 'unbounded'") else none

def defaults : Settings := {}

def schemaOperand : Operand := { name := "schema", about := "Schema document (.json, .yaml)" }

def generateGrammar : Grammar where
  program := "yang-swagger generate"
  operand := schemaOperand
  switches := [
    helpSwitch,
    { names := ["-m", "--module"], key := "modules", isRequired := true
      about := "Module to generate (repeatable)" },
    { names := ["-o", "--output"], key := "output"
      about := "Write the document to this file instead of stdout" },
    { names := ["--format"], key := "format", choices := [Format.yaml, .json].map Format.name
      about := "Output format (default: " ++ defaults.format.name ++ ")" },
    { names := ["--strategy"], key := "strategy"
      choices := [Strategy.optimizing, .unpacking].map Strategy.name
      about := "Grouping strategy (default: " ++ defaults.strategy.name ++ ")" },
    { names := ["--max-depth"], key := "max_depth", check := depthFault?
      about := "Maximum depth of generated paths, or 'unbounded' (default: unbounded)" },
    { names := ["--elements"], key := "elements"
      about := "Generated statement categories: data, rpc or data+rpc (default: data+rpc)" },
    { names := ["--host"], key := "host"
      about := "API host (default: " ++ defaults.host.wording ++ ")" },
    { names := ["--base-path"], key := "base_path"
      about := "API base path (default: " ++ defaults.basePath.wording ++ ")" },
    { names := ["--api-version"], key := "api_version"
      about := "API version written to info (default: " ++ defaults.version.wording ++ ")" },
    { names := ["--module-tags"], key := "module_tags", effect := .flag
      about := "Also tag operations with their module name" }]

def modulesGrammar : Grammar where
  program := "yang-swagger modules"
  operand := schemaOperand
  switches := [helpSwitch]

def programGrammar : Grammar where
  program := "yang-swagger"
  about := "YANG to Swagger generator CLI"
  operand :=
    { name := "command"
      about := "Available commands"
      isRequired := false
      commands := [
        ("generate", "Generate a Swagger document for selected modules"),
        ("modules", "List modules declared by a schema document")] }
  switches := [
    helpSwitch,
    { names := ["-v", "--verbose"], key := "verbose", effect := .flag
      about := "Enable verbose logging" }]

/-! ### Commands -/

/-- The document that is asked for: of which schema and modules, with which settings, and the file to
write it to. The elements and the number of levels are still as they were given. -/
structure Order where
  schema : FilePath
  modules : List Name
  target : Option FilePath
  elements : Datum
  depth : Datum
  draft : Settings.Draft

namespace Order

def ofArguments (a : Arguments) : Order :=
  let value (key : String) (default : Datum) : Datum := (a.value? key).getD default
  { schema := FilePath.ofText (a.operands.headD "")
    modules := a.values "modules"
    target := ((a.value? "output").bind Datum.asText?).map FilePath.ofText
    elements := value "elements" (.text "data+rpc")
    depth := value "max_depth" (.text "unbounded")
    draft :=
      { base :=
          { host := value "host" defaults.host
            basePath := value "base_path" defaults.basePath
            version := value "api_version" defaults.version
            tagRules := if a.has "module_tags" then [.topNode, .owner] else [.topNode] }
        format := value "format" (.text defaults.format.name)
        strategy := value "strategy" (.text defaults.strategy.name) } }

def settings (o : Order) : Except Failure Settings := do
  let elements ←
    match o.elements with
    | .text s => Settings.parseElements s
    | _ => .error .noMember
  let maxDepth ←
    match o.depth with
    | .text s => Settings.parseDepth s
    | depth => .ok depth
  { o.draft with elements := .texts (elements.map Element.name), maxDepth }.check

end Order

inductive Command where
  | overview
  | modules (schema : FilePath)
  | generate (o : Order)

/-- A command as it is given, and whether a lot is to be reported. -/
structure Invocation where
  isVerbose : Bool
  command : Command

namespace Invocation

/-- Reads arguments by two grammars: that of the program and that of the command, which gets all
arguments after its name. What is unknown to either is refused in the end. -/
def ofArguments (arguments : List String) : Except Stop Invocation := do
  let outer ← programGrammar.read arguments
  let refuseExtras (inner : List String) : Except Stop Unit :=
    match outer.extras ++ inner with
    | [] => .ok ()
    | extras => programGrammar.stop (.unknown extras)
  let isVerbose := outer.has "verbose"
  match outer.operands with
  | "generate" :: rest => do
    let a ← generateGrammar.read rest
    refuseExtras a.extras
    .ok ⟨isVerbose, .generate (.ofArguments a)⟩
  | "modules" :: rest => do
    let a ← modulesGrammar.read rest
    refuseExtras a.extras
    .ok ⟨isVerbose, .modules (FilePath.ofText (a.operands.headD ""))⟩
  | _ => do
    refuseExtras []
    .ok ⟨isVerbose, .overview⟩

end Invocation

end RestconfApi.CommandLine
