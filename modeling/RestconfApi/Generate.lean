import RestconfApi.Path.Operations
import RestconfApi.Settings
import RestconfApi.Swagger.Folding

/-!
# Generation of a document

The walk over the data trees and rpcs of the selected modules. A container or list gets its operations
when the walk comes to it and its definition when it leaves it; choices and cases do not show, and
nodes of modules that are not selected are passed over.
-/

namespace RestconfApi

namespace Generation

open Building

/-- What a walk depends on: the scope of the definitions and the names of the selected modules. -/
structure Walk where
  scope : Scope
  selected : List Name

variable (w : Walk)

/-- One level less to go; there is nothing to count down without a limit. -/
def deeper (limit : Option Nat) : Option Nat := limit.map (· - 1)

mutual

/-- Visits the node at `a` below the segment `s`, with `limit` levels to go. The module that owns it has to
be named by a key. -/
def visit (h : Handler) (s : Segment) (limit : Option Nat) (a : Address) (above : List Node) :
    Node → Building Unit
  | ⟨st, cs⟩ => do
    let p : Place := ⟨a, ⟨st, cs⟩, above⟩
    if limit = some 0 then
      let path := p.schemaPath
      note .debug s!"Maximum depth level reached, skipping {path} and its children"
    else if st.owner.asKey?.isNone then fail .wrongType
    else if !w.selected.contains st.owner then
      let path := p.schemaPath
      note .debug s!"skipping {path} as it is from {st.owner.wording} module"
    else if st.kind.isStructural then do
      note .info s!"processing {st.kind.name} statement {st.name.wording}"
      let keys := if st.kind = .list then st.keys.map Datum.text else []
      let s := s.push st.name st.owner (!st.config) keys 0
      h.emit w.scope p s
      visitAll (h.withOwner p s) s (deeper limit) a (p.node :: above) 0 cs
      let _ ← Definitions.define w.scope p
    else if st.kind = .choice then do
      note .info s!"inlining choice statement {st.name.wording}"
      visitCases h s (deeper limit) a (p.node :: above) 0 cs

/-- Visits the children of the node at `a` from the `i`-th on. -/
def visitAll (h : Handler) (s : Segment) (limit : Option Nat) (a : Address) (above : List Node)
    (i : Nat) : List Node → Building Unit
  | [] => pure ()
  | n :: ns => do
    visit h s limit (a.child i) above n
    visitAll h s limit a above (i + 1) ns

/-- Visits the children of the cases of the choice at `a` from the `i`-th on. -/
def visitCases (h : Handler) (s : Segment) (limit : Option Nat) (a : Address) (above : List Node)
    (i : Nat) : List Node → Building Unit
  | [] => pure ()
  | ⟨st, cs⟩ :: ns => do
    visitAll h s limit (a.child i) (⟨st, cs⟩ :: above) 0 cs
    visitCases h s limit a above (i + 1) ns

end

/-- Walks through the `i`-th module. -/
def visitModule (settings : Settings) (i : Nat) : Building Unit := do
  match w.scope.schema.modules[i]? with
  | none => pure ()
  | some m => do
    let h := Handler.ofRules settings.tagRules
    let root := Segment.root m.name 0
    if .data ∈ settings.elements then
      visitAll w h root settings.walkLimit (Address.top i .data) [] 0 m.data
    if .rpc ∈ settings.elements then
      (w.scope.schema.tops i .rpcs).forM fun rpc =>
        h.emit w.scope rpc (root.push rpc.node.name m.name false [] 0)

/-! ### The document -/

/-- The names of modules with a text between them; they have to be texts. -/
def joined (sep : String) (names : List Name) : Except Failure String := do
  let texts ← names.mapM Datum.text?
  .ok (Text.join sep texts)

/-- The selected modules with their positions. -/
def select (s : Schema) (names : List Name) : Logged (List (Module × Nat)) :=
  if s.modules.isEmpty then do
    Logged.write .error "No modules found in the context."
    Logged.fail (.selection .noModules)
  else if names.isEmpty then do
    Logged.write .error "No modules has been specified for swagger generation"
    let known ← Logged.ofExcept (joined ", " (s.modules.map (·.name)))
    Logged.write .info ("Modules in the context are: " ++ known)
    Logged.fail (.selection .nothingSelected)
  else
    names.mapM fun name =>
      match s.module? name with
      | some found => pure found
      | none => do
        let wording ← Logged.ofExcept name.wording?
        Logged.fail (.selection (.unknownModule wording))

/-- What a document says about itself. The descriptions of the modules that have one have to be texts. -/
def info (settings : Settings) (title : String) (modules : List Module) : Except Failure Info := do
  let described ← joined "," ((modules.map (·.description)).filter Datum.holds)
  .ok
    { title := .text (title ++ " API")
      description :=
        .text (if described = "" then title ++ " API generated from yang definitions" else described)
      version := settings.version }

/-- The document before the walk. -/
def emptyDocument (settings : Settings) : Document :=
  { info := { version := settings.version }
    host := settings.host
    basePath := settings.basePath
    consumes := [settings.consumes]
    produces := [settings.produces] }

/-- Walks through the selected modules after counting what they use. -/
def walk (settings : Settings) (modules : List (Module × Nat)) : Building Unit := do
  modules.forM fun (_, i) => Definitions.processModule w.scope.schema i
  modules.forM fun (_, i) => visitModule w settings i

def postprocess (d : Document) : Postprocessor → Logged Document
  | .foldAliases => d.foldAliases?
  | .sortDefinitions => Logged.ofExcept d.sortDefinitions?
  | .sort => Logged.ofExcept d.sort?

/-- Applies the postprocessors in their order, unless there is no definition. -/
def postprocessAll (settings : Settings) (d : Document) : Logged Document :=
  if d.definitions.isEmpty then do
    Logged.write .warning "Generated swagger has no definitions"
    pure d
  else settings.postprocessors.foldlM postprocess d

/-- What the walk leaves: the scope of the definitions, the selected modules, the title that their
names make and the definitions that have been built. -/
structure Outcome where
  scope : Scope
  modules : List Module
  title : String
  definitions : Definitions

/-- Walks through the modules of the given names, which have to be texts. -/
def run (s : Schema) (names : List Name) (settings : Settings) : Logged Outcome := do
  let modules ← select s names
  let selected := modules.map (·.1.name)
  selected.forM fun name => do let _ ← Logged.ofExcept name.key?
  let groupings ← Groupings.ofSchema s
  let title ← Logged.ofExcept (joined "," selected)
  Logged.write .info s!"Generating swagger for yang modules: [{title}]"
  let scope : Scope := ⟨s, groupings, settings.strategy, settings.levelLimit⟩
  let start : Definitions := { document := emptyDocument settings }
  let (result, built) := walk ⟨scope, selected⟩ settings modules start
  let _ ← (⟨built.records, result⟩ : Logged Unit)
  pure ⟨scope, modules.map (·.1), title, built⟩

end Generation

/-- The document for the modules of the given names. -/
def generate (s : Schema) (names : List Name) (settings : Settings) : Logged Document := do
  let r ← Generation.run s names settings
  let info ← Logged.ofExcept (Generation.info settings r.title r.modules)
  Generation.postprocessAll settings { r.definitions.finished with info }

/-- The text of the document for the modules of the given names, in its final order. -/
def generateText (s : Schema) (names : List Name) (settings : Settings) : Logged String := do
  let d ← generate s names settings
  Logged.ofExcept (d.sort? >>= Document.text settings.format)

end RestconfApi
