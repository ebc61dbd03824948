import RestconfApi.Definitions.Build
import RestconfApi.Path.Segment

/-!
# Paths: operations

The operations of a node under its path. Data nodes lie under `/data`: configuration can be read,
written, created and deleted, operational state only read. Rpcs lie under `/operations` and are
invoked. Bodies and responses point at definitions.
-/

namespace RestconfApi

/-- The operations of one module: the rules for their tags, and the node behind each segment met so
far. -/
structure Handler where
  rules : List TagRule
  owners : Entries Segment Place := []

namespace Handler

/-- The handler of some rules; without any it tags with the top node. -/
def ofRules (rules : List TagRule) : Handler := ⟨if rules.isEmpty then [.topNode] else rules, []⟩

open Definitions Building

variable (c : Scope) (h : Handler)

/-- The parameter of a key, typed like the key leaf, or as a string when the list has no such child. -/
def pathParameter (p : PathParameter) : Building Parameter := do
  let leaf := (h.owners.get? p.segment).bind fun owner => owner.child? p.key
  let property ←
    match leaf with
    | some leaf => ofLogged (c.schema.leafProperty leaf)
    | none => pure { type := .text "string" }
  pure
    { name := .text p.name, location := .text "path"
      description := .text ("Id of " ++ p.segment.name.wording)
      type := property.type, format := property.format }

def body (p : Place) : Building Parameter := do
  let property ← reference c p
  let name := p.node.name.wording
  pure
    { name := .text (name ++ ".body-param"), location := .text "body"
      description := .text (name ++ " to be added or updated"), schema := some property }

def addOperation (path method : String) (o : Operation) : Building Unit :=
  modify fun d => { d with document := d.document.addOperation (.text path) (.text method) o }

/-- A response that only says what it means, under its code. -/
def plain (code text : String) : Scalar × Response := (.text code, ⟨.text text, none⟩)

/-- The response that hands out what a property describes. -/
def answered (property : Property) : Scalar × Response :=
  (.text "200", ⟨.text "Correct response", some property⟩)

def failed : Scalar × Response := plain "400" "Internal error"

/-- A method that writes a node: its name, the verb of its summary and its own responses. -/
structure Write where
  method : String
  verb : String
  responses : Entries Scalar Response

def writes : List Write := [
  ⟨"put", "creates or updates", [plain "201" "Object created", plain "204" "Object modified"]⟩,
  ⟨"post", "creates", [plain "201" "Object created", plain "409" "Object already exists"]⟩]

/-- The operations of a container or a list. -/
def dataPath (p : Place) (s : Segment) : Building Unit := do
  let n := p.node
  let path := "/data" ++ (← ofLogged (.ofExcept s.path?))
  let parameters ← s.parameters.mapM (h.pathParameter c)
  let operation (method verb : String) (parameters : List Parameter)
      (responses : Entries Scalar Response) : Building Operation := do
    let id ← ofLogged (.ofExcept (s.operationId? method))
    pure
      { operationId := .text id, summary := .text (verb ++ " " ++ n.name.wording)
        description := n.description, tags := TagRule.allTags h.rules s
        parameters, responses := responses ++ [failed] }
  let property ← reference c p
  addOperation path "get" (← operation "get" "returns" parameters [answered property])
  if s.isReadOnly then pure ()
  else
    writes.forM fun w => do
      let body ← body c p
      addOperation path w.method (← operation w.method w.verb (parameters ++ [body]) w.responses)
    addOperation path "delete"
      (← operation "delete" "removes" parameters [plain "204" "Object deleted"])

/-- The last child of a kind, if it has data children. -/
def payload? (rpc : Place) (kind : Kind) : Option Place :=
  match (rpc.children.filter fun p => p.node.kind = kind).getLast? with
  | some p => if p.dataChildren.isEmpty then none else some p
  | none => none

/-- The body of an rpc that has an input. -/
def inputParameters (rpc : Place) : Building (List Parameter) :=
  match payload? rpc .input with
  | some input => do
    let name ← define c input
    pure
      [{ name := .text "input", location := .text "body"
         description := .text (rpc.node.name.wording ++ " input")
         schema := some { ref := some (.scalar name) } }]
  | none => pure []

/-- The response to an rpc, which hands out its output if it has one. -/
def outputResponse (rpc : Place) : Building (Scalar × Response) :=
  match payload? rpc .output with
  | some output => do
    let name ← define c output
    pure (answered { ref := some (.scalar name) })
  | none => pure (plain "204" "Operation completed")

/-- The operation that invokes an rpc. -/
def rpcPath (rpc : Place) (s : Segment) : Building Unit := do
  let n := rpc.node
  let parameters ← inputParameters c rpc
  let response ← outputResponse c rpc
  let path ← ofLogged (.ofExcept s.path?)
  let id ← ofLogged (.ofExcept (s.operationId? "rpc"))
  addOperation ("/operations" ++ path) "post"
    { operationId := .text id, summary := .text ("operates on " ++ n.name.wording)
      description := n.description, tags := TagRule.allTags h.rules s
      parameters, responses := [response, failed] }

/-- The handler that knows the node behind a segment. -/
def withOwner (p : Place) (s : Segment) : Handler := { h with owners := h.owners.put s p }

/-- Adds the operations of the node behind a segment. -/
def emit (p : Place) (s : Segment) : Building Unit :=
  let h := h.withOwner p s
  if p.node.kind = .rpc then h.rpcPath c p s else h.dataPath c p s

end Handler

end RestconfApi
