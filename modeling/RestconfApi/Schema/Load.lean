import RestconfApi.Schema.Expansion

/-!
# Schema: loading

From a document to a schema: its statements are declared, `uses` and augments expanded, and the config
flags passed down. A node is configuration when it and all nodes around it are declared so or say
nothing; the nodes of an rpc always count as configuration.
-/

namespace RestconfApi

namespace Node

mutual

/-- The tree with the config flags passed down from `inherited`. -/
def withConfig (inherited : Bool) : Node → Node
  | ⟨s, cs⟩ =>
    let config := inherited && s.declaredConfig.getD true
    ⟨{ s with config }, withConfigAll config cs⟩

def withConfigAll (inherited : Bool) : List Node → List Node
  | [] => []
  | n :: ns => withConfig inherited n :: withConfigAll inherited ns

end

mutual

/-- The nodes declared as configuration below operational state, from the top down. -/
def configWarnings (above : List String) (inherited : Bool) : Node → List Record
  | ⟨s, cs⟩ =>
    let path := above ++ [s.qname]
    let config := inherited && s.declaredConfig.getD true
    let here :=
      if s.declaredConfig = some true && !inherited then
        [⟨.warning, "/" ++ Text.join "/" path ++
          " declares config true under operational state; treating it as read-only"⟩]
      else []
    here ++ configWarningsAll path config cs

def configWarningsAll (above : List String) (inherited : Bool) : List Node → List Record
  | [] => []
  | n :: ns => configWarnings above inherited n ++ configWarningsAll above inherited ns

end

end Node

namespace Module

def withConfig (m : Module) : Module :=
  { m with
    groupings := Node.withConfigAll true m.groupings
    data := Node.withConfigAll true m.data
    rpcs := Node.mapStatementsAll (fun s => { s with config := true }) m.rpcs }

def configWarnings (m : Module) : List Record :=
  Node.configWarningsAll [] true m.groupings ++ Node.configWarningsAll [] true m.data

end Module

namespace Schema

/-- The schema that a document describes. -/
def load (d : Datum) : Logged Schema := do
  let (modules, augments) ← Logged.ofExcept (Declaration.document d)
  let s ← Expansion.schema ⟨modules⟩ augments
  (⟨s.modules.flatMap Module.configWarnings, .ok ()⟩ : Logged Unit)
  pure ⟨s.modules.map Module.withConfig⟩

end Schema

end RestconfApi
