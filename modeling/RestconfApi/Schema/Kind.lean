/-!
# Schema: kinds of statements

What a statement is: a container, a list, a leaf, and so on.
-/

namespace RestconfApi

inductive Kind where
  | container
  | list
  | leaf
  | leafList
  | choice
  | case
  | anydata
  | grouping
  | rpc
  | input
  | output
deriving DecidableEq, Repr

namespace Kind

def all : List Kind :=
  [.container, .list, .leaf, .leafList, .choice, .case, .anydata, .grouping, .rpc, .input, .output]

def name : Kind → String
  | .container => "container"
  | .list => "list"
  | .leaf => "leaf"
  | .leafList => "leaf-list"
  | .choice => "choice"
  | .case => "case"
  | .anydata => "anydata"
  | .grouping => "grouping"
  | .rpc => "rpc"
  | .input => "input"
  | .output => "output"

def ofName? (s : String) : Option Kind := all.find? (·.name = s)

/-- Containers and lists, which get paths and definitions. -/
def isStructural (k : Kind) : Bool := k = .container || k = .list

/-- Choices and cases, which do not show in instance data. -/
def isTransparent (k : Kind) : Bool := k = .choice || k = .case

def isPayload (k : Kind) : Bool := k = .input || k = .output

/-- Leaves and leaf-lists, which carry a type. -/
def isTyped (k : Kind) : Bool := k = .leaf || k = .leafList

end Kind

end RestconfApi
