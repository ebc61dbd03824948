import RestconfApi.Failure

/-!
# Paths: segments

The chain of data nodes that a path leads through, from the root of a module down. A list contributes
its keys as path parameters, whose names are made distinct along the chain. Names may be any values, but
only texts can be joined to a path.
-/

namespace RestconfApi

/-- A chain of segments: the root of a module, or a further node below one. The number `visit` tells
segments apart that agree in all else. -/
inductive Segment where
  | root (owner : Name) (visit : Nat)
  | step (above : Segment) (name owner : Name) (readOnly : Bool) (keys : List Name) (visit : Nat)
deriving BEq, Repr

/-- A parameter of a path: its name, the key leaf it stands for and the segment that has the key. -/
structure PathParameter where
  name : String
  key : Name
  segment : Segment
deriving Repr

namespace Segment

def owner : Segment → Name
  | .root owner _ => owner
  | .step _ _ owner _ _ _ => owner

def name : Segment → Name
  | .root _ _ => .null
  | .step _ name _ _ _ _ => name

/-- Extends a chain; a node without an owner of its own has that of the segment above. -/
def push (above : Segment) (name owner : Name) (readOnly : Bool) (keys : List Name)
    (visit : Nat) : Segment :=
  .step above name (if owner.holds then owner else above.owner) readOnly keys visit

def parent? : Segment → Option Segment
  | .root _ _ => none
  | .step above _ _ _ _ _ => some above

def isRoot (s : Segment) : Bool := s.parent?.isNone

/-- The segments from the top of the module down, the root left out. -/
def chain : Segment → List Segment
  | .root _ _ => []
  | s@(.step above _ _ _ _ _) => above.chain ++ [s]

def depth (s : Segment) : Nat := s.chain.length

/-- A segment is read-only when it or one above it is operational state. -/
def isReadOnly : Segment → Bool
  | .root _ _ => false
  | .step above _ _ readOnly _ _ => readOnly || above.isReadOnly

/-! ### Parameters -/

/-- A name for the parameter of a key that is not used yet: the key, or the key with the segment's
name before it, or that with the first number from 2 on. -/
def parameterName (used : List String) (segment key : String) : String :=
  let qualified := segment ++ "-" ++ key
  let numbered := (List.range (used.length + 1)).map fun i => qualified ++ toString (i + 2)
  ((key :: qualified :: numbered).find? (!used.contains ·)).getD key

/-- The parameters of the keys of a segment, after those already `used`. -/
def keyParameters (s : Segment) (used : List String) : List Name → List PathParameter
  | [] => []
  | key :: keys =>
    let parameter := parameterName used s.name.wording key.wording
    ⟨parameter, key, s⟩ :: keyParameters s (used ++ [parameter]) keys

/-- The parameters of a path in its order. -/
def parameters : Segment → List PathParameter
  | .root _ _ => []
  | s@(.step above _ _ _ keys _) =>
    let outer := above.parameters
    outer ++ keyParameters s (outer.map (·.name)) keys

/-! ### Path texts -/

/-- The name of a segment as its path shows it: qualified where its owner differs from that of the segment
above. -/
def shownName : Segment → Name
  | .root _ _ => .null
  | .step above name owner _ _ _ =>
    let outer := if above.isRoot then .null else above.owner
    if outer == owner then name else .text (owner.wording ++ ":" ++ name.wording)

/-- The part of the path that a segment contributes: its name and a placeholder for each key. -/
def label : Segment → String
  | .root _ _ => ""
  | s@(.step above _ _ _ keys _) =>
    let own := keyParameters s (above.parameters.map (·.name)) keys
    if keys.isEmpty then s.shownName.wording
    else s.shownName.wording ++ "=" ++ Text.join "," (own.map fun p => "\x7b" ++ p.name ++ "\x7d")

def path (s : Segment) : String := "/" ++ Text.join "/" (s.chain.map label)

/-- Whether the names that a segment contributes to its path are texts. -/
def isJoinable : Segment → Bool
  | .root _ _ => true
  | s@(.step _ _ _ _ keys _) =>
    keys.all (·.asText?.isSome) && (!keys.isEmpty || s.shownName.asText?.isSome)

/-- The path, if all its names are texts. -/
def path? (s : Segment) : Except Failure String :=
  if s.chain.all isJoinable then .ok s.path else .error .wrongType

/-- Every run of characters other than ASCII letters and digits becomes one underscore. `inRun` says
whether such a run is being passed. -/
def squash (inRun : Bool) : List Char → List Char
  | [] => []
  | c :: cs =>
    if c.isAlphanum then c :: squash false cs
    else if inRun then squash true cs
    else '_' :: squash true cs

/-- The module and the names on the way. -/
def stops (s : Segment) : List Name := (s.chain.head?.map owner).toList ++ s.chain.map name

/-- The operation id of a method on the path: the method, the module and the names on the way. -/
def operationId (method : String) (s : Segment) : String :=
  String.ofList (squash false (Text.join "_" (method :: s.stops.map Datum.wording)).toList)

/-- The operation id, if all names on the way are texts. -/
def operationId? (method : String) (s : Segment) : Except Failure String :=
  if s.stops.all (·.asText?.isSome) then .ok (s.operationId method) else .error .wrongType

end Segment

/-! ### Tags -/

/-- What operations are tagged with: the top node of their path or the module that owns it. -/
inductive TagRule where
  | topNode
  | owner
deriving DecidableEq, Repr

namespace TagRule

def tags (rule : TagRule) (s : Segment) : List Name :=
  match s.chain.head?, rule with
  | none, _ => []
  | some top, .topNode => [top.name]
  | some top, .owner => [top.owner]

/-- The tags of all rules, each once. -/
def allTags (rules : List TagRule) (s : Segment) : List Name :=
  (rules.flatMap fun rule => rule.tags s).foldl
    (fun tags tag => if tags.contains tag then tags else tags ++ [tag]) []

end TagRule

end RestconfApi
