import RestconfApi.Path.Operations

/-!
# Paths: handlers

Handlers are made one after the other, from the tag rules collected so far. A handler made while there
are rules goes on to share them, so that it follows the rules added later; a handler made without any
tags with the top node of the path for good.
-/

namespace RestconfApi

/-- The rules collected so far, whether there is a document to write to, how many handlers have been
made, the newest of them, and whether that one shares the rules. -/
structure Handlers where
  rules : List TagRule := []
  isReady : Bool := false
  made : Nat := 0
  newest : Option Handler := none
  sharesRules : Bool := false

namespace Handlers

variable (hs : Handlers)

def addRule (rule : TagRule) : Handlers := { hs with rules := hs.rules ++ [rule] }

def ready : Handlers := { hs with isReady := true }

/-- Makes a handler, which there must be a document for. -/
def make : Except Failure Handlers :=
  if hs.isReady then
    .ok
      { hs with
        made := hs.made + 1
        newest := some (Handler.ofRules hs.rules)
        sharesRules := !hs.rules.isEmpty }
  else .error .notConfigured

/-- The newest handler with the rules it has by now. -/
def current? : Option Handler :=
  hs.newest.map fun h => if hs.sharesRules then { h with rules := hs.rules } else h

/-- The handlers with the newest one in a new state. -/
def keep (h : Handler) : Handlers := { hs with newest := some h }

end Handlers

end RestconfApi
