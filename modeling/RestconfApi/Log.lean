/-!
# Log records

What a run reports besides its result, from the first record to the last.
-/

namespace RestconfApi

inductive Level where
  | debug
  | info
  | warning
  | error
deriving DecidableEq, Repr

namespace Level

def name : Level → String
  | .debug => "DEBUG"
  | .info => "INFO"
  | .warning => "WARNING"
  | .error => "ERROR"

def rank : Level → Nat
  | .debug => 0
  | .info => 1
  | .warning => 2
  | .error => 3

def ofName? (s : String) : Option Level :=
  [Level.debug, .info, .warning, .error].find? (·.name = s)

end Level

structure Record where
  level : Level
  text : String
deriving DecidableEq, Repr

def Record.line (r : Record) : String := r.level.name ++ " " ++ r.text

end RestconfApi
