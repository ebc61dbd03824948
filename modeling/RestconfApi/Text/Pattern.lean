/-!
# Text: patterns

Patterns of characters, each a function from a text to all that can be left of it after a match at its
start.
-/

namespace RestconfApi.Text

abbrev Pattern := List Char → List (List Char)

namespace Pattern

def char (p : Char → Bool) : Pattern
  | [] => []
  | c :: cs => if p c then [cs] else []

def lit (s : String) : Pattern := fun cs =>
  if s.toList.isPrefixOf cs then [cs.drop s.length] else []

/-- What is left after a match in any of some texts. -/
def after (a : Pattern) : List (List Char) → List (List Char)
  | [] => []
  | [cs] => a cs
  | cs :: rest => a cs ++ after a rest

def seq (a b : Pattern) : Pattern := fun cs => after b (a cs)

def alt (a b : Pattern) : Pattern := fun cs => a cs ++ b cs

def opt (a : Pattern) : Pattern := fun cs => cs :: a cs

/-- Up to `n` matches of `a` in a row. -/
def upTo (a : Pattern) : Nat → Pattern
  | 0, cs => [cs]
  | n + 1, cs => cs :: after (upTo a n) (a cs)

/-- Any number of matches; each takes at least one character. -/
def many (a : Pattern) : Pattern := fun cs => upTo a cs.length cs

def some (a : Pattern) : Pattern := seq a (many a)

def all : List Pattern → Pattern
  | [] => fun cs => [cs]
  | a :: as => seq a (all as)

def any : List Pattern → Pattern
  | [] => fun _ => []
  | a :: as => alt a (any as)

/-- Whether a text as a whole matches. -/
def accepts (a : Pattern) (s : String) : Bool := (a s.toList).any (·.isEmpty)

end Pattern

end RestconfApi.Text
