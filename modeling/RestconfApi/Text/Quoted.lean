import RestconfApi.Text.CodePoint
import RestconfApi.Text.Printable

/-!
# Text: quoted literals

A text in quotes as messages show it: single quotes unless the text holds a single quote and no
double one, a backslash before backslashes and the quote, and escapes for what is not printable.
-/

namespace RestconfApi.Text

/-- `n` in base 16 with at least `width` digits. -/
def hex (width n : Nat) : String :=
  let digits := Nat.toDigits 16 n
  String.ofList (List.replicate (width - digits.length) '0' ++ digits)

def quoteChar (s : List Char) : Char := if s.contains '\'' && !s.contains '"' then '"' else '\''

/-- One character inside a literal quoted with `quote`. -/
def escapeChar (quote c : Char) : String :=
  if c = quote || c = '\\' then String.ofList ['\\', c]
  else if c = '\t' then "\\t"
  else if c = '\n' then "\\n"
  else if c = '\r' then "\\r"
  else if isPrintable c then String.ofList [c]
  else if code c < 0x100 then "\\x" ++ hex 2 (code c)
  else if code c < 0x10000 then "\\u" ++ hex 4 (code c)
  else "\\U" ++ hex 8 (code c)

def quoted (s : String) : String :=
  let quote := quoteChar s.toList
  let mark := String.ofList [quote]
  mark ++ String.join (s.toList.map (escapeChar quote)) ++ mark

end RestconfApi.Text
