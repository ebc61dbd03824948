import RestconfApi.Text.Pattern

/-!
# YAML: implicit types

The type that a plain scalar has by its form alone, after the rules of YAML 1.1: words for truth and
nothing, whole numbers to the bases 2, 8, 10, 16 and 60, floating point numbers, dates and times.
-/

namespace RestconfApi.Yaml

inductive Implicit where
  | text
  | bool
  | float
  | int
  | merge
  | null
  | timestamp
  | value
  | indicator
deriving DecidableEq, Repr

open Text (Pattern)
open Text.Pattern

def digit : Pattern := char fun c => '0' ≤ c && c ≤ '9'

def spacedDigit : Pattern := char fun c => ('0' ≤ c && c ≤ '9') || c = '_'

def sign : Pattern := opt (char fun c => c = '-' || c = '+')

def exponent : Pattern :=
  all [char fun c => c = 'e' || c = 'E', char fun c => c = '-' || c = '+', some digit]

/-- Further places of a number to the base 60. -/
def sixtieths : Pattern := some (all [lit ":", opt (char fun c => '0' ≤ c && c ≤ '5'), digit])

def boolForm : Pattern :=
  any (["yes", "Yes", "YES", "no", "No", "NO", "true", "True", "TRUE", "false", "False", "FALSE",
    "on", "On", "ON", "off", "Off", "OFF"].map lit)

def floatForm : Pattern :=
  any [
    all [sign, digit, many spacedDigit, lit ".", many spacedDigit, opt exponent],
    all [lit ".", digit, many spacedDigit, opt exponent],
    all [sign, digit, many spacedDigit, sixtieths, lit ".", many spacedDigit],
    all [sign, any [lit ".inf", lit ".Inf", lit ".INF"]],
    any [lit ".nan", lit ".NaN", lit ".NAN"]]

def intForm : Pattern :=
  all [sign, any [
    all [lit "0b", some (char fun c => c = '0' || c = '1' || c = '_')],
    all [lit "0", some (char fun c => ('0' ≤ c && c ≤ '7') || c = '_')],
    lit "0",
    all [char fun c => '1' ≤ c && c ≤ '9', many spacedDigit],
    all [lit "0x", some (char fun c => ('0' ≤ c && c ≤ '9') || ('a' ≤ c && c ≤ 'f') ||
      ('A' ≤ c && c ≤ 'F') || c = '_')],
    all [char fun c => '1' ≤ c && c ≤ '9', many spacedDigit, sixtieths]]]

def nullForm : Pattern := any [lit "~", lit "null", lit "Null", lit "NULL", lit ""]

def blank : Pattern := char fun c => c = ' ' || c = '\t'

def dateForm : Pattern :=
  all [digit, digit, digit, digit, lit "-", digit, digit, lit "-", digit, digit]

def timeForm : Pattern :=
  all [digit, digit, digit, digit, lit "-", digit, opt digit, lit "-", digit, opt digit,
    any [lit "T", lit "t", some blank],
    digit, opt digit, lit ":", digit, digit, lit ":", digit, digit,
    opt (all [lit ".", many digit]),
    opt (all [many blank, any [lit "Z",
      all [char fun c => c = '-' || c = '+', digit, opt digit, opt (all [lit ":", digit, digit])]]])]

/-- A text without a line feed at its end, unless it is nothing else. -/
def withoutBreak (s : String) : String :=
  match s.toList.reverse with
  | '\n' :: c :: cs => String.ofList (c :: cs).reverse
  | _ => s

/-- The type of a scalar by its form. A line feed at its end does not count. -/
def implicit (s : String) : Implicit :=
  let s := withoutBreak s
  if boolForm.accepts s then .bool
  else if floatForm.accepts s then .float
  else if intForm.accepts s then .int
  else if s = "<<" then .merge
  else if nullForm.accepts s then .null
  else if dateForm.accepts s || timeForm.accepts s then .timestamp
  else if s = "=" then .value
  else if s = "!" || s = "&" || s = "*" then .indicator
  else .text

end RestconfApi.Yaml
