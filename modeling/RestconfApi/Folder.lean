import RestconfApi.Entries
import RestconfApi.Failure
import RestconfApi.Text.Quoted

/-!
# Files in a folder

Paths in their plain form, and a folder with the files in it and below it. What is above the folder is
unknown: a path that leads there finds a folder without files.
-/

namespace RestconfApi

/-- A path: the slashes that it starts with if it starts at the root, and the names after them. -/
structure FilePath where
  root : String
  names : List String
deriving DecidableEq, Repr

namespace FilePath

/-- The root that a number of slashes means: two of them are a root of their own. -/
def rootOf (slashes : Nat) : String :=
  if slashes = 0 then "" else if slashes = 2 then "//" else "/"

/-- The path that a text writes, without the names that lead nowhere. -/
def ofText (s : String) : FilePath :=
  { root := rootOf (s.toList.takeWhile (· = '/')).length
    names := (Text.pieces '/' s).filter fun name => name ≠ "" && name ≠ "." }

/-- The path as a text; a single dot for the folder itself. -/
def text (p : FilePath) : String :=
  let written := p.root ++ Text.join "/" p.names
  if written = "" then "." else written

/-- What is wrong with a path wherever it leads: it has a character that no path has, or more than 4095
bytes. -/
def fault? (p : FilePath) : Option FileFault :=
  if p.text.toList.contains '\x00' then some .holdsNul
  else if 4095 < p.text.utf8ByteSize then some (.tooLong (Text.quoted p.text))
  else none

/-- The most bytes of a name. -/
def maxName : Nat := 255

end FilePath

/-- The files by the names on the way to them. -/
structure Folder where
  files : Entries (List String) (List UInt8) := []

namespace Folder

variable (f : Folder)

/-- Whether there is a folder at the names: the folder itself or one on the way to a file. -/
def isFolder (names : List String) : Bool :=
  names.isEmpty || f.files.any fun (found, _) => names.isPrefixOf found && names ≠ found

/-- Where a path leads: above the folder, or to names below it. -/
inductive Spot where
  | above
  | below (names : List String)
deriving DecidableEq, Repr

/-- Goes on from a spot by the names; `literal` is the path as messages show it. The last name need not
be there. -/
def walk (literal : String) : Spot → List String → Except FileFault Spot
  | spot, [] => .ok spot
  | .above, name :: names =>
    if name = ".." then walk literal .above names
    else if FilePath.maxName < name.utf8ByteSize then .error (.tooLong literal)
    else .error (.absent literal)
  | .below found, name :: names =>
    if (f.files.get? found).isSome then .error (.throughFile literal)
    else if !f.isFolder found then .error (.absent literal)
    else if FilePath.maxName < name.utf8ByteSize then .error (.tooLong literal)
    else if name ≠ ".." then walk literal (.below (found ++ [name])) names
    else if found.isEmpty then walk literal .above names
    else walk literal (.below found.dropLast) names

/-- The names that a path leads to, which are not those of a folder. -/
def find (p : FilePath) : Except FileFault (List String) := do
  let literal := Text.quoted p.text
  p.fault?.forM throw
  match ← f.walk literal (if p.root = "" then .below [] else .above) p.names with
  | .above => .error (.directory literal)
  | .below names => if f.isFolder names then .error (.directory literal) else .ok names

def read (p : FilePath) : Except FileFault (List UInt8) := do
  let names ← f.find p
  match f.files.get? names with
  | some bytes => .ok bytes
  | none => .error (.absent (Text.quoted p.text))

/-- Writes a file anew, in a folder that is there. -/
def write (p : FilePath) (bytes : List UInt8) : Except FileFault Folder := do
  let names ← f.find p
  .ok ⟨f.files.put names bytes⟩

end Folder

end RestconfApi
