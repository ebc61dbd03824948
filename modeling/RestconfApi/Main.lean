import RestconfApi.CommandLine.Run

/-!
# The program

Reads the file that a command asks for, writes the one that its answer holds, and shows the rest. Log
records and complaints go to the error stream.
-/

namespace RestconfApi.CommandLine

/-- The fault of a path that the system refuses, if it is one that the library knows. -/
def fileFault? (p : FilePath) : IO.Error → Option FileFault
  | .noFileOrDirectory _ _ _ => some (.absent (Text.quoted p.text))
  | .invalidArgument _ 36 _ => some (.tooLong (Text.quoted p.text))
  | .inappropriateType _ code _ =>
    if code = 20 then some (.throughFile (Text.quoted p.text))
    else some (.directory (Text.quoted p.text))
  | _ => none

/-- Tries a step on a path, with the faults that the library knows as values. -/
def attempt {α : Type} (p : FilePath) (step : IO α) : IO (Except FileFault α) :=
  match p.fault? with
  | some fault => pure (.error fault)
  | none =>
    try Except.ok <$> step
    catch e =>
      match fileFault? p e with
      | some fault => pure (.error fault)
      | none => throw e

def readSource (p : FilePath) : IO (Except FileFault (List UInt8)) :=
  attempt p do
    let bytes ← IO.FS.readBinFile p.text
    pure bytes.toList

/-- Shows the records, the details among them only if a lot is to be reported. -/
def report (isVerbose : Bool) (records : List Record) : IO Unit :=
  records.forM fun r =>
    if isVerbose || Level.info.rank ≤ r.level.rank then IO.eprintln r.line else pure ()

def carryOut (a : Answer) : IO UInt32 := do
  match a.file with
  | none => pure ()
  | some (p, text) =>
    match ← attempt p (IO.FS.writeFile p.text text) with
    | .ok () => pure ()
    | .error fault => throw (IO.userError fault.message)
  IO.print a.shown
  pure a.code.toUInt32

def runStop (stop : Stop) : IO UInt32 := do
  match stop with
  | .help _ => pure ()
  | .misuse g _ => g.usageLines.forM IO.eprintln
  match stop.complaint? with
  | some complaint => IO.eprintln complaint
  | none => pure ()
  carryOut stop.answer

def runInvocation (i : Invocation) : IO UInt32 := do
  let content ←
    match i.command.source? with
    | some p => readSource p
    | none => pure (.ok [])
  let x := i.command.answer content
  report i.isVerbose x.records
  match x.result with
  | .ok a => carryOut a
  | .error e => throw (IO.userError e.message)

end RestconfApi.CommandLine

open RestconfApi.CommandLine in
def main (arguments : List String) : IO UInt32 :=
  match Invocation.ofArguments arguments with
  | .error stop => runStop stop
  | .ok i => runInvocation i
