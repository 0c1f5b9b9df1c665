import UnitDispatch.CommandLine.Session

/-! # The program

Carries out a command line: reads the scenario, shows what the session shows and writes its file.
-/

namespace UnitDispatch.CommandLine

/-- The text of an error of the system; its number may come with a sign. -/
def textOfNumber (code : UInt32) (details : String) : String :=
  let n := min code.toNat (-code).toNat
  match FileError.ofNumber? n with
  | some e => e.text
  | none => FileError.numbered details n

/-- Why a file could not be reached. -/
def reasonOf (error : IO.Error) : String :=
  match error with
  | .noFileOrDirectory _ code details | .inappropriateType _ code details
  | .permissionDenied _ code details | .invalidArgument _ code details
  | .resourceExhausted _ code details | .alreadyExists _ code details
  | .noSuchThing _ code details | .otherError code details => textOfNumber code details
  | other => toString other

/-- Reads a file, or says why it cannot be read. -/
def readFile (path : String) : IO (Except String ByteArray) := do
  try return .ok (← IO.FS.readBinFile path)
  catch e => return .error (reasonOf e)

/-- Writes a file, or says why it cannot be written. -/
def writeFile (file : Export) : IO (Except String Unit) := do
  try
    IO.FS.writeFile file.path file.content
    return .ok ()
  catch e => return .error (reasonOf e)

/-- Goes through with a command line in the present folder, and gives its exit code. -/
def carryOut (words : List String) : IO UInt32 := do
  let content ← match Options.ofWords words with
    | .ok { scenario := some path, .. } => readFile path
    | _ => pure (.ok .empty)
  let s := session (fun _ => content) allocate words
  if let .finished out _ := s then IO.print out
  let written ← match s with
    | .finished _ (some file) => writeFile file
    | _ => pure (.ok ())
  let result := s.result written
  IO.eprint result.err
  return result.code.toUInt32

end UnitDispatch.CommandLine

def main (words : List String) : IO UInt32 := UnitDispatch.CommandLine.carryOut words
