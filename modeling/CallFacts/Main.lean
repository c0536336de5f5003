import CallFacts.CommandLine

/-!
# The program

Reads the files that the arguments name, runs the command and prints what it leaves behind. It is a build that
stops where a product does not fit a word.
-/

open CallFacts

/-- What the operating system says about a file that cannot be read. -/
def fileErrorText : IO.Error → String
  | .noFileOrDirectory .. => CommandLine.noSuchFile
  | .permissionDenied .. => "Permission denied (os error 13)"
  | error => toString error

/-- The content of a file, or why it cannot be read. -/
def readFileText (path : String) : IO (Except String String) := do
  match ← (IO.FS.readBinFile path).toBaseIO with
  | .error error => return .error (fileErrorText error)
  | .ok bytes =>
    match String.fromUTF8? bytes with
    | some text => return .ok text
    | none => return .error "stream did not contain valid UTF-8"

def readFiles (arguments : List String) : IO (List (String × Except String String)) :=
  match CommandLine.read? .none arguments with
  | some (.command _ command) => command.files.mapM fun path => return (path, ← readFileText path)
  | _ => return []

def lookUp (files : List (String × Except String String)) (path : String) : Except String String :=
  (files.lookup path).getD (.error CommandLine.noSuchFile)

def main (arguments : List String) : IO UInt32 := do
  let files ← readFiles arguments
  match CommandLine.run .stops (lookUp files) arguments with
  | .error error =>
    IO.eprintln error.message
    return 101
  | .ok outcome =>
    outcome.messages.forM IO.eprintln
    IO.print outcome.output
    if outcome.exitCode = 2 then IO.eprint CommandLine.usageText
    return UInt32.ofNat outcome.exitCode
