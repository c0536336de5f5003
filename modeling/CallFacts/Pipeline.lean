import CallFacts.Listing
import CallFacts.Observed
import CallFacts.Render
import CallFacts.Report

/-!
# From a listing to a report

The architecture is taken from the listing, the listing is read, the names of the registers to follow
are resolved, and the program is analyzed.
-/

namespace CallFacts

/-- Why there is no report. -/
inductive PipelineError where
  | file (reason : String)
  | listing (error : Listing.Error)
  | unknownRegister (arch : Arch) (name : String)
  /-- The limit on visits does not fit a word, in a build that stops at that. -/
  | overflow
  | observed (error : Observed.Error)
deriving DecidableEq, Repr

def PipelineError.message : PipelineError → String
  | file reason => "IO error: " ++ reason
  | listing error => "listing error: " ++ error.message
  | unknownRegister arch name => "unknown " ++ arch.name ++ " register `" ++ name ++ "`"
  | overflow => "attempt to multiply with overflow"
  | observed error => error.message

/-- Whether the error stops the program, which then has nothing more to say. -/
def PipelineError.isAbort : PipelineError → Bool
  | listing error => error.isAbort
  | overflow => true
  | _ => false

namespace Pipeline

/-- The registers of a list of names; blanks around a name do not count. -/
def resolveRegisters (arch : Arch) (names : List String) : Except PipelineError RegisterSet := do
  let registers ← names.mapM fun name =>
    match arch.register? (Text.trim name.toList) with
    | some view => .ok view.register
    | none => .error (.unknownRegister arch name)
  return .ofList registers

/-- The configuration that follows the named registers, or as it is if none is named. -/
def configFor (arch : Arch) (c : Config) (tracked : List String) : Except PipelineError Config :=
  if tracked.isEmpty then .ok c
  else (resolveRegisters arch tracked).map fun registers => { c with tracked := some registers }

/-- The report on a program, unless the build stops at one of its functions. -/
def analyze (overflow : Overflow) (p : Program) (c : Config) : Except PipelineError Report :=
  match p.analyzeIn overflow c with
  | some report => .ok report
  | none => .error .overflow

/-- The architecture of a listing and the report on its program. -/
def run (overflow : Overflow) (c : Config) (tracked : List String) (text : List Char) :
    Except PipelineError (Arch × Report) := do
  let arch ← (Listing.detectArch text).mapError .listing
  let program ← (Listing.read arch text).mapError .listing
  let config ← configFor arch c tracked
  let report ← analyze overflow program config
  return (arch, report)

end Pipeline

end CallFacts
