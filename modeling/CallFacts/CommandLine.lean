import CallFacts.Pipeline

/-!
# The command line

The arguments choose a command and its options; the command reads its files and answers with an exit
code and what goes to the two output streams. Arguments that make no sense are a usage error.
-/

namespace CallFacts.CommandLine

/-- The options of both commands. -/
structure Options where
  tracked : List String
  callPolicy : CallPolicy
  observe : ObservationPoints
  visitMultiplier : Word
  /-- Whether the functions are analyzed one after the other. -/
  sequential : Bool
deriving DecidableEq, Repr

def Options.config (o : Options) : Config where
  callPolicy := o.callPolicy
  observe := o.observe
  visitMultiplier := o.visitMultiplier
  parallel := !o.sequential

/-- What is to be done. -/
inductive Command where
  /-- Write the facts of a listing. -/
  | analyze (listing : String) (format : OutputFormat) (options : Options)
  /-- Compare the facts of a listing with observed values. -/
  | verify (listing observed : String) (options : Options)
deriving DecidableEq, Repr

def Command.files : Command → List String
  | analyze listing _ _ => [listing]
  | verify listing observed _ => [listing, observed]

/-- What the arguments ask for. -/
inductive Request where
  | command (silent : Bool) (command : Command)
  | version
  | help
deriving DecidableEq, Repr

/-! ### Reading the arguments -/

/-- The flags that may stand before or behind the name of the command. At each place one flag may be
given once, and not both. -/
structure Flags where
  verbose : Bool
  silent : Bool
deriving DecidableEq, Repr

namespace Flags

def none : Flags := ⟨false, false⟩

def setVerbose? (f : Flags) : Option Flags := if f.verbose then .none else some { f with verbose := true }

def setSilent? (f : Flags) : Option Flags := if f.silent then .none else some { f with silent := true }

def conflict (f : Flags) : Bool := f.verbose && f.silent

end Flags

/-- What an argument is, by its form. -/
inductive Argument where
  /-- Two hyphens: no options follow. -/
  | separator
  | long (name : String) (value : Option String)
  | short (letters : List Char)
  | word (text : String)
deriving DecidableEq, Repr

def Argument.ofText (text : String) : Argument :=
  match text.toList with
  | ['-', '-'] => separator
  | '-' :: '-' :: rest =>
    match Text.cutFirst '=' rest with
    | some (name, value) => long (String.ofList name) (some (String.ofList value))
    | none => long (String.ofList rest) none
  | '-' :: c :: rest => short (c :: rest)
  | _ => word text

/-- The flags after a cluster of letters, or an early answer. The version is asked for only before
the command. -/
def readLetters? (allowVersion : Bool) : Flags → List Char → Option (Flags ⊕ Request)
  | flags, [] => some (.inl flags)
  | flags, 'v' :: rest => flags.setVerbose?.bind fun flags => readLetters? allowVersion flags rest
  | flags, 's' :: rest => flags.setSilent?.bind fun flags => readLetters? allowVersion flags rest
  | _, 'h' :: _ => some (.inr .help)
  | _, 'V' :: _ => if allowVersion then some (.inr .version) else none
  | _, _ => none

/-- The arguments behind the name of a command, as far as they have been read. -/
structure Draft where
  flags : Flags
  tracked : List String
  callPolicy : Option CallPolicy
  observe : Option ObservationPoints
  visitMultiplier : Option Word
  format : Option OutputFormat
  sequential : Bool
  words : List String
deriving DecidableEq, Repr

namespace Draft

def empty : Draft := ⟨.none, [], none, none, none, none, false, []⟩

/-- A value for an option that may be given once. -/
def once? {α : Type} (old : Option α) (new : Option α) : Option (Option α) :=
  match old, new with
  | none, some value => some (some value)
  | _, _ => none

def format? : String → Option OutputFormat
  | "relation" => some .relation
  | "comments" => some .comments
  | "table" => some .table
  | _ => none

def callPolicy? : String → Option CallPolicy
  | "preserve" => some .preserve
  | "clobber-caller-saved" => some .clobberCallerSaved
  | "clobber-all" => some .clobberAll
  | _ => none

def observationPoints? : String → Option ObservationPoints
  | "call-sites" => some .callSites
  | "block-exits" => some .blockExits
  | _ => none

def names (value : String) : List String := (value.toList.splitOn ',').map String.ofList

/-- Whether an option takes a value; only one command has a format. -/
def takesValue (hasFormat : Bool) (name : String) : Bool :=
  name ∈ ["tracked", "call-policy", "observe", "visit-limit"] || (hasFormat && name == "format")

def setOption? (d : Draft) (name value : String) : Option Draft :=
  match name with
  | "tracked" => some { d with tracked := d.tracked ++ names value }
  | "call-policy" => (once? d.callPolicy (callPolicy? value)).map fun v => { d with callPolicy := v }
  | "observe" => (once? d.observe (observationPoints? value)).map fun v => { d with observe := v }
  | "visit-limit" =>
    (once? d.visitMultiplier (Text.unsignedWord? 10 value.toList)).map fun v => { d with visitMultiplier := v }
  | "format" => (once? d.format (format? value)).map fun v => { d with format := v }
  | _ => none

/-- The draft with a flag that has a long name, or an early answer. -/
def setFlag? (d : Draft) : String → Option (Draft ⊕ Request)
  | "verbose" => d.flags.setVerbose?.map fun flags => .inl { d with flags }
  | "silent" => d.flags.setSilent?.map fun flags => .inl { d with flags }
  | "sequential" => if d.sequential then none else some (.inl { d with sequential := true })
  | "help" => some (.inr .help)
  | _ => none

def read? (hasFormat : Bool) : Draft → List String → Option (Draft ⊕ Request)
  | d, [] => some (.inl d)
  | d, argument :: rest =>
    match Argument.ofText argument with
    -- Whatever follows is a word, whatever it looks like.
    | .separator => some (.inl { d with words := d.words ++ rest })
    | .word text => read? hasFormat { d with words := d.words ++ [text] } rest
    | .short letters =>
      match readLetters? false d.flags letters with
      | some (.inl flags) => read? hasFormat { d with flags } rest
      | some (.inr request) => some (.inr request)
      | none => none
    | .long name value =>
      if takesValue hasFormat name then
        match value, rest with
        | some value, rest => (d.setOption? name value).bind fun d => read? hasFormat d rest
        | none, next :: rest =>
          -- A value that looks like an option needs the form with an equals sign.
          match Argument.ofText next with
          | .word value => (d.setOption? name value).bind fun d => read? hasFormat d rest
          | _ => none
        | none, [] => none
      else
        match value, d.setFlag? name with
        | none, some (.inl d) => read? hasFormat d rest
        | none, some (.inr request) => some (.inr request)
        | _, _ => none

def options (d : Draft) : Options where
  tracked := d.tracked
  callPolicy := d.callPolicy.getD .clobberCallerSaved
  observe := d.observe.getD .callSites
  visitMultiplier := d.visitMultiplier.getD 2
  sequential := d.sequential

def analyze? (d : Draft) : Option Command :=
  match d.words with
  | [listing] => if listing = "" then none else some (.analyze listing (d.format.getD .relation) d.options)
  | _ => none

def verify? (d : Draft) : Option Command :=
  match d.words with
  | [listing, observed] => if listing = "" ∨ observed = "" then none else some (.verify listing observed d.options)
  | _ => none

end Draft

/-- Reads the arguments of a command whose name stands behind the given flags. -/
def readCommand? (flags : Flags) (hasFormat : Bool) (command? : Draft → Option Command) (arguments : List String) :
    Option Request :=
  match Draft.empty.read? hasFormat arguments with
  | none => none
  | some (.inr request) => some request
  | some (.inl d) =>
    if d.flags.conflict || flags.conflict then none
    else (command? d).map fun command => .command (flags.silent || d.flags.silent) command

def read? : Flags → List String → Option Request
  | _, [] => none
  | flags, argument :: rest =>
    match Argument.ofText argument with
    | .separator => none
    | .word "analyze" => readCommand? flags true Draft.analyze? rest
    | .word "verify" => readCommand? flags false Draft.verify? rest
    | .word "help" => some .help
    | .word _ => none
    | .short letters =>
      match readLetters? true flags letters with
      | some (.inl flags) => read? flags rest
      | some (.inr request) => some request
      | none => none
    | .long "verbose" none => flags.setVerbose?.bind fun flags => read? flags rest
    | .long "silent" none => flags.setSilent?.bind fun flags => read? flags rest
    | .long "version" none => some .version
    | .long "help" none => some .help
    | .long _ _ => none

/-! ### Running a command -/

/-- What is said about a file that does not exist. -/
def noSuchFile : String := "No such file or directory (os error 2)"

/-- What a command leaves behind. -/
structure Outcome where
  exitCode : Nat
  output : String
  messages : List String
deriving DecidableEq, Repr

def success (message : String) : String := "✓ " ++ message

def failure (message : String) : String := "✗ " ++ message

def diagnosticMessage (d : Diagnostic) : String :=
  match d.severity with
  | .warning => "! " ++ d.message
  | .error => failure d.message

/-- The outcome of a command that could not do its work. -/
def Outcome.failed (error : PipelineError) : Outcome := ⟨1, "", [failure error.message]⟩

/-- The architecture and the report of a listing file. -/
def analyzeFile (overflow : Overflow) (readFile : String → Except String String) (listing : String) (o : Options) :
    Except PipelineError (Arch × Report) := do
  let text ← (readFile listing).mapError .file
  Pipeline.run overflow o.config o.tracked text.toList

/-- The outcome of writing facts. A silent command writes only errors beside them. -/
def analyzeOutcome (silent : Bool) (format : OutputFormat) (arch : Arch) (report : Report) : Outcome :=
  let diagnostics := if silent then report.errors else report.diagnostics
  let summary :=
    Text.decimal report.facts.size ++ " facts from " ++ Text.decimal (report.analyzed + report.failed : Nat) ++
      " functions (" ++ Text.decimal report.failed ++ " failed)"
  ⟨0, report.facts.render arch format, diagnostics.map diagnosticMessage ++ if silent then [] else [summary]⟩

/-- The message about an observed value that contradicts a fact. -/
def mismatchMessage (arch : Arch) (o : Observed) (f : Fact) : String :=
  failure (Text.hex o.site.address ++ ": " ++ arch.registerName o.site.register ++ " observed " ++
    Text.decimal o.value.toNat ++ " but inferred " ++ Text.decimal f.signed)

def verifyOutcome (arch : Arch) (v : Verification) : Outcome :=
  let summary :=
    Text.decimal v.matched.length ++ " matched, " ++ Text.decimal v.mismatched.length ++ " mismatched, " ++
      Text.decimal v.missing.length ++ " without a fact"
  let mismatches := v.mismatched.map fun (o, f) => mismatchMessage arch o f
  if v.isSound then ⟨0, "", mismatches ++ [success summary]⟩ else ⟨1, "", mismatches ++ [failure summary]⟩

def observedFile (readFile : String → Except String String) (arch : Arch) (observed : String) :
    Except PipelineError (List Observed) := do
  let text ← (readFile observed).mapError .file
  (Observed.readAll arch text.toList).mapError .observed

/-- The outcome of a command, where files are read by the given function. -/
def Command.run (overflow : Overflow) (readFile : String → Except String String) (silent : Bool) :
    Command → Except PipelineError Outcome
  | .analyze listing format o => do
    let (arch, report) ← analyzeFile overflow readFile listing o
    return analyzeOutcome silent format arch report
  | .verify listing observed o => do
    let (arch, report) ← analyzeFile overflow readFile listing o
    let os ← observedFile readFile arch observed
    return verifyOutcome arch (.ofObserved report.facts os)

def versionText : String := "regval 0.1.0\n"

def usageText : String :=
  "Usage: regval [-v|-s] analyze <LISTING> [--format <relation|comments|table>] [OPTIONS]\n" ++
  "       regval [-v|-s] verify <LISTING> <OBSERVED> [OPTIONS]\n" ++
  "Options: --tracked <REGISTERS> --call-policy <preserve|clobber-caller-saved|clobber-all>\n" ++
  "         --observe <call-sites|block-exits> --visit-limit <N> --sequential\n"

/-- The outcome of a request. Only an error that stops the program leaves none. -/
def Request.run (overflow : Overflow) (readFile : String → Except String String) :
    Request → Except PipelineError Outcome
  | .version => .ok ⟨0, versionText, []⟩
  | .help => .ok ⟨0, usageText, []⟩
  | .command silent chosen =>
    match chosen.run overflow readFile silent with
    | .ok outcome => .ok outcome
    | .error error => if error.isAbort then .error error else .ok (.failed error)

def run (overflow : Overflow) (readFile : String → Except String String) (arguments : List String) :
    Except PipelineError Outcome :=
  match read? .none arguments with
  | some request => request.run overflow readFile
  | none => .ok ⟨2, "", []⟩

end CallFacts.CommandLine
