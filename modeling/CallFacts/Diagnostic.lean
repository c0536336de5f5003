import CallFacts.FlowGraph

/-!
# Diagnostics

What an analysis reports besides facts: weak spots of a function that was analyzed, addresses on which
functions disagree, and functions that could not be analyzed at all.
-/

namespace CallFacts

/-- Why a function could not be analyzed. -/
inductive AnalysisError where
  | malformed (function : String) (fault : FlowGraph.Fault)
  /-- A block was visited more often than the limit allows. -/
  | diverged (function : String) (block : BlockId) (visits limit : Nat)
deriving DecidableEq, Repr

namespace AnalysisError

def function : AnalysisError → String
  | malformed function _ => function
  | diverged function _ _ _ => function

def message : AnalysisError → String
  | malformed function fault => "malformed CFG in `" ++ function ++ "`: " ++ fault.message
  | diverged function block visits limit =>
    "`" ++ function ++ "` did not stabilize: " ++ block.text ++ " visited " ++ Text.decimal visits ++
      " times (limit " ++ Text.decimal limit ++ ")"

end AnalysisError

/-- How serious a diagnostic is. -/
inductive Severity where
  | warning
  | error
deriving DecidableEq, Repr

/-- What a diagnostic says. -/
inductive Finding where
  /-- The instruction is not understood; what it may write is unknown after it. -/
  | decodeGap (address : Word) (mnemonic : String)
  /-- No path leads from the entry to the block. -/
  | unreachable (block : BlockId) (address : Word)
  /-- Different exact values were found at one address. -/
  | aliasConflict (address : Word) (register : Register) (values : List Word)
  /-- The function could not be analyzed and gives no facts. -/
  | failed (error : AnalysisError)
deriving DecidableEq, Repr

/-- Only a function that could not be analyzed is an error. -/
def Finding.severity : Finding → Severity
  | failed _ => .error
  | _ => .warning

/-- A finding about a function. -/
structure Diagnostic where
  function : String
  finding : Finding
deriving DecidableEq, Repr

namespace Diagnostic

def severity (d : Diagnostic) : Severity := d.finding.severity

def message (d : Diagnostic) : String :=
  match d.finding with
  | .decodeGap address mnemonic =>
    d.function ++ ": unmodeled instruction `" ++ mnemonic ++ "` at " ++ Text.hex address
  | .unreachable block address =>
    d.function ++ ": " ++ block.text ++ " at " ++ Text.hex address ++ " is unreachable"
  | .aliasConflict address register values =>
    d.function ++ ": conflicting values for " ++ register.label ++ " at " ++ Text.hex address ++ ":" ++
      String.join (values.map fun v => " " ++ Text.hex v)
  | .failed error => error.message

end Diagnostic

end CallFacts
