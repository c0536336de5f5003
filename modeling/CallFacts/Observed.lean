import CallFacts.Arch
import CallFacts.Fact
import CallFacts.Text.Blank
import CallFacts.Text.CharClass
import CallFacts.Text.Lines

/-!
# Observed register values

Values seen while a program ran, one on a line as address, register and value, are compared with the
facts. Both are read in two's complement at the width of the fact.
-/

namespace CallFacts

/-- A register content seen at a normalized address. -/
structure Observed where
  site : Site
  /-- The whole register. -/
  value : Word
deriving DecidableEq, Repr

namespace Observed

/-- What can be wrong with a line of observed values. -/
inductive Problem where
  | badLine (text : String)
  | badAddress (text : String)
  | unknownRegister (name : String)
  | badValue (text : String)
deriving DecidableEq, Repr

def Problem.message : Problem → String
  | badLine text => "expected `<addr> <reg> <value>`, got `" ++ text ++ "`"
  | badAddress text => "bad address `" ++ text ++ "`: number too large to fit in target type"
  | unknownRegister name => "unknown register `" ++ name ++ "`"
  | badValue text => "bad value `" ++ text ++ "`"

/-- A line that cannot be read. -/
structure Error where
  line : Nat
  problem : Problem
deriving DecidableEq, Repr

def Error.message (e : Error) : String :=
  "observed values line " ++ Text.decimal e.line ++ ": " ++ e.problem.message

/-- The hexadecimal digits of an address, perhaps behind their mark. -/
def addressDigits? (word : List Char) : Option (List Char) :=
  let digits := (Text.dropStart? ['0', 'x'] word).getD word
  if digits.isEmpty then none
  else if digits.all fun c => (Text.digitValue? c).isSome then some digits
  else none

/-- Whether a word has the form of a value: digits of any script or marked hexadecimal digits, perhaps
behind a minus sign. -/
def hasValueForm (word : List Char) : Bool :=
  let magnitude := if word.head? = some '-' then word.tail else word
  let isHex := match Text.dropHexMark? magnitude with
    | some digits => !digits.isEmpty && digits.all fun c => (Text.digitValue? c).isSome
    | none => false
  isHex || (!magnitude.isEmpty && magnitude.all Text.isDecimalDigit)

/-- The address digits, register name and value of a line. -/
def fields? (text : List Char) : Option (List Char × List Char × List Char) :=
  match Text.words text with
  | [address, register, value] =>
    match addressDigits? address with
    | some digits => if register.all Text.isWordChar && hasValueForm value then some (digits, register, value) else none
    | none => none
  | _ => none

def readLine (arch : Arch) (text : List Char) : Except Problem Observed :=
  match fields? text with
  | none => .error (.badLine (String.ofList (Text.trim text)))
  | some (digits, name, value) =>
    match Text.unsignedWord? 16 digits, arch.register? name, Text.value? value with
    -- The fields are looked at from left to right.
    | none, _, _ => .error (.badAddress (String.ofList digits))
    | some _, none, _ => .error (.unknownRegister (String.ofList name))
    | some _, some _, none => .error (.badValue (String.ofList value))
    | some address, some view, some value => .ok ⟨⟨arch.normalize address, view.register⟩, value⟩

/-- The observed values of a text. Lines that are blank or start with `#` mean nothing. -/
def readAll (arch : Arch) (text : List Char) : Except Error (List Observed) :=
  let meaningful := ((Text.lines text).zipIdx 1).filter fun (line, _) =>
    let content := Text.trim line
    !(content.isEmpty || content.head? = some '#')
  meaningful.mapM fun (line, number) => (readLine arch line).mapError fun problem => ⟨number, problem⟩

/-- Whether the value, cut to the width of a fact, reads like that of the fact. -/
def agrees (o : Observed) (f : Fact) : Bool :=
  let seen := { f with value := o.value &&& Word.mask f.bits }
  seen.signed = f.signed

end Observed

/-- Observed values sorted by what the facts say about them, each part in input order. -/
structure Verification where
  matched : List Observed
  mismatched : List (Observed × Fact)
  /-- There is no fact. -/
  missing : List Observed
deriving DecidableEq, Repr

namespace Verification

/-- The verification before the first observed value. -/
def empty : Verification := ⟨[], [], []⟩

/-- The verification with one more observed value behind those of its part, which the fact at its site decides. -/
def push (t : FactTable) (v : Verification) (o : Observed) : Verification :=
  match t.get? o.site with
  | none => { v with missing := v.missing ++ [o] }
  | some f =>
    if o.agrees f then { v with matched := v.matched ++ [o] }
    else { v with mismatched := v.mismatched ++ [(o, f)] }

/-- Compares each observed value with the fact at its site. -/
def ofObserved (t : FactTable) (os : List Observed) : Verification := os.foldl (push t) empty

/-- Whether no observed value contradicts a fact. -/
def isSound (v : Verification) : Bool := v.mismatched.isEmpty

/-- The fact that an observed value contradicts. -/
def contradicted? (t : FactTable) (o : Observed) : Option (Observed × Fact) :=
  match t.get? o.site with
  | some f => if o.agrees f then none else some (o, f)
  | none => none

theorem foldl_push (t : FactTable) (v : Verification) (os : List Observed) :
    os.foldl (push t) v =
      { matched := v.matched ++ os.filter fun o => (t.get? o.site).any o.agrees
        mismatched := v.mismatched ++ os.filterMap (contradicted? t)
        missing := v.missing ++ os.filter fun o => (t.get? o.site).isNone } := by
  -- The parts found so far differ from step to step.
  induction os generalizing v with
  | nil => simp
  | cons o os ih =>
    rw [List.foldl_cons, ih, push]
    cases hget : t.get? o.site with
    | none => simp [contradicted?, hget]
    | some f => by_cases hagrees : o.agrees f <;> simp [contradicted?, hget, hagrees]

/-- The parts of a verification are the values that agree, that contradict a fact and that have none. -/
theorem ofObserved_eq_filter (t : FactTable) (os : List Observed) :
    ofObserved t os =
      { matched := os.filter fun o => (t.get? o.site).any o.agrees
        mismatched := os.filterMap (contradicted? t)
        missing := os.filter fun o => (t.get? o.site).isNone } := by
  rw [ofObserved, foldl_push]
  rfl

end Verification

end CallFacts
