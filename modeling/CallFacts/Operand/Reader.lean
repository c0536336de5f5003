import CallFacts.Operand
import CallFacts.Text.Blank

/-!
# Reading operands

An operand text is cut at the commas outside all brackets. Each piece loses what follows its first
`<` (a symbol's name) and is read by its first character. Only broken brackets and empty pieces are
refused; a piece that is no known operand is kept as text.
-/

namespace CallFacts.Operand

def isOpening (c : Char) : Bool := c == '[' || c == '{'

def isClosing (c : Char) : Bool := c == ']' || c == '}'

/-- The pieces between the commas outside all brackets, inside `depth` brackets at the start. A
closing bracket too many or too few leaves no pieces; the two kinds of bracket are not told apart.
The depth is not bounded: it differs from one counted in 32 bits with a sign only on texts in which
`2 ^ 31` brackets are open at once. -/
def split? : Nat → List Char → Option (List (List Char))
  | 0, [] => some [[]]
  | _ + 1, [] => none
  | depth, c :: text =>
    if isOpening c then (split? (depth + 1) text).map (List.modifyHead (c :: ·))
    else if isClosing c then
      match depth with
      | 0 => none
      | outer + 1 => (split? outer text).map (List.modifyHead (c :: ·))
    else if c = ',' ∧ depth = 0 then (split? 0 text).map ([] :: ·)
    else (split? depth text).map (List.modifyHead (c :: ·))

/-- A memory reference without its opening bracket. -/
def readMemory? (arch : Arch) (text : List Char) : Option Operand :=
  (Text.cutLast ']' text).map fun (inner, after) =>
    memory (arch.register? (Text.trim (inner.takeWhile (· != ',')))) (Text.trim after == ['!'])

/-- The registers that one item of a register list adds: none for a blank item, a single register or
an ascending range. -/
def readListItem? (arch : Arch) (item : List Char) : Option RegisterSet :=
  let item := Text.trim item
  if item.isEmpty then some ∅
  else
    match Text.cutFirst '-' item with
    | some (first, last) => do
      let first ← arch.register? (Text.trim first)
      let last ← arch.register? (Text.trim last)
      if first.register ≤ last.register then some (RegisterSet.range first.register last.register) else none
    | none => (arch.register? item).map fun view => RegisterSet.insert ∅ view.register

/-- The registers of a list, if every item names core registers. -/
def readList? (arch : Arch) (inner : List Char) : Option RegisterSet :=
  ((inner.splitOn ',').mapM (readListItem? arch)).map fun sets => sets.foldl (· ∪ ·) ∅

/-- A shift and its amount, which may be left out. -/
def readShift? (words : List (List Char)) : Option (Option Operand) :=
  match words with
  | [] => none
  | name :: rest =>
    (ShiftKind.ofName? (String.ofList name)).map fun kind =>
      match rest with
      | [] => some (shift kind 0)
      | amount :: _ =>
        let digits := if amount.head? = some '#' then amount.tail else amount
        match Text.immediate? digits with
        | some value => if value.toNat < 256 then some (shift kind value.toNat) else none
        | none => none

/-- A bare address: hexadecimal digits, with or without their mark. -/
def readTarget? (text : List Char) : Option Word :=
  let digits := (Text.dropStart? ['0', 'x'] text).getD text
  if digits.all fun c => (Text.digitValue? c).isSome then Text.unsignedWord? 16 digits else none

/-- A piece in lower case that starts with no bracket and no `#`. -/
def readWord? (arch : Arch) (text : List Char) : Option Operand :=
  match readShift? (Text.words text) with
  -- A shift whose amount cannot be read is no other kind of operand.
  | some operand => operand
  | none =>
    match (Text.dropEnd? ['!'] text).bind arch.register? with
    | some view => some (writeback view)
    | none =>
      match arch.register? text with
      | some view => some (register view)
      | none =>
        if arch.isZeroRegister text then some (zero (if text.head? = some 'w' then 32 else 64))
        -- Register names come first, so only what is none of them can be an address.
        else (readTarget? text).map target

def readPiece (arch : Arch) (piece : List Char) : Except OperandError Operand :=
  let text := Text.trim (piece.takeWhile (· != '<'))
  let orText (read : Option Operand) : Operand := read.getD (other (String.ofList text))
  match text with
  | [] => .error .empty
  | '[' :: rest =>
    match readMemory? arch rest with
    | some operand => .ok operand
    | none => .error (.unbalanced (String.ofList text))
  | '{' :: rest =>
    match Text.cutLast '}' rest with
    | some (inner, _) => .ok (orText ((readList? arch inner).map registerList))
    | none => .error (.unbalanced (String.ofList text))
  | '#' :: rest => .ok (orText ((Text.immediate? (Text.trim rest)).map immediate))
  | _ => .ok (orText (readWord? arch (Text.lower text)))

def readAll (arch : Arch) (text : List Char) : Except OperandError (List Operand) :=
  let text := Text.trim text
  if text.isEmpty then .ok []
  else
    match split? 0 text with
    | some pieces => pieces.mapM (readPiece arch)
    | none => .error (.unbalanced (String.ofList text))

end CallFacts.Operand
