import CallFacts.Text.Blank
import CallFacts.Text.CharClass
import CallFacts.Text.Lines
import CallFacts.Text.Numeral

/-!
# The lines of a listing

A line that is blank or starts with `#` means nothing. A line that starts with a blank is an
instruction; any other is a directive, which is a list of words. Reading a line only finds its parts;
what they mean is settled where the program is built.
-/

namespace CallFacts.Listing

/-- The parts of a line. -/
inductive Line where
  | arch (name : String)
  | function (name : String) (assignments : List (List Char))
  | block (label : String) (isEntry : Bool)
  | edge (source target kind : String)
  | instruction (address : List Char) (size : Option (List Char)) (mnemonic operands : List Char)
deriving DecidableEq, Repr

namespace Line

/-- Whether a word is an assignment: an equals sign with something on both sides. -/
def isAssignment (word : List Char) : Bool := word.tail.dropLast.contains '='

def ofWords? : List (List Char) → Option Line
  | [] => none
  | keyword :: arguments =>
    match String.ofList keyword, arguments with
    | "arch", [name] => some (arch (String.ofList name))
    | "function", name :: assignments =>
      if assignments.all isAssignment then some (function (String.ofList name) assignments) else none
    | "block", [label] => some (block (String.ofList label) false)
    | "block", [label, flag] =>
      if String.ofList flag = "entry" then some (block (String.ofList label) true) else none
    | "edge", [source, target, kind] =>
      some (edge (String.ofList source) (String.ofList target) (String.ofList kind))
    | _, _ => none

/-- The text behind at least one blank, without leading blanks. -/
def afterBlank? : List Char → Option (List Char)
  | [] => none
  | c :: text => if Text.isBlank c then some (Text.trimStart text) else none

/-- The mnemonic at the start of a text and the operands behind it. -/
def mnemonicAndOperands? : List Char → Option (List Char × List Char)
  | [] => none
  | c :: text =>
    if c.isAlpha then
      let mnemonic := c :: text.takeWhile fun c => Text.isWordChar c || c == '.'
      let rest := text.dropWhile fun c => Text.isWordChar c || c == '.'
      if rest.isEmpty || (afterBlank? rest).isSome then some (mnemonic, Text.trim rest) else none
    else none

/-- The size of one or two digits at the start of a text, if there are digits, and what follows. -/
def sizeAndRest? (text : List Char) : Option (Option (List Char) × List Char) :=
  let size := text.takeWhile Text.isDecimalDigit
  if size.isEmpty then some (none, text)
  else if size.length ≤ 2 then
    (afterBlank? (text.dropWhile Text.isDecimalDigit)).map fun rest => (some size, rest)
  else none

/-- An instruction line: an address in hexadecimal, perhaps marked and perhaps with a colon; perhaps a
size; a mnemonic; and operands. -/
def instruction? (text : List Char) : Option Line := do
  let text := Text.trimStart text
  let text := (Text.dropStart? ['0', 'x'] text).getD text
  let isHexDigit (c : Char) : Bool := (Text.digitValue? c).isSome
  let address := text.takeWhile isHexDigit
  if address.isEmpty then none
  let rest := text.dropWhile isHexDigit
  let rest ← afterBlank? (if rest.head? = some ':' then rest.tail else rest)
  let (size, rest) ← sizeAndRest? rest
  let (mnemonic, operands) ← mnemonicAndOperands? rest
  return instruction address size mnemonic operands

/-- The parts of a line that means something, if it has one of the forms. -/
def read? (text : List Char) : Option Line :=
  if (afterBlank? text).isSome then instruction? text else ofWords? (Text.words text)

end Line

def isIdle (line : List Char) : Bool :=
  let text := Text.trim line
  text.isEmpty || text.head? = some '#'

/-- The lines of a text that mean something, with their numbers from one. -/
def numberedLines (text : List Char) : List (Nat × List Char) :=
  ((Text.lines text).zipIdx 1).filterMap fun (line, number) => if isIdle line then none else some (number, line)

end CallFacts.Listing
