import CallFacts.Arch
import CallFacts.Fact

/-!
# Writing facts

Facts are written as rows of a relation, as one comment line for each address, or as a table with
aligned columns.
-/

namespace CallFacts

/-- How facts are written. -/
inductive OutputFormat where
  | relation
  | comments
  | table
deriving DecidableEq, Repr

namespace Render

def line (text : String) : String := text ++ "\n"

/-- A row of the relation: address, register, source address, source register, factor and addend. An
exact value is `NONE` times zero plus the value. -/
def relationRow (arch : Arch) (f : Fact) : String :=
  "\t".intercalate
    [Text.hex f.site.address, arch.registerName f.site.register, Text.hex f.site.address, "NONE", "0",
      Text.decimal f.signed]

def relation (arch : Arch) (facts : List Fact) : String := String.join (facts.map fun f => line (relationRow arch f))

/-- The comments as far as they are written, and the address that their last line is about. -/
structure Comments where
  text : String
  current : Option Word

namespace Comments

/-- No line has been started. -/
def empty : Comments := ⟨"", none⟩

/-- The text with its last line ended. -/
def ended (c : Comments) : String := if c.current.isSome then c.text ++ "\n" else c.text

/-- A register with its value, behind a blank. -/
def entry (arch : Arch) (f : Fact) : String := " " ++ arch.registerName f.site.register ++ "=" ++ Text.hex f.value

/-- The comments with one more fact. An address other than that of the last line starts a new one. -/
def push (arch : Arch) (c : Comments) (f : Fact) : Comments where
  text :=
    (if c.current = some f.site.address then c.text else c.ended ++ Text.hex f.site.address ++ ":") ++ entry arch f
  current := some f.site.address

end Comments

def comments (arch : Arch) (facts : List Fact) : String := (facts.foldl (Comments.push arch) .empty).ended

/-- A text with blanks behind it up to a width. -/
def padRight (width : Nat) (text : String) : String := text ++ String.ofList (List.replicate (width - text.length) ' ')

/-- A text with blanks before it up to a width. -/
def padLeft (width : Nat) (text : String) : String := String.ofList (List.replicate (width - text.length) ' ') ++ text

def tableRow (address register value signed : String) : String :=
  padRight 18 address ++ " " ++ padRight 6 register ++ " " ++ padRight 18 value ++ " " ++ padLeft 20 signed

def table (arch : Arch) (facts : List Fact) : String :=
  line (tableRow "address" "reg" "value" "signed") ++
    String.join (facts.map fun f =>
      line (tableRow (Text.hex f.site.address) (arch.registerName f.site.register) (Text.hex f.value)
        (Text.decimal f.signed)))

end Render

def FactTable.render (t : FactTable) (arch : Arch) : OutputFormat → String
  | .relation => Render.relation arch t.facts
  | .comments => Render.comments arch t.facts
  | .table => Render.table arch t.facts

end CallFacts
