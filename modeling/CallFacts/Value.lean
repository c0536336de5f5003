import CallFacts.Text.Numeral
import CallFacts.Word

/-!
# Abstract values

What is known of a register at a program point: nothing has been written (`bottom`), an exact
pattern of some width, or nothing is known (`top`). The order is flat: `bottom` is below and `top`
above everything, and exact values are comparable only to themselves.
-/

namespace CallFacts

/-- What is known of a register at a program point. -/
inductive Value where
  /-- Never written on any path to this point. -/
  | bottom
  /-- A pattern of `bits` bits. -/
  | exact (pattern : Word) (bits : Nat)
  /-- Unknown, or different on different paths. -/
  | top
deriving DecidableEq, Repr

namespace Value

instance : Inhabited Value := ⟨bottom⟩

/-- The exact value of the low `bits` bits of a word. -/
def ofWord (w : Word) (bits : Nat) : Value := exact (Word.keepLow bits w) bits

def join : Value → Value → Value
  | bottom, v => v
  | v, bottom => v
  | v, w => if v = w then v else top

instance : LE Value := ⟨fun v w => v = bottom ∨ w = top ∨ v = w⟩

instance (v w : Value) : Decidable (v ≤ w) :=
  inferInstanceAs (Decidable (v = bottom ∨ w = top ∨ v = w))

def known? : Value → Option (Word × Nat)
  | exact pattern bits => some (pattern, bits)
  | _ => none

/-- A function of the pattern of an exact value, cut to `bits`; the other values stay. -/
def mapExact (f : Word → Word) (bits : Nat) : Value → Value
  | exact pattern _ => ofWord (f pattern) bits
  | bottom => bottom
  | top => top

/-- The value times `multiplier` plus `offset`, wrapped to `bits`. -/
def affine (multiplier offset : Word) (bits : Nat) : Value → Value :=
  mapExact (fun w => w * multiplier + offset) bits

/-- The low `source` bits, zero or sign extended to `target` bits. -/
def extend (source target : Nat) (signed : Bool) : Value → Value :=
  mapExact (if signed then Word.signExtendLow source else Word.keepLow source) target

/-- The same content seen at the width of a full register. -/
def widen (bits : Nat) : Value → Value := mapExact id bits

/-- The text of a value: its pattern if it is exact. -/
def text : Value → String
  | bottom => "⊥"
  | exact pattern _ => Text.hex pattern
  | top => "⊤"

/-! ### The order -/

theorem le_def {v w : Value} : v ≤ w ↔ v = bottom ∨ w = top ∨ v = w := Iff.rfl

@[simp] theorem bottom_le (v : Value) : bottom ≤ v := .inl rfl

@[simp] theorem le_top (v : Value) : v ≤ top := .inr (.inl rfl)

@[simp] theorem le_refl (v : Value) : v ≤ v := .inr (.inr rfl)

theorem le_trans {u v w : Value} (h : u ≤ v) (h' : v ≤ w) : u ≤ w := by
  rcases h with rfl | rfl | rfl
  · exact bottom_le w
  · rcases h' with h' | h' | h'
    · cases h'
    · exact .inr (.inl h')
    · exact .inr (.inl h'.symm)
  · exact h'

theorem le_antisymm {v w : Value} (h : v ≤ w) (h' : w ≤ v) : v = w := by
  rcases h with rfl | rfl | rfl
  · rcases h' with h' | h' | h'
    · exact h'.symm
    · cases h'
    · exact h'.symm
  · rcases h' with h' | h' | h'
    · cases h'
    · exact h'
    · exact h'.symm
  · rfl

@[simp] theorem join_bottom (v : Value) : join v bottom = v := by cases v <;> rfl

@[simp] theorem bottom_join (v : Value) : join bottom v = v := rfl

@[simp] theorem join_self (v : Value) : join v v = v := by cases v <;> simp [join]

@[simp] theorem join_top (v : Value) : join v top = top := by cases v <;> simp [join]

@[simp] theorem top_join (v : Value) : join top v = top := by cases v <;> simp [join]

theorem join_comm (v w : Value) : join v w = join w v := by
  cases v <;> cases w <;> simp only [join] <;> grind

theorem le_join_left (v w : Value) : v ≤ join v w := by
  cases v <;> cases w <;> simp only [join] <;> grind [le_def]

theorem le_join_right (v w : Value) : w ≤ join v w := by
  rw [join_comm]
  exact le_join_left w v

theorem join_le {u v w : Value} (hu : u ≤ w) (hv : v ≤ w) : join u v ≤ w := by
  cases u <;> cases v <;> simp only [join] <;> grind [le_def]

end Value

end CallFacts
