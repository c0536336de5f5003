import CallFacts.Effect
import CallFacts.Value

/-!
# Register states

A state gives every tracked register a value. A register that is not tracked reads as unknown, and
writes to it are dropped. An instruction acts as one parallel assignment: every effect is evaluated
in the state before it, and the last effect that writes a register decides.
-/

namespace CallFacts

/-- The values of the tracked registers at a program point. -/
structure State where
  tracked : RegisterSet
  values : Vector Value 64
  bottom_of_untracked : ∀ r : Register, r ∉ tracked → values[r] = Value.bottom
deriving DecidableEq

namespace State

/-- The state that gives each tracked register the value of a function. -/
def ofFn (tracked : RegisterSet) (f : Register → Value) : State where
  tracked := tracked
  values := Vector.ofFn fun r => if r ∈ tracked then f r else .bottom
  bottom_of_untracked r h := by simp [h]

/-- The value of a register; unknown if it is not tracked. -/
def get (s : State) (r : Register) : Value := if r ∈ s.tracked then s.values[r] else .top

@[simp] theorem tracked_ofFn (tracked : RegisterSet) (f : Register → Value) : (ofFn tracked f).tracked = tracked :=
  rfl

theorem get_ofFn (tracked : RegisterSet) (f : Register → Value) (r : Register) :
    (ofFn tracked f).get r = if r ∈ tracked then f r else .top := by
  simp only [get, ofFn]
  split <;> simp_all

theorem get_of_not_mem {s : State} {r : Register} (h : r ∉ s.tracked) : s.get r = .top := by simp [get, h]

theorem ext_get {s t : State} (htracked : s.tracked = t.tracked) (hget : ∀ r ∈ s.tracked, s.get r = t.get r) :
    s = t := by
  obtain ⟨st, sv, sh⟩ := s
  obtain ⟨tt, tv, th⟩ := t
  simp only at htracked
  subst htracked
  congr 1
  apply Vector.ext
  intro i hi
  by_cases h : (⟨i, hi⟩ : Register) ∈ st
  · have := hget ⟨i, hi⟩ h
    simpa [get, h] using this
  · exact (sh ⟨i, hi⟩ h).trans (th ⟨i, hi⟩ h).symm

/-- The state in which no tracked register has been written. -/
def new (tracked : RegisterSet) : State := ofFn tracked fun _ => .bottom

/-- The state after every tracked register of a set has received a value. -/
def assign (s : State) (set : RegisterSet) (v : Value) : State :=
  ofFn s.tracked fun r => if r ∈ set then v else s.get r

def set (s : State) (r : Register) (v : Value) : State := s.assign (RegisterSet.insert ∅ r) v

/-- The state after the registers of a set have become unknown. -/
def clobber (s : State) (set : RegisterSet) : State := s.assign set .top

/-- The least state over the tracked registers of the first that is above both. -/
def join (s t : State) : State := ofFn s.tracked fun r => (s.get r).join (t.get r)

/-- A state in which one register takes in its value in `t`. The flag goes up where that changes it. -/
def raise (t : State) (u : State × Bool) (r : Register) : State × Bool :=
  let joined := (u.1.get r).join (t.get r)
  if joined = u.1.get r then u else (u.1.set r joined, true)

/-- The first state takes in the second, one register after the other; also whether that changes it. -/
def absorb (s t : State) : State × Bool := s.tracked.toList.foldl (raise t) (s, false)

/-- One state is below another if every register it tracks is. -/
instance : LE State := ⟨fun s t => ∀ r ∈ s.tracked.toList, s.get r ≤ t.get r⟩

instance (s t : State) : Decidable (s ≤ t) :=
  inferInstanceAs (Decidable (∀ r ∈ s.tracked.toList, s.get r ≤ t.get r))

/-- The tracked registers that have been written, in ascending order, with their values. -/
def toList (s : State) : List (Register × Value) :=
  (s.tracked.toList.map fun r => (r, s.get r)).filter fun (_, v) => v ≠ .bottom

/-- The text of a state, as in `reg0=0x5 reg1=⊤`. -/
def text (s : State) : String := " ".intercalate (s.toList.map fun (r, v) => r.label ++ "=" ++ v.text)

/-! ### Instructions -/

/-- The value that an effect writes in a state. Exact values have the width of a full register. -/
def evaluate (s : State) (registerBits : Nat) : Effect → Value
  | .immediate _ value => .ofWord value registerBits
  | .copy _ src => s.get src
  | .extend _ src source target signed => ((s.get src).extend source target signed).widen registerBits
  | .affine _ src multiplier offset bits => ((s.get src).affine multiplier offset bits).widen registerBits
  | .clobber _ => .top
  | .unmodeled _ => .top

def apply (s : State) (registerBits : Nat) (i : Instruction) : State :=
  i.effects.foldl (fun t e => t.assign e.written (s.evaluate registerBits e)) s

def applyAll (s : State) (registerBits : Nat) (is : List Instruction) : State :=
  is.foldl (fun t i => t.apply registerBits i) s

/-! ### Reading a state after an operation -/

theorem get_new {tracked : RegisterSet} {r : Register} (h : r ∈ tracked) : (new tracked).get r = .bottom := by
  simp [new, get_ofFn, h]

theorem get_assign (s : State) (set : RegisterSet) (v : Value) (r : Register) :
    (s.assign set v).get r = if r ∈ s.tracked ∧ r ∈ set then v else s.get r := by
  by_cases h : r ∈ s.tracked
  · simp [assign, get_ofFn, h]
  · simp [assign, get_ofFn, h, get_of_not_mem h]

theorem get_set (s : State) (r : Register) (v : Value) (q : Register) :
    (s.set r v).get q = if q ∈ s.tracked ∧ q = r then v else s.get q := by
  simp [set, get_assign]

theorem get_join {s t : State} {r : Register} (h : r ∈ s.tracked) :
    (s.join t).get r = (s.get r).join (t.get r) := by
  simp [join, get_ofFn, h]

@[simp] theorem tracked_new (tracked : RegisterSet) : (new tracked).tracked = tracked :=
  tracked_ofFn _ _

@[simp] theorem tracked_assign (s : State) (set : RegisterSet) (v : Value) :
    (s.assign set v).tracked = s.tracked := tracked_ofFn _ _

@[simp] theorem tracked_clobber (s : State) (set : RegisterSet) : (s.clobber set).tracked = s.tracked :=
  tracked_ofFn _ _

@[simp] theorem tracked_join (s t : State) : (s.join t).tracked = s.tracked := tracked_ofFn _ _

theorem le_iff {s t : State} : s ≤ t ↔ ∀ r ∈ s.tracked, s.get r ≤ t.get r := by
  show (∀ r ∈ s.tracked.toList, s.get r ≤ t.get r) ↔ _
  simp

end State

end CallFacts
