import CallFacts.Arch

/-!
# Configuration of an analysis

Which registers are followed, what a call does to them, where the results are read off, and how often
a block may be visited. The last is a product of words; what becomes of it if it does not fit a word is
not for the configuration to say but for the build of the program.
-/

namespace CallFacts

/-- What a call does to the caller's registers. -/
inductive CallPolicy where
  /-- Nothing. -/
  | preserve
  /-- The registers that a callee may change become unknown. -/
  | clobberCallerSaved
  /-- All followed registers become unknown. -/
  | clobberAll
deriving DecidableEq, Repr

/-- The registers that are unknown after a call. -/
def CallPolicy.clobbered (arch : Arch) (tracked : RegisterSet) : CallPolicy → RegisterSet
  | preserve => ∅
  | clobberCallerSaved => arch.callerSaved ∩ tracked
  | clobberAll => tracked

/-- The blocks whose last instruction is observed. -/
inductive ObservationPoints where
  /-- Blocks that a call leaves. -/
  | callSites
  /-- All blocks. -/
  | blockExits
deriving DecidableEq, Repr

/-- What a build does with a product that does not fit a word. -/
inductive Overflow where
  /-- It goes on with the product modulo `2 ^ 64`. -/
  | wraps
  /-- It stops the program. -/
  | stops
deriving DecidableEq, Repr

/-- The configuration of an analysis. -/
structure Config where
  /-- The registers to follow, or none for the architecture's default. -/
  tracked : Option RegisterSet := none
  callPolicy : CallPolicy := .clobberCallerSaved
  observe : ObservationPoints := .callSites
  /-- How many visits of a block are allowed per followed register, and once more. -/
  visitMultiplier : Word := 2
  /-- Whether each function is analyzed in a task of its own. -/
  parallel : Bool := true
deriving DecidableEq, Repr

namespace Config

/-- The registers that are followed: those asked for that the architecture has. -/
def trackedFor (c : Config) (arch : Arch) : RegisterSet :=
  c.tracked.getD arch.defaultTracked ∩ RegisterSet.below arch.registerCount

/-- How often one block may be visited, in a build where the product wraps. -/
def visitLimit (c : Config) (tracked : RegisterSet) : Nat :=
  (c.visitMultiplier * BitVec.ofNat 64 (tracked.size + 1)).toNat

/-- Whether the product is too large for a word. -/
def limitOverflows (c : Config) (tracked : RegisterSet) : Bool :=
  Nat.pow 2 64 ≤ c.visitMultiplier.toNat * (tracked.size + 1)

/-- How often one block may be visited, unless the build stops at the product. -/
def visitLimit? (overflow : Overflow) (c : Config) (tracked : RegisterSet) : Option Nat :=
  match overflow with
  | .wraps => some (c.visitLimit tracked)
  | .stops => if c.limitOverflows tracked then none else some (c.visitLimit tracked)

end Config

end CallFacts
