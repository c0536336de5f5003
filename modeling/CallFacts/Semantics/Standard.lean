import CallFacts.Semantics.Arm32
import CallFacts.Semantics.Arm64

/-! The models that lift an architecture's instructions unless others are given. -/

namespace CallFacts

def Arch.model : Arch → Model
  | arm32 => Arm32.model
  | arm64 => Arm64.model

def Arch.semantics (arch : Arch) : List Model := [arch.model]

end CallFacts
