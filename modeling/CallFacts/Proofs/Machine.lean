import CallFacts.FunctionAnalysis
import CallFacts.Proofs.Paths

/-!
# Runs of a function on register files

What the effects of instructions do to actual registers. A register holds a pattern or is undefined;
reading an undefined register gives nothing. All effects of an instruction read the file that it
finds and write in their order. A run follows a path of the flow graph: from a file that holds the
entry values, through one block after the other, where a call may put anything into the registers
that the policy names.
-/

namespace CallFacts

/-- The content of the registers of a machine. `none` is an undefined register. -/
abbrev RegisterFile (bits : Nat) := Register → Option (BitVec bits)

/-- One step after the other, each for an element of a list. -/
inductive InTurn {α σ : Type} (step : α → σ → σ → Prop) : List α → σ → σ → Prop where
  | done (s : σ) : InTurn step [] s s
  | next {x : α} {xs : List α} {s t u : σ} (hstep : step x s t) (hrest : InTurn step xs t u) :
    InTurn step (x :: xs) s u

variable {bits : Nat}

namespace Effect

/-- The low `source` bits of a pattern as a number, in two's complement if `signed`. -/
def reading (source : Nat) (signed : Bool) (w : BitVec bits) : Int :=
  if signed then (w.setWidth source).toInt else (w.setWidth source).toNat

/-- A number wrapped to `width` bits, as the content of a register. -/
def wrapped (bits width : Nat) (n : Int) : BitVec bits := (BitVec.ofInt width n).setWidth bits

/-- What an effect may write if its instruction has found the given file. -/
def MayYield (found : RegisterFile bits) : Effect → Option (BitVec bits) → Prop
  | immediate _ value, x => x = some (value.setWidth bits)
  | copy _ src, x => x = found src
  | extend _ src source target signed, x =>
    x = (found src).map fun w => wrapped bits target (reading source signed w)
  | affine _ src multiplier offset width, x =>
    x = (found src).map fun w => wrapped bits width (w.toNat * multiplier.toInt + offset.toInt)
  | clobber _, _ => True
  | unmodeled _, _ => True

/-- The write of an effect, which leaves all other registers as they are. -/
def Writes (found : RegisterFile bits) (e : Effect) (now next : RegisterFile bits) : Prop :=
  (∀ r ∈ e.written, e.MayYield found (next r)) ∧ ∀ r, r ∉ e.written → next r = now r

end Effect

/-- An instruction takes one register file to another. -/
def Instruction.Executes (i : Instruction) (before after : RegisterFile bits) : Prop :=
  InTurn (Effect.Writes before) i.effects before after

/-- A sequence of instructions takes one register file to another. -/
def Executes (is : List Instruction) (before after : RegisterFile bits) : Prop :=
  InTurn Instruction.Executes is before after

/-- What a followed register holds when the function is entered: its last entry value, if any. -/
def Function.entryContent (f : Function) (bits : Nat) (r : Register) : Option (BitVec bits) :=
  (f.entryValues.reverse.lookup r).map fun value => value.setWidth bits

/-- Going on along a way keeps the registers, but for the policy's after a call. -/
def Successor.Passes {n : Nat} (way : Successor n) (clobbered : RegisterSet)
    (before after : RegisterFile bits) : Prop :=
  ∀ r, (way.afterCall = true → r ∉ clobbered) → after r = before r

/-- A run of a function that has followed a path gets to its last member with a register file. -/
inductive FlowGraph.Path.Arrives (p : Program) (c : Config) (f : Function) {g : FlowGraph} :
    {i : Fin g.members.size} → g.Path i → RegisterFile p.arch.registerBits → Prop where
  | entry {σ : RegisterFile p.arch.registerBits}
      (hentry : ∀ r ∈ c.trackedFor p.arch, σ r = f.entryContent p.arch.registerBits r) :
      Arrives p c f .entry σ
  | extend {i : Fin g.members.size} {path : g.Path i} {way : Successor g.members.size}
      {hway : way ∈ g.successors.get i} {σ τ υ : RegisterFile p.arch.registerBits}
      (harrives : Arrives p c f path σ) (hblock : Executes (p.instructions (g.member i)) σ τ)
      (hpasses : way.Passes (c.callPolicy.clobbered p.arch (c.trackedFor p.arch)) τ υ) :
      Arrives p c f (path.extend way hway) υ

/-! ### Runs never get stuck -/

theorem InTurn.exists_of_step {α σ : Type} {step : α → σ → σ → Prop} (h : ∀ x s, ∃ t, step x s t)
    (xs : List α) (s : σ) : ∃ t, InTurn step xs s t := by
  induction xs generalizing s with
  | nil => exact ⟨s, .done s⟩
  | cons x xs ih =>
    obtain ⟨t, hstep⟩ := h x s
    obtain ⟨u, hrest⟩ := ih t
    exact ⟨u, .next hstep hrest⟩

theorem Effect.exists_mayYield (e : Effect) (found : RegisterFile bits) : ∃ x, e.MayYield found x := by
  cases e with
  | clobber | unmodeled => exact ⟨none, trivial⟩
  | immediate | copy | extend | affine => exact ⟨_, rfl⟩

theorem Effect.exists_writes (e : Effect) (found now : RegisterFile bits) :
    ∃ next, e.Writes found now next := by
  obtain ⟨x, hx⟩ := e.exists_mayYield found
  refine ⟨fun r => if r ∈ e.written then x else now r, ?_, ?_⟩
  · intro r hr
    show e.MayYield found (if r ∈ e.written then x else now r)
    rwa [if_pos hr]
  · intro r hr
    exact if_neg hr

theorem Instruction.exists_executes (i : Instruction) (before : RegisterFile bits) :
    ∃ after, i.Executes before after :=
  InTurn.exists_of_step (fun e now => e.exists_writes before now) i.effects before

theorem exists_executes (is : List Instruction) (before : RegisterFile bits) :
    ∃ after, Executes is before after :=
  InTurn.exists_of_step Instruction.exists_executes is before

/-- Every path of a flow graph is that of some run. -/
theorem FlowGraph.Path.exists_arrives (p : Program) (c : Config) (f : Function) {g : FlowGraph}
    {i : Fin g.members.size} (path : g.Path i) : ∃ σ, path.Arrives p c f σ := by
  induction path with
  | entry => exact ⟨f.entryContent p.arch.registerBits, .entry fun _ _ => rfl⟩
  | extend path way hway ih =>
    obtain ⟨σ, harrives⟩ := ih
    obtain ⟨τ, hblock⟩ := exists_executes (p.instructions (g.member _)) σ
    exact ⟨τ, .extend harrives hblock fun _ _ => rfl⟩

end CallFacts
