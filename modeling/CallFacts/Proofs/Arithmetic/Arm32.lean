import CallFacts.Proofs.Arithmetic
import CallFacts.Proofs.Conditional

/-!
# Arithmetic of 32-bit ARM

What the instructions that load, move, shift, add and extend constants compute, as rules over integers: a rule
gives the number that an operation leaves in its destination, from its operands and from the content of the
register that it reads. Lifting such an instruction and applying it to a state leaves exactly that number in the
destination, reduced modulo `2 ^ 32`, and every other register as it was.
-/

namespace CallFacts.Arm32

variable {s : State} {rd rn : RegisterView} {dst src : Register} {n : Word} {op : Operation} {m : String}
  {sources : List Operand} {x : Int}

/-! ### Rules -/

/-- The mnemonics of the operations that have rules here. -/
def mnemonics : List (String × Operation) :=
  [("mov", .move), ("movs", .move), ("mvn", .moveNot), ("mvns", .moveNot), ("movw", .moveWide), ("add", .add),
    ("addw", .add), ("adds", .add), ("sub", .subtract), ("subw", .subtract), ("subs", .subtract),
    ("rsb", .reverseSubtract), ("rsbs", .reverseSubtract), ("lsl", .shiftLeft), ("lsls", .shiftLeft),
    ("adr", .addressOf), ("uxtb", .extend 8 false), ("uxth", .extend 16 false), ("sxtb", .extend 8 true),
    ("sxth", .extend 16 true)]

/-- A register whose pattern is known and that is not the program counter. -/
structure Known (s : State) (r : Register) (n : Word) : Prop where
  ne_programCounter : r ≠ 15
  get : s.get r = .exact n registerBits

/-- The number that an operation with destination `rd` and these further operands leaves there. -/
inductive Computes (s : State) (rd : Register) : Operation → List Operand → Int → Prop where
  | constant (i : Word) : Computes s rd .move [.immediate i] i.toInt
  | content {rn : RegisterView} {n : Word} (h : Known s rn.register n) :
    Computes s rd .move [.register rn] n.toNat
  | shiftedContent {rn : RegisterView} {n : Word} (h : Known s rn.register n) (k : Nat) :
    Computes s rd .move [.register rn, .shift .lsl k] (n.toNat * 2 ^ k)
  | shifted {rn : RegisterView} {n : Word} (h : Known s rn.register n) {k : Nat} (hk : k < 256) :
    Computes s rd .shiftLeft [.register rn, .immediate (BitVec.ofNat 64 k)] (n.toNat * 2 ^ k)
  | shiftedItself {n : Word} (h : Known s rd n) {k : Nat} (hk : k < 256) :
    Computes s rd .shiftLeft [.immediate (BitVec.ofNat 64 k)] (n.toNat * 2 ^ k)
  | complement (i : Word) : Computes s rd .moveNot [.immediate i] (-i.toInt - 1)
  | lowHalf (i : Word) : Computes s rd .moveWide [.immediate i] (i.toInt % 2 ^ 16)
  | sum {rn : RegisterView} {n : Word} (h : Known s rn.register n) (i : Word) :
    Computes s rd .add [.register rn, .immediate i] (n.toNat + i.toInt)
  | sumWithItself {n : Word} (h : Known s rd n) (i : Word) : Computes s rd .add [.immediate i] (n.toNat + i.toInt)
  | difference {rn : RegisterView} {n : Word} (h : Known s rn.register n) (i : Word) :
    Computes s rd .subtract [.register rn, .immediate i] (n.toNat - i.toInt)
  | differenceFromItself {n : Word} (h : Known s rd n) (i : Word) :
    Computes s rd .subtract [.immediate i] (n.toNat - i.toInt)
  | reverseDifference {rn : RegisterView} {n : Word} (h : Known s rn.register n) (i : Word) :
    Computes s rd .reverseSubtract [.register rn, .immediate i] (i.toInt - n.toNat)
  | address (a : Word) : Computes s rd .addressOf [.target a] a.toNat
  | zeroExtended {rn : RegisterView} {n : Word} (h : Known s rn.register n) (source : Nat) :
    Computes s rd (.extend source false) [.register rn] (n.toNat % 2 ^ source)
  | signExtended {rn : RegisterView} {n : Word} (h : Known s rn.register n) (source : Nat) :
    Computes s rd (.extend source true) [.register rn] ((n.toNat : Int).bmod (2 ^ source))

/-! ### Effects of the operations -/

theorem operation?_of_mem_mnemonics : ∀ entry ∈ mnemonics, operation? entry.1.toList = some entry.2 := by
  decide +kernel

theorem Known.isProgramCounter {r : Register} (h : Known s r n) : isProgramCounter r = false := by
  have hval : r.val ≠ 15 := fun heq => h.ne_programCounter (Fin.ext heq)
  simpa [Arm32.isProgramCounter] using hval

theorem registerBits_le : registerBits ≤ 64 := by decide

/-- Shifting by the width or more leaves zero. -/
theorem gives_shiftLeftEffect (hsrc : s.get src = .exact n registerBits) (k : Nat) :
    (shiftLeftEffect dst src k).Gives s dst (n.toNat * 2 ^ k) registerBits registerBits := by
  rw [shiftLeftEffect]
  split
  · next hk => exact Effect.gives_zero (Dvd.dvd.mul_left (pow_dvd_pow 2 hk) _)
  · exact Effect.gives_multiple hsrc (Word.isNumber_twoPow k) (Nat.le_refl _) registerBits_le

theorem gives_moveEffect_register (hs : s.OfWidth registerBits) (h : Known s rn.register n) :
    (moveEffect dst [.register rn]).Gives s dst n.toNat registerBits registerBits := by
  rw [moveEffect, if_neg (by simp [h.isProgramCounter])]
  exact Effect.gives_copy hs h.get

theorem gives_moveEffect_shift (h : Known s rn.register n) (k : Nat) :
    (moveEffect dst [.register rn, .shift .lsl k]).Gives s dst (n.toNat * 2 ^ k) registerBits registerBits := by
  rw [moveEffect, if_neg (by simp [h.isProgramCounter])]
  exact gives_shiftLeftEffect h.get k

theorem gives_shiftEffect {k : Nat} (hk : k < 256) (hsrc : s.get src = .exact n registerBits) :
    (if (BitVec.ofNat 64 k).toNat < 256 then shiftLeftEffect dst src (BitVec.ofNat 64 k).toNat else .clobber dst).Gives
      s dst (n.toNat * 2 ^ k) registerBits registerBits := by
  have hnat : (BitVec.ofNat 64 k).toNat = k := by rw [BitVec.toNat_ofNat]; omega
  rw [hnat, if_pos hk]
  exact gives_shiftLeftEffect hsrc k

section

variable {f : Word → Word} {i : Word} {y : Int} (hf : Word.IsNumber (f i) y)

include hf

theorem gives_addEffect_register (h : Known s rn.register n) :
    (addEffect dst f [.register rn, .immediate i]).Gives s dst (n.toNat + y) registerBits registerBits := by
  rw [addEffect, if_neg (by simp [h.isProgramCounter])]
  exact Effect.gives_offset h.get hf (Nat.le_refl _) registerBits_le

theorem gives_addEffect_itself (h : Known s dst n) :
    (addEffect dst f [.immediate i]).Gives s dst (n.toNat + y) registerBits registerBits := by
  rw [addEffect, if_neg (by simp [h.isProgramCounter])]
  exact Effect.gives_offset h.get hf (Nat.le_refl _) registerBits_le

end

theorem gives_reverseSubtractEffect (h : Known s rn.register n) (i : Word) :
    (reverseSubtractEffect dst [.register rn, .immediate i]).Gives s dst (i.toInt - n.toNat) registerBits
      registerBits := by
  rw [reverseSubtractEffect, if_neg (by simp [h.isProgramCounter])]
  refine (Effect.gives_affine h.get Word.isNumber_one.neg (Word.isNumber_toInt i) (Nat.le_refl registerBits)
    registerBits_le).of_eq ?_
  ring

theorem gives_addressEffect (a : Word) :
    (addressEffect dst [.target a]).Gives s dst a.toNat registerBits registerBits := by
  have hmask : a &&& Arch.arm32.valueMask = Word.keepLow registerBits a := rfl
  rw [addressEffect, hmask]
  exact Effect.gives_immediate (Word.isNumber_toNat a) (Nat.le_refl registerBits) registerBits_le

/-! ### What the rules give is what the effects give -/

theorem Computes.exists_effect (hs : s.OfWidth registerBits) (h : Computes s rd.register op sources x)
    (address : Word) (size : Nat) (m : String) :
    ∃ e, operationEffects? ⟨address, size, m, .register rd :: sources⟩ op = some [e] ∧
      e.Gives s rd.register x registerBits registerBits := by
  have hwidth : registerBits ≤ registerBits := Nat.le_refl _
  cases h with
  | constant i => exact ⟨_, rfl, Effect.gives_immediate (Word.isNumber_toInt i) hwidth registerBits_le⟩
  | content h => exact ⟨_, rfl, gives_moveEffect_register hs h⟩
  | shiftedContent h k => exact ⟨_, rfl, gives_moveEffect_shift h k⟩
  | shifted h hk => exact ⟨_, rfl, gives_shiftEffect hk h.get⟩
  | shiftedItself h hk => exact ⟨_, rfl, gives_shiftEffect hk h.get⟩
  | complement i => exact ⟨_, rfl, Effect.gives_immediate (Word.isNumber_toInt i).not hwidth registerBits_le⟩
  | lowHalf i =>
    have hlow : (Effect.immediate rd.register (Word.keepLow 16 i)).Gives s rd.register i.toInt 16 registerBits :=
      Effect.gives_immediate (Word.isNumber_toInt i) (by decide) registerBits_le
    exact ⟨_, rfl, hlow.reduced (by decide)⟩
  | sum h i => exact ⟨_, rfl, gives_addEffect_register (Word.isNumber_toInt i) h⟩
  | sumWithItself h i => exact ⟨_, rfl, gives_addEffect_itself (Word.isNumber_toInt i) h⟩
  | difference h i => exact ⟨_, rfl, gives_addEffect_register (Word.isNumber_toInt i).neg h⟩
  | differenceFromItself h i => exact ⟨_, rfl, gives_addEffect_itself (Word.isNumber_toInt i).neg h⟩
  | reverseDifference h i => exact ⟨_, rfl, gives_reverseSubtractEffect h i⟩
  | address a => exact ⟨_, rfl, gives_addressEffect a⟩
  | zeroExtended h source => exact ⟨_, rfl, Effect.gives_zeroExtended h.get source hwidth registerBits_le⟩
  | signExtended h source => exact ⟨_, rfl, Effect.gives_signExtended h.get source hwidth registerBits_le⟩

/-- An instruction for which a rule gives a number leaves that number in its destination, if it is followed,
and changes no other register. -/
theorem lift_computes (hs : s.OfWidth registerBits) (hrd : rd.register ∈ s.tracked) (hm : (m, op) ∈ mnemonics)
    (h : Computes s rd.register op sources x) (address : Word) (size : Nat) :
    ∃ i, Semantics.lift Arch.arm32.semantics ⟨address, size, m, .register rd :: sources⟩ = .ok i ∧
      s.Receives (s.apply registerBits i) rd.register x registerBits registerBits := by
  obtain ⟨e, heffects, hgives⟩ := h.exists_effect hs address size m
  have hclass : classify m.toList = .ok (some (op, false)) := by
    rw [classify, operation?_of_mem_mnemonics _ hm]
  refine ⟨_, lift_of_classify hclass, State.receives_apply ?_ hgives hrd⟩
  simp only [instructionOf, effectsOf, heffects]
  rfl

/-- `r0` and `r1` are followed, and `r1` holds five. -/
def fiveInR1 : State := (State.new (RegisterSet.below 2)).set 1 (.exact 5 registerBits)

/-- `rsbs r0, r1, #3` takes five from three and wraps. -/
theorem reverseSubtract_wraps :
    fiveInR1.OfWidth registerBits ∧ (0 : Register) ∈ fiveInR1.tracked ∧ ("rsbs", .reverseSubtract) ∈ mnemonics ∧
      Computes fiveInR1 0 .reverseSubtract [.register ⟨1, 32⟩, .immediate 3] (3 - 5) ∧
      ∃ i, Semantics.lift Arch.arm32.semantics
          ⟨0x1000, 4, "rsbs", [.register ⟨0, 32⟩, .register ⟨1, 32⟩, .immediate 3]⟩ = .ok i ∧
        (fiveInR1.apply registerBits i).get 0 = .exact 0xfffffffe registerBits ∧
        (fiveInR1.apply registerBits i).get 1 = .exact 5 registerBits := by
  have hs : fiveInR1.OfWidth registerBits :=
    (State.ofWidth_new _ _).assign (Value.ofWidth_exact_iff.mpr ⟨rfl, by decide⟩) _
  have hrd : (0 : Register) ∈ fiveInR1.tracked := by decide
  have hm : ("rsbs", Operation.reverseSubtract) ∈ mnemonics := by decide
  have hn : Known fiveInR1 (RegisterView.register ⟨1, 32⟩) 5 := ⟨by decide, by decide⟩
  have hrule : Computes fiveInR1 0 .reverseSubtract [.register ⟨1, 32⟩, .immediate 3] (3 - 5) :=
    .reverseDifference hn 3
  obtain ⟨i, hi, -, ⟨w, hget, hw⟩, hrest⟩ :
      ∃ i, Semantics.lift Arch.arm32.semantics
          ⟨0x1000, 4, "rsbs", [.register ⟨0, 32⟩, .register ⟨1, 32⟩, .immediate 3]⟩ = .ok i ∧
        fiveInR1.Receives (fiveInR1.apply registerBits i) 0 (3 - 5) registerBits registerBits :=
    lift_computes hs hrd hm hrule 0x1000 4
  obtain rfl : w = 0xfffffffe := BitVec.eq_of_toNat_eq (Int.ofNat_inj.mp hw)
  exact ⟨hs, hrd, hm, hrule, i, hi, hget, (hrest 1 (by decide)).trans hn.get⟩

end CallFacts.Arm32
