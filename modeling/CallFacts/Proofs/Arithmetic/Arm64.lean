import CallFacts.Proofs.Arithmetic
import CallFacts.Semantics.Standard

/-!
# Arithmetic of 64-bit ARM

What the instructions that load, move, shift, add, negate and extend constants compute, as rules over integers,
when destination and source are seen at one width. Lifting such an instruction and applying it to a state leaves
in the destination the number that the rule gives, reduced modulo two to the width and zero extended to a full
register, and every other register as it was. If the destination is the zero register, nothing changes.
-/

namespace CallFacts.Arm64

variable {s : State} {width : Nat} {m : String} {sources : List Operand} {x : Int} {n : Word} {dst src : Register}

/-! ### Rules -/

/-- The operands after a constant: none, or a left shift of it. -/
inductive ShiftedBy : List Operand → Nat → Prop where
  | nothing : ShiftedBy [] 0
  | left {k : Nat} (hk : k < 64) : ShiftedBy [.shift .lsl k] k

/-- The number that an instruction whose destination is seen at a width leaves there, from its mnemonic and its
further operands. -/
inductive Computes (s : State) (width : Nat) : String → List Operand → Int → Prop where
  | constant (i : Word) : Computes s width "mov" [.immediate i] i.toInt
  | zero (bits : Nat) : Computes s width "mov" [.zero bits] 0
  | content {rn : Register} {n : Word} (h : s.get rn = .exact n 64) :
    Computes s width "mov" [.register ⟨rn, width⟩] n.toNat
  | wideConstant (i : Word) {rest : List Operand} {k : Nat} (hk : ShiftedBy rest k) :
    Computes s width "movz" (.immediate i :: rest) (i.toInt * 2 ^ k)
  | complement (i : Word) {rest : List Operand} {k : Nat} (hk : ShiftedBy rest k) :
    Computes s width "movn" (.immediate i :: rest) (-(i.toInt * 2 ^ k) - 1)
  | sum {m : String} (hm : m ∈ ["add", "adds"]) {rn : Register} {n : Word} (h : s.get rn = .exact n 64) (i : Word)
    {rest : List Operand} {k : Nat} (hk : ShiftedBy rest k) :
    Computes s width m (.register ⟨rn, width⟩ :: .immediate i :: rest) (n.toNat + i.toInt * 2 ^ k)
  | difference {m : String} (hm : m ∈ ["sub", "subs"]) {rn : Register} {n : Word} (h : s.get rn = .exact n 64)
    (i : Word) {rest : List Operand} {k : Nat} (hk : ShiftedBy rest k) :
    Computes s width m (.register ⟨rn, width⟩ :: .immediate i :: rest) (n.toNat - i.toInt * 2 ^ k)
  | orConstant (bits : Nat) (i : Word) : Computes s width "orr" [.zero bits, .immediate i] i.toInt
  | orContent (bits : Nat) {rn : Register} {n : Word} (h : s.get rn = .exact n 64) :
    Computes s width "orr" [.zero bits, .register ⟨rn, width⟩] n.toNat
  | shifted {rn : Register} {n : Word} (h : s.get rn = .exact n 64) {k : Nat} (hk : k < width) :
    Computes s width "lsl" [.register ⟨rn, width⟩, .immediate (BitVec.ofNat 64 k)] (n.toNat * 2 ^ k)
  | negation {m : String} (hm : m ∈ ["neg", "negs"]) {rn : Register} {n : Word} (h : s.get rn = .exact n 64)
    (hrn : rn ≠ 31) : Computes s width m [.register ⟨rn, width⟩] (-n.toNat)
  | zeroExtended {m : String} {source : Nat} (hm : (m, source) ∈ [("uxtb", 8), ("uxth", 16), ("uxtw", 32)])
    {rn : Register} {n : Word} (h : s.get rn = .exact n 64) :
    Computes s width m [.register ⟨rn, width⟩] (n.toNat % 2 ^ source)
  | signExtended {m : String} {source : Nat} (hm : (m, source) ∈ [("sxtb", 8), ("sxth", 16), ("sxtw", 32)])
    {rn : Register} {n : Word} (h : s.get rn = .exact n 64) :
    Computes s width m [.register ⟨rn, width⟩] ((n.toNat : Int).bmod (2 ^ source))

/-! ### Names -/

/-- The mnemonics that have rules here. -/
def arithmetic : List String :=
  ["mov", "movz", "movn", "add", "adds", "sub", "subs", "orr", "lsl", "neg", "negs", "uxtb", "uxth", "uxtw", "sxtb",
    "sxth", "sxtw"]

/-- None of them is the name of a branch, a comparison, a load, a store or a call. -/
theorem plain_of_mem_arithmetic : ∀ m ∈ arithmetic,
    ("b.".toList.isPrefixOf m.toList || m ∈ noWrites) = false ∧ m ∉ loads ∧ m ∉ stores ∧ m ∉ exclusiveStores ∧
      m ∉ ["bl", "blr"] ∧ m ≠ "svc" := by
  decide +kernel

/-- So it is the destination that settles what they do. -/
theorem lift_of_mem_arithmetic (hm : m ∈ arithmetic) {address : Word} {size : Nat} {operands : List Operand}
    {effects : List Effect} (h : destinationEffects? ⟨address, size, m, operands⟩ = some effects) :
    Semantics.lift Arch.arm64.semantics ⟨address, size, m, operands⟩ = .ok ⟨address, size, m, effects⟩ := by
  obtain ⟨hbranch, hload, hstore, hexclusive, hcall, hsupervisor⟩ := plain_of_mem_arithmetic m hm
  have heffects : effects? ⟨address, size, m, operands⟩ = some effects := by
    simp only [effects?, hbranch, hload, hstore, hexclusive, hcall, hsupervisor, if_false, h, Bool.false_eq_true]
  show Semantics.lift [model] _ = _
  rw [Semantics.lift, Semantics.firstAnswer, model, heffects]
  rfl

/-- Each of them has an effect, whatever its operands. -/
theorem exists_writeEffect? (hm : m ∈ arithmetic) (dst : RegisterView) (sources : List Operand) :
    ∃ e, writeEffect? m dst sources = some e := by
  simp only [arithmetic, List.mem_cons, List.not_mem_nil, or_false] at hm
  rcases hm with rfl | rfl | rfl | rfl | rfl | rfl | rfl | rfl | rfl | rfl | rfl | rfl | rfl | rfl | rfl | rfl | rfl
  all_goals exact ⟨_, rfl⟩

section

variable (dst : RegisterView) (sources : List Operand)

theorem writeEffect?_add (hm : m ∈ ["add", "adds"]) :
    writeEffect? m dst sources = some (addEffect dst id sources) := by
  simp only [List.mem_cons, List.not_mem_nil, or_false] at hm
  rcases hm with rfl | rfl
  all_goals rfl

theorem writeEffect?_subtract (hm : m ∈ ["sub", "subs"]) :
    writeEffect? m dst sources = some (addEffect dst (- ·) sources) := by
  simp only [List.mem_cons, List.not_mem_nil, or_false] at hm
  rcases hm with rfl | rfl
  all_goals rfl

theorem writeEffect?_negate (hm : m ∈ ["neg", "negs"]) :
    writeEffect? m dst sources = some (negateEffect dst sources) := by
  simp only [List.mem_cons, List.not_mem_nil, or_false] at hm
  rcases hm with rfl | rfl
  all_goals rfl

theorem writeEffect?_zeroExtend {source : Nat} (hm : (m, source) ∈ [("uxtb", 8), ("uxth", 16), ("uxtw", 32)]) :
    writeEffect? m dst sources = some (extendEffect dst source false sources) := by
  simp only [List.mem_cons, Prod.mk.injEq, List.not_mem_nil, or_false] at hm
  rcases hm with ⟨rfl, rfl⟩ | ⟨rfl, rfl⟩ | ⟨rfl, rfl⟩
  all_goals rfl

theorem writeEffect?_signExtend {source : Nat} (hm : (m, source) ∈ [("sxtb", 8), ("sxth", 16), ("sxtw", 32)]) :
    writeEffect? m dst sources = some (extendEffect dst source true sources) := by
  simp only [List.mem_cons, Prod.mk.injEq, List.not_mem_nil, or_false] at hm
  rcases hm with ⟨rfl, rfl⟩ | ⟨rfl, rfl⟩ | ⟨rfl, rfl⟩
  all_goals rfl

end

theorem Computes.mem_arithmetic (h : Computes s width m sources x) : m ∈ arithmetic := by
  cases h with
  | sum hm | difference hm | negation hm =>
    revert m
    decide
  | @zeroExtended _ source hm | @signExtended _ source hm =>
    simp only [List.mem_cons, Prod.mk.injEq, List.not_mem_nil, or_false] at hm
    rcases hm with ⟨rfl, -⟩ | ⟨rfl, -⟩ | ⟨rfl, -⟩
    all_goals decide
  | _ => decide

/-! ### Effects -/

theorem ShiftedBy.leftShift? {rest : List Operand} {k : Nat} (h : ShiftedBy rest k) : leftShift? rest = some k := by
  cases h with
  | nothing => rfl
  | left hk => exact if_pos hk

theorem gives_copyEffect (hwidth : width = 32 ∨ width = 64) (hsrc : s.get src = .exact n 64) :
    (copyEffect ⟨dst, width⟩ ⟨src, width⟩).Gives s dst n.toNat width 64 := by
  rcases hwidth with rfl | rfl
  · refine (Effect.gives_offset hsrc Word.isNumber_zero ?_ (Nat.le_refl 64)).of_eq (Int.add_zero _)
    decide
  · refine ⟨rfl, n, hsrc, ?_⟩
    exact_mod_cast (Nat.mod_eq_of_lt n.isLt).symm

section

variable (hwidth : width ≤ 64) {f : Word → Word} {i : Word} {rest : List Operand} {k : Nat} (hk : ShiftedBy rest k)

include hwidth hk

theorem gives_moveWideEffect (hf : Word.IsNumber (f (i <<< k)) x) :
    (moveWideEffect ⟨dst, width⟩ f (.immediate i :: rest)).Gives s dst x width 64 := by
  simp only [moveWideEffect, hk.leftShift?]
  exact Effect.gives_immediate hf hwidth (Nat.le_refl 64)

theorem gives_addEffect (hsrc : s.get src = .exact n 64) (hf : Word.IsNumber (f (i <<< k)) x) :
    (addEffect ⟨dst, width⟩ f (.register ⟨src, width⟩ :: .immediate i :: rest)).Gives s dst (n.toNat + x) width 64 := by
  simp only [addEffect, hk.leftShift?]
  exact Effect.gives_offset hsrc hf hwidth (Nat.le_refl 64)

end

theorem gives_shiftEffect (hwidth : width ≤ 64) (hsrc : s.get src = .exact n 64) {k : Nat} (hk : k < width) :
    (shiftEffect ⟨dst, width⟩ [.register ⟨src, width⟩, .immediate (BitVec.ofNat 64 k)]).Gives s dst (n.toNat * 2 ^ k)
      width 64 := by
  have hnat : (BitVec.ofNat 64 k).toNat = k := by rw [BitVec.toNat_ofNat]; omega
  rw [shiftEffect, hnat, if_pos hk]
  exact Effect.gives_multiple hsrc (Word.isNumber_twoPow k) hwidth (Nat.le_refl 64)

theorem gives_negateEffect (hwidth : width ≤ 64) (hsrc : s.get src = .exact n 64) (hne : src ≠ 31) :
    (negateEffect ⟨dst, width⟩ [.register ⟨src, width⟩]).Gives s dst (-n.toNat) width 64 := by
  have hval : src.val ≠ 31 := fun heq => hne (Fin.ext heq)
  rw [negateEffect, if_neg (by simpa [isStackPointer] using hval)]
  refine (Effect.gives_multiple hsrc Word.isNumber_one.neg hwidth (Nat.le_refl 64)).of_eq ?_
  ring

/-- Every rule is the number that a single effect on the destination gives. -/
theorem Computes.exists_effect (hwidth : width = 32 ∨ width = 64) (h : Computes s width m sources x) (dst : Register) :
    ∃ e, writeEffect? m ⟨dst, width⟩ sources = some e ∧ e.Gives s dst x width 64 := by
  have hle : width ≤ 64 := by omega
  have hbits : 64 ≤ 64 := Nat.le_refl 64
  cases h with
  | constant i => exact ⟨_, rfl, Effect.gives_immediate (Word.isNumber_toInt i) hle hbits⟩
  | zero bits => exact ⟨_, rfl, Effect.gives_zero (dvd_zero _)⟩
  | content h => exact ⟨_, rfl, gives_copyEffect hwidth h⟩
  | wideConstant i hk => exact ⟨_, rfl, gives_moveWideEffect hle hk ((Word.isNumber_toInt i).shiftLeft _)⟩
  | complement i hk => exact ⟨_, rfl, gives_moveWideEffect hle hk ((Word.isNumber_toInt i).shiftLeft _).not⟩
  | sum hm h i hk =>
    exact ⟨_, writeEffect?_add _ _ hm, gives_addEffect hle hk h ((Word.isNumber_toInt i).shiftLeft _)⟩
  | difference hm h i hk =>
    exact ⟨_, writeEffect?_subtract _ _ hm, gives_addEffect hle hk h ((Word.isNumber_toInt i).shiftLeft _).neg⟩
  | orConstant bits i => exact ⟨_, rfl, Effect.gives_immediate (Word.isNumber_toInt i) hle hbits⟩
  | orContent bits h => exact ⟨_, rfl, gives_copyEffect hwidth h⟩
  | shifted h hk => exact ⟨_, rfl, gives_shiftEffect hle h hk⟩
  | negation hm h hrn => exact ⟨_, writeEffect?_negate _ _ hm, gives_negateEffect hle h hrn⟩
  | zeroExtended hm h => exact ⟨_, writeEffect?_zeroExtend _ _ hm, Effect.gives_zeroExtended h _ hle hbits⟩
  | signExtended hm h => exact ⟨_, writeEffect?_signExtend _ _ hm, Effect.gives_signExtended h _ hle hbits⟩

/-! ### Instructions -/

/-- An instruction for which a rule gives a number leaves that number in its destination, if it is followed,
and changes no other register; and one that discards its result changes nothing. -/
theorem lift_computes_or_discards (hwidth : width = 32 ∨ width = 64) (h : Computes s width m sources x)
    (address : Word) (size : Nat) :
    (∀ rd ∈ s.tracked, ∃ i,
      Semantics.lift Arch.arm64.semantics ⟨address, size, m, .register ⟨rd, width⟩ :: sources⟩ = .ok i ∧
        s.Receives (s.apply Arch.arm64.registerBits i) rd x width Arch.arm64.registerBits) ∧
    ∀ bits, ∃ i, Semantics.lift Arch.arm64.semantics ⟨address, size, m, .zero bits :: sources⟩ = .ok i ∧
      s.apply Arch.arm64.registerBits i = s := by
  have hm := h.mem_arithmetic
  constructor
  · intro rd hrd
    obtain ⟨e, heffect, hgives⟩ := h.exists_effect hwidth rd
    have heffects : destinationEffects? ⟨address, size, m, .register ⟨rd, width⟩ :: sources⟩ = some [e] := by
      simp only [destinationEffects?, heffect, Option.map_some]
    exact ⟨_, lift_of_mem_arithmetic hm heffects, State.receives_apply rfl hgives hrd⟩
  · intro bits
    obtain ⟨e, heffect⟩ := exists_writeEffect? hm ⟨0, 64⟩ sources
    have heffects : destinationEffects? ⟨address, size, m, .zero bits :: sources⟩ = some [] := by
      simp only [destinationEffects?, heffect, Option.map_some]
    exact ⟨_, lift_of_mem_arithmetic hm heffects, rfl⟩

/-- `x0` and `x1` are followed, and `x1` holds five and a bit above its lower half. -/
def wideFiveInX1 : State := (State.new (RegisterSet.below 2)).set 1 (.exact 0x100000005 64)

/-- `neg w0, w1` sees only the lower half and clears the upper one; `neg wzr, w1` changes nothing. -/
theorem negation_of_lower_half :
    Computes wideFiveInX1 32 "neg" [.register ⟨1, 32⟩] (-0x100000005) ∧ (0 : Register) ∈ wideFiveInX1.tracked ∧
      (∃ i, Semantics.lift Arch.arm64.semantics ⟨0x4000, 4, "neg", [.register ⟨0, 32⟩, .register ⟨1, 32⟩]⟩ = .ok i ∧
        (wideFiveInX1.apply 64 i).get 0 = .exact 0xfffffffb 64 ∧
        (wideFiveInX1.apply 64 i).get 1 = .exact 0x100000005 64) ∧
      ∃ i, Semantics.lift Arch.arm64.semantics ⟨0x4000, 4, "neg", [.zero 32, .register ⟨1, 32⟩]⟩ = .ok i ∧
        wideFiveInX1.apply 64 i = wideFiveInX1 := by
  have hx1 : wideFiveInX1.get 1 = .exact 0x100000005 64 := by decide
  have hx0 : (0 : Register) ∈ wideFiveInX1.tracked := by decide
  have hrule : Computes wideFiveInX1 32 "neg" [.register ⟨1, 32⟩] (-0x100000005) :=
    .negation (by decide) hx1 (by decide)
  obtain ⟨hwrites, hdiscards⟩ := lift_computes_or_discards (.inl rfl) hrule 0x4000 4
  obtain ⟨i, hi, -, ⟨w, hget, hw⟩, hrest⟩ := hwrites 0 hx0
  obtain rfl : w = 0xfffffffb := BitVec.eq_of_toNat_eq (Int.ofNat_inj.mp hw)
  exact ⟨hrule, hx0, ⟨i, hi, hget, (hrest 1 (by decide)).trans hx1⟩, hdiscards 32⟩

end CallFacts.Arm64
