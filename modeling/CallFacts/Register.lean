import CallFacts.Text.Numeral
import CallFacts.Word

/-!
# Registers and register sets

A register is one of 64 indices. A register set is a word with one bit for each of them, and its
members are listed in ascending order.
-/

namespace CallFacts

/-- A register of any architecture, by its index. -/
abbrev Register := Fin 64

namespace Register

-- The zero is the one that the numerals of a finite type ask for.
/-- Numerals name registers. -/
instance neZero : @NeZero Nat Zero.ofOfNat0 64 := ⟨by decide⟩

def ofIndex? (n : Nat) : Option Register := if h : n < 64 then some ⟨n, h⟩ else none

/-- The name of a register where no architecture gives it one. -/
def label (r : Register) : String := "reg" ++ Text.decimal r.val

def all : List Register := List.finRange 64

theorem mem_all (r : Register) : r ∈ all := List.mem_finRange r

end Register

/-- A set of registers: bit `i` of the word stands for register `i`. -/
structure RegisterSet where
  bits : Word
deriving DecidableEq, Repr

namespace RegisterSet

instance : Membership Register RegisterSet := ⟨fun s r => s.bits.getLsbD r.val = true⟩

instance (r : Register) (s : RegisterSet) : Decidable (r ∈ s) :=
  inferInstanceAs (Decidable (s.bits.getLsbD r.val = true))

instance : EmptyCollection RegisterSet := ⟨⟨0#64⟩⟩

instance : Union RegisterSet := ⟨fun s t => ⟨s.bits ||| t.bits⟩⟩

instance : Inter RegisterSet := ⟨fun s t => ⟨s.bits &&& t.bits⟩⟩

def insert (s : RegisterSet) (r : Register) : RegisterSet := ⟨s.bits ||| BitVec.twoPow 64 r.val⟩

/-- The set without a register. -/
def erase (s : RegisterSet) (r : Register) : RegisterSet := ⟨s.bits &&& ~~~BitVec.twoPow 64 r.val⟩

/-- The registers with an index below `count`. -/
def below (count : Nat) : RegisterSet := ⟨Word.mask count⟩

/-- The registers from `first` to `last`, both included. -/
def range (first last : Register) : RegisterSet :=
  ⟨Word.mask (last.val + 1) &&& ~~~Word.mask first.val⟩

def ofList (rs : List Register) : RegisterSet := rs.foldl insert ∅

/-- The member with the lowest index. -/
def lowest (s : RegisterSet) (h : s.bits ≠ 0#64) : Register :=
  ⟨s.bits.ctz.toNat, BitVec.ctz_lt_iff_ne_zero.mpr h⟩

/-- The set without its lowest member. -/
def withoutLowest (s : RegisterSet) : RegisterSet := ⟨Word.withoutLowest s.bits⟩

/-- The members in ascending order: one takes out the lowest until none is left. -/
def toList (s : RegisterSet) : List Register :=
  if h : s.bits = 0#64 then [] else s.lowest h :: s.withoutLowest.toList
termination_by s.bits.toNat
decreasing_by exact Word.toNat_withoutLowest_lt h

def size (s : RegisterSet) : Nat := Register.all.countP fun r => r ∈ s

/-- Whether there is no member. -/
def isEmpty (s : RegisterSet) : Bool := s.bits == 0#64

/-! ### Membership -/

theorem mem_iff {r : Register} {s : RegisterSet} : r ∈ s ↔ s.bits.getLsbD r.val = true := Iff.rfl

theorem ext {s t : RegisterSet} (h : ∀ r : Register, r ∈ s ↔ r ∈ t) : s = t := by
  obtain ⟨a⟩ := s
  obtain ⟨b⟩ := t
  congr 1
  apply BitVec.eq_of_getLsbD_eq
  intro i hi
  exact Bool.eq_iff_iff.mpr (h ⟨i, hi⟩)

@[simp] theorem not_mem_empty (r : Register) : r ∉ (∅ : RegisterSet) := by
  show ¬ (0#64).getLsbD r.val = true
  simp

@[simp] theorem mem_union {r : Register} {s t : RegisterSet} : r ∈ s ∪ t ↔ r ∈ s ∨ r ∈ t := by
  show (s.bits ||| t.bits).getLsbD r.val = true ↔ _
  simp [mem_iff]

@[simp] theorem mem_inter {r : Register} {s t : RegisterSet} : r ∈ s ∩ t ↔ r ∈ s ∧ r ∈ t := by
  show (s.bits &&& t.bits).getLsbD r.val = true ↔ _
  simp [mem_iff]

@[simp] theorem mem_insert {r q : Register} {s : RegisterSet} : r ∈ s.insert q ↔ r = q ∨ r ∈ s := by
  simp only [mem_iff, insert, BitVec.getLsbD_or, BitVec.getLsbD_twoPow, Bool.or_eq_true, Bool.and_eq_true,
    decide_eq_true_eq]
  constructor
  · rintro (h | ⟨_, h⟩)
    · exact .inr h
    · exact .inl (Fin.ext h.symm)
  · rintro (h | h)
    · exact .inr ⟨q.isLt, by rw [h]⟩
    · exact .inl h

@[simp] theorem mem_erase {r q : Register} {s : RegisterSet} : r ∈ s.erase q ↔ r ≠ q ∧ r ∈ s := by
  simp only [mem_iff, erase, BitVec.getLsbD_and, BitVec.getLsbD_not, BitVec.getLsbD_twoPow, r.isLt, q.isLt,
    decide_true, Bool.true_and, Bool.and_eq_true, Bool.not_eq_true', decide_eq_false_iff_not, ne_eq, Fin.ext_iff]
  exact ⟨fun h => ⟨fun e => h.2 e.symm, h.1⟩, fun h => ⟨h.2, fun e => h.1 e.symm⟩⟩

@[simp] theorem mem_below {r : Register} {count : Nat} : r ∈ below count ↔ r.val < count := by
  simp only [mem_iff, below, Word.getLsbD_mask, r.isLt, decide_true, Bool.true_and, decide_eq_true_eq]

@[simp] theorem mem_range {r first last : Register} : r ∈ range first last ↔ first ≤ r ∧ r ≤ last := by
  simp only [mem_iff, range, BitVec.getLsbD_and, BitVec.getLsbD_not, Word.getLsbD_mask, r.isLt, decide_true,
    Bool.true_and, Bool.and_eq_true, Bool.not_eq_true', decide_eq_true_eq, decide_eq_false_iff_not, Fin.le_def]
  omega

theorem not_mem_of_bits_eq_zero {s : RegisterSet} (h : s.bits = 0#64) (r : Register) : r ∉ s := by
  simp [mem_iff, h]

theorem lowest_mem {s : RegisterSet} (h : s.bits ≠ 0#64) : s.lowest h ∈ s :=
  BitVec.getLsbD_true_ctz_of_ne_zero h

theorem lowest_le {r : Register} {s : RegisterSet} (h : s.bits ≠ 0#64) (hr : r ∈ s) : s.lowest h ≤ r := by
  refine Fin.not_lt.mp fun hlt => ?_
  have hunset : s.bits.getLsbD r.val = false := BitVec.getLsbD_false_of_lt_ctz hlt
  rw [mem_iff, hunset] at hr
  cases hr

/-- A member that is not the lowest one stays. -/
theorem mem_withoutLowest {r : Register} {s : RegisterSet} (h : s.bits ≠ 0#64) :
    r ∈ s.withoutLowest ↔ r ∈ s ∧ s.lowest h < r := by
  simp only [mem_iff, withoutLowest, Word.getLsbD_withoutLowest, Bool.and_eq_true, decide_eq_true_eq]
  refine and_congr_right fun _ => ?_
  constructor
  · rintro ⟨j, hj, hset⟩
    exact Fin.lt_of_le_of_lt (lowest_le (r := ⟨j, Nat.lt_trans hj r.isLt⟩) h hset) hj
  · intro hlt
    exact ⟨_, hlt, lowest_mem h⟩

theorem toList_of_bits_eq_zero {s : RegisterSet} (h : s.bits = 0#64) : s.toList = [] := by
  rw [toList, dif_pos h]

theorem toList_of_bits_ne_zero {s : RegisterSet} (h : s.bits ≠ 0#64) :
    s.toList = s.lowest h :: s.withoutLowest.toList := by
  rw [toList, dif_neg h]

@[simp] theorem mem_toList {r : Register} {s : RegisterSet} : r ∈ s.toList ↔ r ∈ s := by
  fun_induction toList s with
  | case1 s h => simp [not_mem_of_bits_eq_zero h]
  | case2 s h ih =>
    rw [List.mem_cons, ih, mem_withoutLowest h]
    constructor
    · rintro (rfl | ⟨hr, _⟩)
      · exact lowest_mem h
      · exact hr
    · intro hr
      rcases Nat.eq_or_lt_of_le (lowest_le h hr) with heq | hlt
      · exact .inl (Fin.ext heq.symm)
      · exact .inr ⟨hr, hlt⟩

theorem ascending_toList (s : RegisterSet) : s.toList.Pairwise fun q r => q < r := by
  fun_induction toList s with
  | case1 s h => exact .nil
  | case2 s h ih =>
    refine .cons ?_ ih
    intro r hr
    exact ((mem_withoutLowest h).mp (mem_toList.mp hr)).2

theorem nodup_toList (s : RegisterSet) : s.toList.Nodup := s.ascending_toList.imp Fin.ne_of_lt

theorem length_toList (s : RegisterSet) : s.toList.length = s.size := by
  have hperm : s.toList.Perm (Register.all.filter fun r => r ∈ s) := by
    refine (List.perm_ext_iff_of_nodup s.nodup_toList ((List.nodup_finRange 64).filter _)).mpr fun r => ?_
    rw [mem_toList, List.mem_filter, decide_eq_true_eq]
    exact (and_iff_right (Register.mem_all r)).symm
  rw [hperm.length_eq, size, List.countP_eq_length_filter]

theorem mem_foldl_insert {r : Register} {rs : List Register} {s : RegisterSet} :
    r ∈ rs.foldl insert s ↔ r ∈ rs ∨ r ∈ s := by
  induction rs generalizing s with
  | nil => simp
  | cons q rs ih => simp only [List.foldl_cons, ih, mem_insert, List.mem_cons]; exact or_left_comm.trans or_assoc.symm

@[simp] theorem mem_ofList {r : Register} {rs : List Register} : r ∈ ofList rs ↔ r ∈ rs := by
  simp [ofList, mem_foldl_insert]

end RegisterSet

end CallFacts
