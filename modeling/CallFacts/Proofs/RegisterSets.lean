import CallFacts.Register
import Mathlib.Data.Fintype.Basic

/-!
# Register sets as finite sets

The list of a set comes from taking out the lowest member until none is left. So the words on the way hold
what the list still has to show, and the set is used up after as many steps as it has members. The
operations on words are those on finite sets, however they are combined.
-/

namespace CallFacts.RegisterSet

variable {s : RegisterSet} {r : Register}

/-! ### Taking out members -/

theorem isEmpty_iff : s.isEmpty = true ↔ s.toList = [] := by
  rw [isEmpty, beq_iff_eq]
  constructor
  · exact toList_of_bits_eq_zero
  · intro h
    by_contra hne
    rw [toList_of_bits_ne_zero hne] at h
    cases h

theorem toList_withoutLowest (s : RegisterSet) : s.withoutLowest.toList = s.toList.tail := by
  by_cases h : s.bits = 0#64
  · have hsame : s.withoutLowest = s := by
      refine ext fun r => iff_of_false (fun hr => ?_) (not_mem_of_bits_eq_zero h r)
      rw [mem_iff, withoutLowest, Word.getLsbD_withoutLowest, h] at hr
      simp at hr
    rw [hsame, toList_of_bits_eq_zero h, List.tail_nil]
  · rw [toList_of_bits_ne_zero h, List.tail_cons]

/-- After some steps the rest of the list is left. -/
theorem toList_iterate_withoutLowest (s : RegisterSet) (k : Nat) : (withoutLowest^[k] s).toList = s.toList.drop k := by
  induction k generalizing s with
  | zero => rfl
  | succ k ih => rw [Function.iterate_succ_apply, ih, toList_withoutLowest, List.drop_tail]

theorem ofList_toList (s : RegisterSet) : ofList s.toList = s := ext fun r => by rw [mem_ofList, mem_toList]

/-! ### Counting bits -/

theorem cpopNatRec_eq_countP (w : Word) (n : Nat) : w.cpopNatRec n 0 = (List.range n).countP w.getLsbD := by
  induction n with
  | zero => rfl
  | succ n ih =>
    rw [BitVec.cpopNatRec_succ, BitVec.cpopNatRec_eq, ih, List.range_succ, List.countP_append, List.countP_singleton]
    cases w.getLsbD n <;> simp

theorem size_eq_cpop (s : RegisterSet) : s.size = s.bits.cpop.toNat := by
  rw [BitVec.toNat_cpop, cpopNatRec_eq_countP, ← List.map_coe_finRange_eq_range, List.countP_map, size, Register.all]
  exact List.countP_congr fun r _ => by simp [mem_iff]

/-! ### Sets that are put together -/

/-- How a set comes about: from a word, a list or a bound, and by the operations on sets. -/
inductive Term where
  | empty
  | mask (bits : Word)
  | collected (rs : List Register)
  | first (count : Nat)
  | insert (e : Term) (r : Register)
  | erase (e : Term) (r : Register)
  | union (e e' : Term)
  | inter (e e' : Term)

namespace Term

/-- The set, by the operations on words. -/
def set : Term → RegisterSet
  | empty => ∅
  | mask bits => ⟨bits⟩
  | collected rs => .ofList rs
  | first count => .below count
  | insert e r => e.set.insert r
  | erase e r => e.set.erase r
  | union e e' => e.set ∪ e'.set
  | inter e e' => e.set ∩ e'.set

/-- The finite set, by the operations on finite sets. -/
def members : Term → Finset Register
  | empty => ∅
  | mask bits => Finset.univ.filter fun r => bits.toNat.testBit r.val
  | collected rs => rs.toFinset
  | first count => Finset.univ.filter fun r => r.val < count
  | insert e r => Insert.insert r e.members
  | erase e r => e.members.erase r
  | union e e' => e.members ∪ e'.members
  | inter e e' => e.members ∩ e'.members

theorem mem_set_iff (e : Term) : r ∈ e.set ↔ r ∈ e.members := by
  induction e with
  | empty => simp [set, members]
  | mask bits => simp [set, members, mem_iff, BitVec.testBit_toNat]
  | collected rs => simp [set, members]
  | first count => simp [set, members]
  | insert e q ih => simp [set, members, ih]
  | erase e q ih => simp [set, members, ih]
  | union e e' ih ih' => simp [set, members, ih, ih']
  | inter e e' ih ih' => simp [set, members, ih, ih']

end Term

/-- The list of a set is strictly ascending and has exactly its members, as many as bits are set; it is
complete after exactly so many steps, each of which leaves the rest of the list; and it gives the set
back. A set that is put together has the members of the finite set that is put together likewise. -/
theorem toList_exact (s : RegisterSet) :
    (∀ k, (withoutLowest^[k] s).toList = s.toList.drop k ∧ ((withoutLowest^[k] s).isEmpty = true ↔ s.size ≤ k)) ∧
      (s.toList.Pairwise fun q r => q < r) ∧ (∀ r, r ∈ s.toList ↔ r ∈ s) ∧
      (s.toList.length = s.size ∧ s.size = s.bits.cpop.toNat) ∧ ofList s.toList = s ∧
      ∀ (e : Term) (r : Register), r ∈ e.set ↔ r ∈ e.members := by
  refine ⟨fun k => ⟨toList_iterate_withoutLowest s k, ?_⟩, ascending_toList s, fun r => mem_toList,
    ⟨length_toList s, size_eq_cpop s⟩, ofList_toList s, fun e r => e.mem_set_iff⟩
  rw [isEmpty_iff, toList_iterate_withoutLowest, List.drop_eq_nil_iff, length_toList]

example : (ofList [12, 1, 63, 1]).toList = [1, 12, 63] := by decide +kernel

end CallFacts.RegisterSet
