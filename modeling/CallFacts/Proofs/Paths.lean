import CallFacts.FlowGraph

/-!
# Paths of a flow graph

A path leads from the entry of a function to one of its members along the ways of its flow graph.
Paths are data, so that states and register contents can be followed along them. The members of a
graph that has been built are distinct, so a block and its local position stand for each other.
-/

namespace CallFacts

namespace FlowGraph

/-- A path from the entry to a member. -/
inductive Path (g : FlowGraph) : Fin g.members.size → Type where
  | entry : g.Path g.entry
  | extend {i : Fin g.members.size} (path : g.Path i) (way : Successor g.members.size)
      (hway : way ∈ g.successors.get i) : g.Path way.target

/-- The block is a member to which some path leads. -/
def Reaches (g : FlowGraph) (b : BlockId) : Prop := ∃ i, g.member i = b ∧ Nonempty (g.Path i)

/-! ### Members and their positions -/

theorem nodup_distinct (bs : List BlockId) : (distinct bs).Nodup := by
  induction bs with
  | nil => exact List.nodup_nil
  | cons b bs ih => exact List.nodup_cons.mpr ⟨by simp, ih.filter _⟩

/-- What is known of a flow graph once it has been built: it is that of the distinct members, its
entry is the function's, and no member or neighbour of a member is missing. -/
theorem build_eq_ok {p : Program} {ix : EdgeIndex} {f : Function} {g : FlowGraph}
    (h : build p ix f = .ok g) :
    (∀ b ∈ f.blocks, p.contains b = true) ∧
    missingSource? p ix (distinct f.blocks).toArray = none ∧
    missingTarget? p ix (distinct f.blocks).toArray = none ∧
    ∃ entry, g = ofMembers ix (distinct f.blocks).toArray entry ∧
      (distinct f.blocks).toArray[entry] = f.entry := by
  simp only [build] at h
  split at h
  · cases h
  · next hmembers =>
    split at h
    · split at h
      · cases h
      · next entry hentry =>
        split at h
        · cases h
        · cases h
        · next hsource htarget =>
          cases h
          refine ⟨?_, hsource, htarget, entry, rfl, (Array.finIdxOf?_eq_some_iff.mp hentry).1⟩
          intro b hb
          simpa using List.find?_eq_none.mp hmembers b hb
    · cases h

section

variable {p : Program} {ix : EdgeIndex} {f : Function} {g : FlowGraph}

theorem members_of_build (h : build p ix f = .ok g) : g.members = (distinct f.blocks).toArray := by
  obtain ⟨-, -, -, entry, rfl, -⟩ := build_eq_ok h
  rfl

theorem member_entry_of_build (h : build p ix f = .ok g) : g.member g.entry = f.entry := by
  obtain ⟨-, -, -, entry, rfl, hentry⟩ := build_eq_ok h
  exact hentry

theorem members_injective (h : build p ix f = .ok g) {i j : Fin g.members.size}
    (hij : g.member i = g.member j) : i = j := by
  have hnodup : g.members.toList.Nodup := by
    rw [members_of_build h]
    exact nodup_distinct f.blocks
  have hlist : g.members.toList[i.val] = g.members.toList[j.val] := by
    rw [Array.getElem_toList, Array.getElem_toList]
    exact hij
  exact Fin.ext ((List.getElem_inj hnodup).mp hlist)

theorem local?_eq_some_iff (h : build p ix f = .ok g) {b : BlockId} {i : Fin g.members.size} :
    g.local? b = some i ↔ g.member i = b := by
  rw [local?, Array.finIdxOf?_eq_some_iff]
  constructor
  · exact And.left
  · intro hb
    refine ⟨hb, ?_⟩
    intro j hj hjb
    have hji : j = i := members_injective h (hjb.trans hb.symm)
    omega

theorem local?_member (h : build p ix f = .ok g) (i : Fin g.members.size) :
    g.local? (g.member i) = some i := (local?_eq_some_iff h).mpr rfl

theorem local?_eq_none (h : build p ix f = .ok g) {b : BlockId} (hb : ∀ i, g.member i ≠ b) : g.local? b = none :=
  Option.eq_none_iff_forall_ne_some.mpr fun i hi => hb i ((local?_eq_some_iff h).mp hi)

end

end FlowGraph

end CallFacts
