import CallFacts.Register

/-!
# Facts

A fact says that a register holds an exact value at an address. A fact table keeps at most one fact
for each address and register, in ascending order of address and then register.
-/

namespace CallFacts

/-- An address and a register. -/
structure Site where
  address : Word
  register : Register
deriving DecidableEq, Repr

/-- The place of a site in the order by address, then register. -/
def Site.rank (s : Site) : Nat := s.address.toNat * 64 + s.register.val

theorem Site.rank_injective {s t : Site} (h : s.rank = t.rank) : s = t := by
  obtain ⟨a, r⟩ := s
  obtain ⟨b, q⟩ := t
  simp only [rank] at h
  have ha : a.toNat = b.toNat := by omega
  have hr : r.val = q.val := by omega
  rw [BitVec.eq_of_toNat_eq ha, Fin.ext hr]

/-- A register holds a pattern of `bits` bits at an address. -/
structure Fact where
  site : Site
  value : Word
  bits : Nat
deriving DecidableEq, Repr

/-- The two's complement reading of the low `bits` bits, which are shifted to the top of the word and back; of the whole
word if the width is zero, or 64 or more. -/
def signedReading (value : Word) (bits : Nat) : Int :=
  if bits = 0 ∨ 64 ≤ bits then value.toInt
  else
    let shift := 64 - bits
    ((value <<< shift).sshiftRight shift).toInt

/-- The two's complement reading of a fact's value at its width. -/
def Fact.signed (f : Fact) : Int := signedReading f.value f.bits

/-! ### Lists in ascending order -/

/-- Puts an element into a list that ascends by `rank`, where it is merged with one of its rank. -/
def insertByRank {α : Type} (rank : α → Nat) (merge : α → α → α) (x : α) : List α → List α
  | [] => [x]
  | y :: ys =>
    if rank x < rank y then x :: y :: ys
    else if rank x = rank y then merge y x :: ys
    else y :: insertByRank rank merge x ys

section

variable {α : Type} {rank : α → Nat} {merge : α → α → α} {x : α}

theorem le_rank_of_mem_insertByRank (hmerge : ∀ y, rank (merge y x) = rank y) {k : Nat} {xs : List α}
    (hx : k < rank x) (hxs : ∀ y ∈ xs, k < rank y) : ∀ y ∈ insertByRank rank merge x xs, k < rank y := by
  induction xs with
  | nil => simpa [insertByRank] using hx
  | cons z zs ih =>
    simp only [insertByRank]
    split
    · simpa [hx] using hxs
    · split
      · intro y hy
        rcases List.mem_cons.mp hy with rfl | hy
        · rw [hmerge]
          exact hxs z List.mem_cons_self
        · exact hxs y (List.mem_cons_of_mem _ hy)
      · intro y hy
        rcases List.mem_cons.mp hy with rfl | hy
        · exact hxs y List.mem_cons_self
        · exact ih (fun y hy => hxs y (List.mem_cons_of_mem _ hy)) y hy

/-- Inserting keeps the list ascending if merging keeps the rank. -/
theorem pairwise_insertByRank (hmerge : ∀ y, rank (merge y x) = rank y) {xs : List α}
    (h : xs.Pairwise fun a b => rank a < rank b) :
    (insertByRank rank merge x xs).Pairwise fun a b => rank a < rank b := by
  induction xs with
  | nil => simp [insertByRank]
  | cons y ys ih =>
    rw [List.pairwise_cons] at h
    simp only [insertByRank]
    split
    · next hlt =>
      refine List.pairwise_cons.mpr ⟨?_, List.pairwise_cons.mpr h⟩
      intro z hz
      rcases List.mem_cons.mp hz with rfl | hz
      · exact hlt
      · exact Nat.lt_trans hlt (h.1 z hz)
    · split
      · exact List.pairwise_cons.mpr ⟨fun z hz => by rw [hmerge]; exact h.1 z hz, h.2⟩
      · exact List.pairwise_cons.mpr
          ⟨le_rank_of_mem_insertByRank hmerge (by omega) h.1, ih h.2⟩

end

/-! ### Fact tables -/

/-- Facts in ascending order, at most one for each site. -/
structure FactTable where
  facts : List Fact
  ascending : facts.Pairwise fun a b => a.site.rank < b.site.rank

namespace FactTable

/-- The table without facts. -/
def empty : FactTable := ⟨[], .nil⟩

/-- The table with a fact in place of any other at its site. -/
def insert (t : FactTable) (f : Fact) : FactTable where
  facts := insertByRank (fun g => g.site.rank) (fun old new => { new with site := old.site }) f t.facts
  ascending := pairwise_insertByRank (fun _ => rfl) t.ascending

def get? (t : FactTable) (s : Site) : Option Fact := t.facts.find? fun f => f.site = s

def atAddress (t : FactTable) (address : Word) : List Fact := t.facts.filter fun f => f.site.address = address

/-- The table of the facts in a list; of two at one site the later stays. -/
def ofList (fs : List Fact) : FactTable := fs.foldl insert empty

def size (t : FactTable) : Nat := t.facts.length

end FactTable

end CallFacts
