import Mathlib

/-! Memory cells indexed by naturals. The cells from `lo` to `hi` are compared
as multisets; a rearrangement of them fixes every cell outside the block. -/
namespace Library
open Finset Function

universe u
variable {α : Type u}

def cells (a : Nat → α) (lo hi : Nat) : Multiset α :=
  (Finset.Icc lo hi).val.map a

theorem card_cells (a : Nat → α) (lo hi : Nat) : (cells a lo hi).card = hi + 1 - lo := by
  simp [cells]

variable {a : Nat → α} {lo hi : Nat}

theorem cells_congr {b : Nat → α} (h : ∀ i, lo ≤ i → i ≤ hi → a i = b i) :
    cells a lo hi = cells b lo hi := by
  apply Multiset.map_congr rfl
  intro i hi
  rw [mem_val, mem_Icc] at hi
  exact h i hi.1 hi.2

theorem mem_cells {x : α} : x ∈ cells a lo hi ↔ ∃ i, lo ≤ i ∧ i ≤ hi ∧ a i = x := by
  simp [cells, and_assoc]

variable {i : Nat}

theorem cells_eq_cons (hLo : lo ≤ i) (hHi : i ≤ hi) :
    cells a lo hi = a i ::ₘ ((Finset.Icc lo hi).erase i).val.map a := by
  have hMem : i ∈ Icc lo hi := mem_Icc.mpr ⟨hLo, hHi⟩
  rw [cells, ← Multiset.map_cons, erase_val, Multiset.cons_erase hMem]

/-- Overwriting one cell exchanges its old value for the new one. -/
theorem cells_update (hLo : lo ≤ i) (hHi : i ≤ hi) (x : α) :
    a i ::ₘ cells (update a i x) lo hi = x ::ₘ cells a lo hi := by
  rw [cells_eq_cons hLo hHi, cells_eq_cons hLo hHi, update_self, Multiset.cons_swap]
  congr 2
  apply Multiset.map_congr rfl
  intro j hj
  rw [mem_val, mem_erase] at hj
  exact update_of_ne hj.1 x a

/-- Moving a value from cell `j` into the hole `i` keeps the values in the block
together with the value `x` held outside. -/
theorem cells_move {j : Nat} (hi' : lo ≤ i ∧ i ≤ hi) (hj : lo ≤ j ∧ j ≤ hi) (hNe : j ≠ i) (x : α) :
    cells (update (update a i (a j)) j x) lo hi = cells (update a i x) lo hi := by
  have hHole := cells_update (a := a) hi'.1 hi'.2 (a j)
  have hDirect := cells_update (a := a) hi'.1 hi'.2 x
  have hMoved := cells_update (a := update a i (a j)) hj.1 hj.2 x
  rw [update_of_ne hNe] at hMoved
  apply (Multiset.cons_inj_right (a j)).mp
  rw [hMoved]
  apply (Multiset.cons_inj_right (a i)).mp
  rw [Multiset.cons_swap, hHole, Multiset.cons_swap (a i) (a j), hDirect, Multiset.cons_swap]

theorem cells_update_of_lt (h : i < lo ∨ hi < i) (x : α) :
    cells (update a i x) lo hi = cells a lo hi := by
  apply cells_congr
  intro j hLo hHi
  have hNe : j ≠ i := by omega
  exact update_of_ne hNe x a

theorem cells_succ (h : lo ≤ hi + 1) : cells a lo (hi + 1) = a (hi + 1) ::ₘ cells a lo hi := by
  rw [cells_eq_cons h le_rfl]
  have hErase : (Icc lo (hi + 1)).erase (hi + 1) = Icc lo hi := by
    ext i
    simp only [mem_erase, mem_Icc]
    omega
  rw [hErase, cells]

/-- `b` rearranges the cells of `a` from `lo` to `hi` and keeps the others. -/
def Rearranged (lo hi : Nat) (a b : Nat → α) : Prop :=
  ∃ σ : Equiv.Perm Nat, (∀ i, ¬(lo ≤ i ∧ i ≤ hi) → σ i = i) ∧ b = a ∘ σ

namespace Rearranged
variable {lo hi : Nat} {a b c : Nat → α}

theorem refl (lo hi : Nat) (a : Nat → α) : Rearranged lo hi a a :=
  ⟨Equiv.refl Nat, fun _ _ => rfl, rfl⟩

theorem trans (first : Rearranged lo hi a b) (second : Rearranged lo hi b c) :
    Rearranged lo hi a c := by
  obtain ⟨σ, hσ, rfl⟩ := first
  obtain ⟨τ, hτ, rfl⟩ := second
  refine ⟨τ.trans σ, fun i hi => ?_, rfl⟩
  rw [Equiv.trans_apply, hτ i hi, hσ i hi]

theorem mono {lo' hi' : Nat} (h : Rearranged lo hi a b) (hLo : lo' ≤ lo) (hHi : hi ≤ hi') :
    Rearranged lo' hi' a b := by
  obtain ⟨σ, hσ, rfl⟩ := h
  exact ⟨σ, fun i hi => hσ i (by omega), rfl⟩

theorem swap (a : Nat → α) {i j : Nat} (hi' : lo ≤ i ∧ i ≤ hi) (hj : lo ≤ j ∧ j ≤ hi) :
    Rearranged lo hi a (a ∘ Equiv.swap i j) := by
  refine ⟨Equiv.swap i j, fun k hk => Equiv.swap_apply_of_ne_of_ne ?_ ?_, rfl⟩
  · rintro rfl
    exact hk hi'
  · rintro rfl
    exact hk hj

theorem outside (h : Rearranged lo hi a b) {i : Nat} (hOut : i < lo ∨ hi < i) : b i = a i := by
  obtain ⟨σ, hσ, rfl⟩ := h
  rw [comp_apply, hσ i (by omega)]

/-- Each value inside the block was inside the block before. -/
theorem inside (h : Rearranged lo hi a b) {i : Nat} (hLo : lo ≤ i) (hHi : i ≤ hi) :
    ∃ j, lo ≤ j ∧ j ≤ hi ∧ b i = a j := by
  obtain ⟨σ, hσ, rfl⟩ := h
  by_contra hNone
  have hOut : ¬(lo ≤ σ i ∧ σ i ≤ hi) := fun hIn => hNone ⟨σ i, hIn.1, hIn.2, rfl⟩
  have hFix : σ i = i := σ.injective (hσ (σ i) hOut)
  exact hOut (by omega)

theorem cells_eq (h : Rearranged lo hi a b) {lo' hi' : Nat} (hLo : lo' ≤ lo) (hHi : hi ≤ hi') :
    cells b lo' hi' = cells a lo' hi' := by
  obtain ⟨σ, hσ, rfl⟩ := h.mono hLo hHi
  have hFix : (Icc lo' hi').map σ.toEmbedding = Icc lo' hi' := by
    apply eq_of_subset_of_card_le
    · intro j hj
      obtain ⟨i, hi, rfl⟩ := mem_map.mp hj
      by_contra hOut
      have hMem : ¬(lo' ≤ σ i ∧ σ i ≤ hi') := fun hIn => hOut (mem_Icc.mpr hIn)
      have hEq : σ i = i := σ.injective (hσ (σ i) hMem)
      rw [mem_Icc, ← hEq] at hi
      exact hMem hi
    · rw [card_map]
  unfold cells
  conv_rhs => rw [← hFix, map_val, Multiset.map_map]
  rfl

end Rearranged
end Library
