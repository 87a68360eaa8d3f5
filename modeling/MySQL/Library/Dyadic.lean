import Mathlib

/-! Blocks of numbers whose size is a power of two and whose start is a multiple of the
size, and tilings with such blocks. -/
namespace Library
open Nat

@[ext]
structure Block where
  start : Nat
  exp : Nat
deriving DecidableEq, Repr

namespace Block

def size (b : Block) : Nat := 2 ^ b.exp

def stop (b : Block) : Nat := b.start + b.size

def Covers (b : Block) (x : Nat) : Prop := b.start ≤ x ∧ x < b.stop

def Aligned (b : Block) : Prop := b.size ∣ b.start

def buddy (b : Block) : Block :=
  if b.start % (2 * b.size) = 0 then ⟨b.start + b.size, b.exp⟩ else ⟨b.start - b.size, b.exp⟩

def parent (b : Block) : Block := ⟨min b.start b.buddy.start, b.exp + 1⟩

variable {b c : Block} {x : Nat}

theorem size_pos (b : Block) : 0 < b.size := Nat.two_pow_pos b.exp

theorem covers_start (b : Block) : b.Covers b.start := ⟨le_rfl, Nat.lt_add_of_pos_right b.size_pos⟩

@[simp] theorem buddy_exp (b : Block) : b.buddy.exp = b.exp := by
  unfold buddy
  split
  · rfl
  · rfl

@[simp] theorem buddy_size (b : Block) : b.buddy.size = b.size := by rw [size, buddy_exp, size]

theorem parent_size (b : Block) : b.parent.size = 2 * b.size := pow_succ'

/-- Two blocks that meet are one inside the other. -/
theorem nested (hb : b.Aligned) (hc : c.Aligned) (hExp : b.exp ≤ c.exp) (hbx : b.Covers x)
    (hcx : c.Covers x) : c.start ≤ b.start ∧ b.stop ≤ c.stop := by
  obtain ⟨q, hq⟩ := hb
  obtain ⟨t, ht⟩ : b.size ∣ c.size := pow_dvd_pow 2 hExp
  obtain ⟨r, hr⟩ : b.size ∣ c.start := Dvd.dvd.trans ⟨t, ht⟩ hc
  unfold Covers stop at *
  have hLow : r ≤ q := by
    by_contra hLess
    have hNext : b.size * (q + 1) ≤ b.size * r := mul_le_mul_left _ (by omega)
    rw [mul_add, mul_one] at hNext
    omega
  have hHigh : q + 1 ≤ r + t := by
    by_contra hLess
    have hNext : b.size * (r + t) ≤ b.size * q := mul_le_mul_left _ (by omega)
    rw [mul_add] at hNext
    omega
  have hStart := mul_le_mul_left b.size hLow
  have hStop := mul_le_mul_left b.size hHigh
  rw [mul_add, mul_add, mul_one] at hStop
  exact ⟨by omega, by omega⟩

section
variable (h : b.Aligned)
include h

/-- A block is the lower or the upper half of its parent. -/
theorem Aligned.halves : (b.start % (2 * b.size) = 0 ∧ b.buddy = ⟨b.start + b.size, b.exp⟩ ∧
      b.parent = ⟨b.start, b.exp + 1⟩ ∧ b.parent.Aligned) ∨
    (b.start % (2 * b.size) ≠ 0 ∧ b.size ≤ b.start ∧ b.buddy = ⟨b.start - b.size, b.exp⟩ ∧
      b.parent = ⟨b.start - b.size, b.exp + 1⟩ ∧ b.parent.Aligned) := by
  obtain ⟨q, hq⟩ := h
  by_cases hLower : b.start % (2 * b.size) = 0
  · have hBuddy : b.buddy = ⟨b.start + b.size, b.exp⟩ := by rw [buddy, if_pos hLower]
    have hParent : b.parent = ⟨b.start, b.exp + 1⟩ := by
      rw [parent, hBuddy]
      simp
    refine Or.inl ⟨hLower, hBuddy, hParent, ?_⟩
    rw [Aligned, parent_size, hParent]
    exact dvd_of_mod_eq_zero hLower
  · have hBuddy : b.buddy = ⟨b.start - b.size, b.exp⟩ := by rw [buddy, if_neg hLower]
    have hParent : b.parent = ⟨b.start - b.size, b.exp + 1⟩ := by
      rw [parent, hBuddy]
      simp
    -- an odd multiple of the size
    obtain ⟨r, rfl⟩ : ∃ r, q = 2 * r + 1 := by
      rcases even_or_odd' q with ⟨r, rfl | rfl⟩
      · refine absurd ?_ hLower
        rw [hq, ← mul_assoc, mul_comm b.size 2]
        exact mul_mod_right _ _
      · exact ⟨r, rfl⟩
    have hStart : b.start = 2 * b.size * r + b.size := by
      rw [hq]
      ring
    refine Or.inr ⟨hLower, by omega, hBuddy, hParent, ?_⟩
    rw [Aligned, parent_size, hParent, hStart, Nat.add_sub_cancel]
    exact dvd_mul_right _ _

theorem Aligned.buddy : (Block.buddy b).Aligned := by
  rw [Aligned, buddy_size]
  rcases h.halves with ⟨-, hBuddy, -, -⟩ | ⟨-, hLe, hBuddy, -, -⟩
  · rw [hBuddy]
    exact Nat.dvd_add h (dvd_refl _)
  · rw [hBuddy]
    exact dvd_sub h (dvd_refl _)

theorem Aligned.parent : b.parent.Aligned := by
  rcases h.halves with ⟨-, -, -, hParent⟩ | ⟨-, -, -, -, hParent⟩
  · exact hParent
  · exact hParent

/-- The parent has what the block and its buddy have. -/
theorem covers_parent_iff : b.parent.Covers x ↔ b.Covers x ∨ b.buddy.Covers x := by
  have hSize := b.parent_size
  have hSame := b.buddy_size
  unfold Covers stop
  rw [hSize, hSame]
  rcases h.halves with ⟨-, hBuddy, hParent, -⟩ | ⟨-, hLe, hBuddy, hParent, -⟩
  · rw [hBuddy, hParent]
    dsimp only
    omega
  · rw [hBuddy, hParent]
    dsimp only
    omega

theorem not_covers_buddy (hx : b.Covers x) : ¬ b.buddy.Covers x := by
  have hSame := b.buddy_size
  unfold Covers stop at *
  rw [hSame]
  rcases h.halves with ⟨-, hBuddy, -, -⟩ | ⟨-, hLe, hBuddy, -, -⟩
  · rw [hBuddy]
    dsimp only
    omega
  · rw [hBuddy]
    dsimp only
    omega

theorem buddy_buddy : b.buddy.buddy = b := by
  have hPos := b.size_pos
  rcases h.halves with ⟨hLower, hBuddy, -, -⟩ | ⟨-, hLe, hBuddy, hParent, hAligned⟩
  · have hUpper : (b.start + b.size) % (2 * b.size) ≠ 0 := by
      rw [add_mod, hLower, zero_add, mod_mod, mod_eq_of_lt (by omega)]
      omega
    rw [hBuddy, buddy]
    change (if (b.start + b.size) % (2 * b.size) = 0 then _ else mk (b.start + b.size - b.size) b.exp) = b
    rw [if_neg hUpper, Nat.add_sub_cancel]
  · have hLower : (b.start - b.size) % (2 * b.size) = 0 := by
      rw [Aligned, parent_size, hParent] at hAligned
      exact mod_eq_zero_of_dvd hAligned
    rw [hBuddy, buddy]
    change (if (b.start - b.size) % (2 * b.size) = 0 then mk (b.start - b.size + b.size) b.exp else _) = b
    rw [if_pos hLower, Nat.sub_add_cancel hLe]

end

end Block

open Finset Block

structure Tiles (S : Finset Block) (n : Nat) : Prop where
  aligned : ∀ b ∈ S, b.Aligned
  stop : ∀ b ∈ S, b.stop ≤ n
  covers : ∀ x, x < n → ∃ b ∈ S, b.Covers x
  unique : ∀ b ∈ S, ∀ c ∈ S, ∀ x, b.Covers x → c.Covers x → b = c

def NoBuddies (S : Finset Block) : Prop := ∀ b ∈ S, b.buddy ∉ S

theorem NoBuddies.mono {S T : Finset Block} (h : NoBuddies T) (hSub : S ⊆ T) : NoBuddies S :=
  fun b hb hBuddy => h b (hSub hb) (hSub hBuddy)

theorem NoBuddies.insert {S : Finset Block} {b : Block} (h : NoBuddies S) (hAligned : ∀ c ∈ S, c.Aligned)
    (hb : b.Aligned) (hBuddy : b.buddy ∉ S) : NoBuddies (insert b S) := by
  have hSelf : b.buddy ≠ b := fun hEq => not_covers_buddy hb b.covers_start (hEq.symm ▸ b.covers_start)
  intro c hc hcBuddy
  rcases mem_insert.mp hc with rfl | hcS
  · rcases mem_insert.mp hcBuddy with hEq | hIn
    · exact hSelf hEq
    · exact hBuddy hIn
  · rcases mem_insert.mp hcBuddy with hEq | hIn
    · rw [← hEq, buddy_buddy (hAligned c hcS)] at hBuddy
      exact hBuddy hcS
    · exact h c hcS hIn

namespace Tiles
variable {S T : Finset Block} {n : Nat} {b c : Block}

section
variable (h : Tiles S n)
include h

theorem eq_of_start (hb : b ∈ S) (hc : c ∈ S) (hStart : c.start = b.start) : c = b :=
  h.unique c hc b hb b.start (hStart ▸ c.covers_start) b.covers_start

/-- Where the buddy of a block would be, a block starts that is not larger. -/
theorem start_buddy (hb : b ∈ S) (hStop : b.buddy.stop ≤ n) :
    ∃ c ∈ S, c.start = b.buddy.start ∧ c.exp ≤ b.exp := by
  have hAligned := h.aligned b hb
  have hCovers := b.buddy.covers_start
  obtain ⟨c, hc, hcx⟩ := h.covers b.buddy.start (lt_of_lt_of_le hCovers.2 hStop)
  rcases lt_or_ge b.exp c.exp with hLarge | hSmall
  · -- a larger block would have the whole of the parent, and `b` with it
    have hParent : b.parent.Covers b.buddy.start := (covers_parent_iff hAligned).mpr (.inr hCovers)
    have hInside := nested hAligned.parent (h.aligned c hc) hLarge hParent hcx
    have hMeet : b.parent.Covers b.start := (covers_parent_iff hAligned).mpr (.inl b.covers_start)
    have hEq : c = b := h.unique c hc b hb b.start
      ⟨hInside.1.trans hMeet.1, lt_of_lt_of_le hMeet.2 hInside.2⟩ b.covers_start
    exact absurd (hEq ▸ hLarge) (lt_irrefl _)
  · refine ⟨c, hc, ?_, hSmall⟩
    have hInside := nested (h.aligned c hc) hAligned.buddy (by rwa [buddy_exp]) hcx hCovers
    exact le_antisymm hcx.1 hInside.1

/-- Some of the blocks may be replaced by others that cover the same numbers. -/
theorem replace {old new : Finset Block} (hOld : old ⊆ S) (hAligned : ∀ b ∈ new, b.Aligned)
    (hCovers : ∀ x, (∃ b ∈ new, b.Covers x) ↔ ∃ b ∈ old, b.Covers x)
    (hUnique : ∀ b ∈ new, ∀ c ∈ new, ∀ x, b.Covers x → c.Covers x → b = c) :
    Tiles ((S \ old) ∪ new) n := by
  have hSeparate : ∀ b ∈ S \ old, ∀ c ∈ new, ∀ x, b.Covers x → ¬ c.Covers x := by
    intro b hb c hc x hbx hcx
    obtain ⟨hbS, hbOld⟩ := mem_sdiff.mp hb
    obtain ⟨d, hd, hdx⟩ := (hCovers x).mp ⟨c, hc, hcx⟩
    exact hbOld (h.unique b hbS d (hOld hd) x hbx hdx ▸ hd)
  constructor
  · intro b hb
    rcases mem_union.mp hb with hKept | hNew
    · exact h.aligned b (mem_sdiff.mp hKept).1
    · exact hAligned b hNew
  · intro b hb
    rcases mem_union.mp hb with hKept | hNew
    · exact h.stop b (mem_sdiff.mp hKept).1
    · have hPos := b.size_pos
      have hLast : b.Covers (b.stop - 1) := by
        unfold Covers Block.stop
        omega
      obtain ⟨d, hd, hdx⟩ := (hCovers _).mp ⟨b, hNew, hLast⟩
      have hStop := h.stop d (hOld hd)
      have hLess := hdx.2
      omega
  · intro x hx
    obtain ⟨b, hb, hbx⟩ := h.covers x hx
    by_cases hbOld : b ∈ old
    · obtain ⟨c, hc, hcx⟩ := (hCovers x).mpr ⟨b, hbOld, hbx⟩
      exact ⟨c, mem_union_right _ hc, hcx⟩
    · exact ⟨b, mem_union_left _ (mem_sdiff.mpr ⟨hb, hbOld⟩), hbx⟩
  · intro b hb c hc x hbx hcx
    rcases mem_union.mp hb with hKept | hNew
    · rcases mem_union.mp hc with hKept' | hNew'
      · exact h.unique b (mem_sdiff.mp hKept).1 c (mem_sdiff.mp hKept').1 x hbx hcx
      · exact absurd hcx (hSeparate b hKept c hNew' x hbx)
    · rcases mem_union.mp hc with hKept' | hNew'
      · exact absurd hbx (hSeparate c hKept' b hNew x hcx)
      · exact hUnique b hNew c hNew' x hbx hcx

/-- Two buddies may become one block. -/
theorem merge (hb : b ∈ S) (hBuddy : b.buddy ∈ S) : Tiles ((S \ {b, b.buddy}) ∪ {b.parent}) n := by
  have hAligned := h.aligned b hb
  refine h.replace ?_ ?_ (fun x => ?_) ?_
  · intro c hc
    rcases mem_insert.mp hc with rfl | hc
    · exact hb
    · exact mem_singleton.mp hc ▸ hBuddy
  · intro c hc
    rw [mem_singleton.mp hc]
    exact hAligned.parent
  · simp [covers_parent_iff hAligned]
  · intro c hc d hd x _ _
    rw [mem_singleton.mp hc, mem_singleton.mp hd]

/-- A block may become two buddies. -/
theorem split (hb : b ∈ S) (hc : c.Aligned) (hParent : c.parent = b) :
    Tiles ((S \ {b}) ∪ {c, c.buddy}) n := by
  refine h.replace (singleton_subset_iff.mpr hb) ?_ (fun x => ?_) ?_
  · intro d hd
    rcases mem_insert.mp hd with rfl | hd
    · exact hc
    · rw [mem_singleton.mp hd]
      exact hc.buddy
  · simp [← hParent, covers_parent_iff hc]
  · intro d hd e he x hdx hex
    simp only [mem_insert, mem_singleton] at hd he
    rcases hd with rfl | rfl
    · rcases he with rfl | rfl
      · rfl
      · exact absurd hex (not_covers_buddy hc hdx)
    · rcases he with rfl | rfl
      · exact absurd hdx (not_covers_buddy hc hex)
      · rfl

/-- A tiling goes on with a block behind it. -/
theorem append (hb : b.Aligned) (hStart : b.start = n) : Tiles (insert b S) b.stop := by
  have hPos := b.size_pos
  have hBefore : ∀ c ∈ S, ∀ x, c.Covers x → x < b.start := fun c hc x hx => by
    have hStop := h.stop c hc
    have hLess := hx.2
    omega
  constructor
  · intro c hc
    rcases mem_insert.mp hc with rfl | hc
    · exact hb
    · exact h.aligned c hc
  · intro c hc
    rcases mem_insert.mp hc with rfl | hc
    · exact le_rfl
    · have hStop := h.stop c hc
      unfold Block.stop at *
      omega
  · intro x hx
    by_cases hOld : x < n
    · obtain ⟨c, hc, hcx⟩ := h.covers x hOld
      exact ⟨c, mem_insert_of_mem hc, hcx⟩
    · exact ⟨b, mem_insert_self b S, by omega, hx⟩
  · intro c hc d hd x hcx hdx
    rcases mem_insert.mp hc with rfl | hcS
    · rcases mem_insert.mp hd with rfl | hdS
      · rfl
      · exact absurd (hBefore d hdS x hdx) (by have hLow := hcx.1; omega)
    · rcases mem_insert.mp hd with rfl | hdS
      · exact absurd (hBefore c hcS x hcx) (by have hLow := hdx.1; omega)
      · exact h.unique c hcS d hdS x hcx hdx

end

/-- A tiling without buddies has no block that is smaller than it could be. -/
theorem exp_le (h : Tiles T n) (hNone : NoBuddies T) (hb : b.Aligned) (hStop : b.stop ≤ n) (hc : c ∈ T) {x : Nat}
    (hcx : c.Covers x) (hbx : b.Covers x) : b.exp ≤ c.exp := by
  -- on the size of the block, from the small ones up
  induction hExp : c.exp using Nat.strong_induction_on generalizing c x with
  | _ k ih =>
    by_contra hLess
    have hAligned := h.aligned c hc
    have hParent : c.parent.Covers x := (covers_parent_iff hAligned).mpr (.inl hcx)
    have hInside := nested hAligned.parent hb (show c.exp + 1 ≤ b.exp by omega) hParent hbx
    have hMeets : ∀ y, c.buddy.Covers y → b.Covers y := fun y hy => by
      have hy' : c.parent.Covers y := (covers_parent_iff hAligned).mpr (.inr hy)
      exact ⟨hInside.1.trans hy'.1, lt_of_lt_of_le hy'.2 hInside.2⟩
    have hBuddyStop : c.buddy.stop ≤ n := by
      have hPos := c.buddy.size_pos
      have hLast := hMeets (c.buddy.stop - 1) (by unfold Covers Block.stop; omega)
      have hLess' := hLast.2
      omega
    obtain ⟨d, hd, hStart, hSmall⟩ := h.start_buddy hc hBuddyStop
    have hdx : b.Covers d.start := hStart ▸ hMeets _ c.buddy.covers_start
    rcases lt_or_ge d.exp c.exp with hSmaller | hSame
    · have hEnough := ih d.exp (by omega) hd d.covers_start hdx rfl
      omega
    · have hEq : d = c.buddy := Block.ext hStart (by rw [buddy_exp]; exact le_antisymm hSmall hSame)
      exact hNone c hc (hEq ▸ hd)

section
variable (hS : Tiles S n) (hT : Tiles T n) (hNoneS : NoBuddies S) (hNoneT : NoBuddies T)
include hS hT hNoneS hNoneT

theorem subset_of_noBuddies : S ⊆ T := by
  intro b hb
  have hStop := hS.stop b hb
  obtain ⟨c, hc, hcx⟩ := hT.covers b.start (lt_of_lt_of_le b.covers_start.2 hStop)
  have hLow := hT.exp_le hNoneT (hS.aligned b hb) hStop hc hcx b.covers_start
  have hHigh := hS.exp_le hNoneS (hT.aligned c hc) (hT.stop c hc) hb b.covers_start hcx
  have hInside := nested (hS.aligned b hb) (hT.aligned c hc) hLow b.covers_start hcx
  have hInside' := nested (hT.aligned c hc) (hS.aligned b hb) hHigh hcx b.covers_start
  have hEq : c = b := Block.ext (le_antisymm hInside.1 hInside'.1) (le_antisymm hHigh hLow)
  exact hEq ▸ hc

/-- There is one tiling without buddies. -/
theorem eq_of_noBuddies : S = T :=
  Subset.antisymm (hS.subset_of_noBuddies hT hNoneS hNoneT) (hT.subset_of_noBuddies hS hNoneT hNoneS)

end

end Tiles

end Library
