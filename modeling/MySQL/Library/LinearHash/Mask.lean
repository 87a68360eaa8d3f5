import Mathlib

/-! The home of a hash number in a table of `n` slots, where `n` grows and shrinks by
one and `b` is the power of two above it. -/
namespace Library.LinearHash
open Nat

/-- The low bits of the hash number; one bit less when that is no slot. One less than
zero is all ones. -/
def mask (hashnr buffmax maxlength : Nat) : Nat :=
  if hashnr &&& (buffmax - 1) < maxlength then hashnr &&& (buffmax - 1)
  else if buffmax / 2 = 0 then hashnr
  else hashnr &&& (buffmax / 2 - 1)

structure Sized (n b : Nat) : Prop where
  pow : ∃ k, b = 2 ^ k
  half : b / 2 ≤ n
  lt : n < b

def grown (n b : Nat) : Nat := if n = b then b + b else b

def shrunk (n b : Nat) : Nat := if n < b / 2 then b / 2 else b

variable {n b : Nat} (h : Nat)

theorem mask_two_pow (k : Nat) :
    mask h (2 ^ (k + 1)) n = if h % 2 ^ (k + 1) < n then h % 2 ^ (k + 1) else h % 2 ^ k := by
  have hHalf : 2 ^ (k + 1) / 2 = 2 ^ k := by
    rw [pow_succ]
    omega
  have hPos := Nat.two_pow_pos k
  rw [mask, hHalf, if_neg (ne_of_gt hPos), and_two_pow_sub_one_eq_mod,
    and_two_pow_sub_one_eq_mod]

theorem mod_two_pow_succ (k : Nat) :
    h % 2 ^ (k + 1) = h % 2 ^ k + if h &&& 2 ^ k = 0 then 0 else 2 ^ k := by
  have hMod : h % 2 ^ (k + 1) = h % 2 ^ k + 2 ^ k * (h.testBit k).toNat := by
    rw [pow_succ, mod_mul, toNat_testBit]
  rw [hMod]
  cases hBit : h.testBit k with
  | false => simp [and_two_pow, hBit]
  | true => simp [and_two_pow, hBit]

theorem Sized.zero : Sized 0 1 := ⟨⟨0, rfl⟩, by decide, by decide⟩

namespace Sized

section
variable (hSized : Sized n b)
include hSized

/-- With slots in use the power of two has a half. -/
theorem exists_half (hn : 0 < n) : ∃ k, b = 2 ^ (k + 1) ∧ 2 ^ k ≤ n := by
  obtain ⟨⟨k, rfl⟩, hHalf, hLt⟩ := hSized
  cases k with
  | zero =>
    rw [pow_zero] at hLt
    omega
  | succ k =>
    refine ⟨k, rfl, ?_⟩
    rw [pow_succ] at hHalf
    omega

theorem mask_lt (hn : 0 < n) : mask h b n < n := by
  obtain ⟨k, rfl, hHalf⟩ := hSized.exists_half hn
  have hMod := mod_lt h (Nat.two_pow_pos k)
  rw [mask_two_pow]
  split <;> omega

/-- One more slot takes the records of one home that have the next bit. -/
theorem mask_succ (hn : 0 < n) :
    mask h b (n + 1) = if mask h b n = n - b / 2 ∧ h &&& (b / 2) ≠ 0 then n else mask h b n := by
  obtain ⟨k, rfl, hHalf⟩ := hSized.exists_half hn
  have hLt := hSized.lt
  have hSplit := mod_two_pow_succ h k
  have hMod := mod_lt h (Nat.two_pow_pos k)
  have hDiv : 2 ^ (k + 1) / 2 = 2 ^ k := by
    rw [pow_succ]
    omega
  rw [mask_two_pow, mask_two_pow, hDiv, hSplit]
  rw [pow_succ] at hLt
  generalize h % 2 ^ k = y at hMod
  generalize 2 ^ k = c at *
  by_cases hBit : h &&& c = 0
  · simp only [hBit, if_true, ne_eq, not_true_eq_false, and_false, if_false]
    split <;> split <;> omega
  · simp only [hBit, if_false, ne_eq, not_false_eq_true, and_true]
    repeat' split
    all_goals omega

theorem grow : Sized (n + 1) (grown (n + 1) b) := by
  obtain ⟨⟨k, rfl⟩, hHalf, hLt⟩ := hSized
  rw [grown]
  split
  · exact ⟨⟨k + 1, by ring⟩, by omega, by omega⟩
  · exact ⟨⟨k, rfl⟩, by omega, by omega⟩

theorem mask_grown : mask h (grown (n + 1) b) (n + 1) = mask h b (n + 1) := by
  rw [grown]
  split
  · rename_i hFull
    obtain ⟨⟨k, rfl⟩, -, -⟩ := hSized
    have hDouble : 2 ^ k + 2 ^ k = 2 ^ (k + 1) := by ring
    have hSplit := mod_two_pow_succ h k
    have hMod := mod_lt h (Nat.two_pow_pos k)
    have hSmall : mask h (2 ^ k) (2 ^ k) = h % 2 ^ k := by
      rw [mask, and_two_pow_sub_one_eq_mod, if_pos hMod]
    rw [hFull, hDouble, mask_two_pow, hSmall]
    split
    · split at hSplit <;> omega
    · rfl
  · rfl

end

theorem shrink (hSized : Sized (n + 1) b) : Sized n (shrunk n b) := by
  obtain ⟨k, rfl, hHalf⟩ := hSized.exists_half (succ_pos n)
  have hLt := hSized.lt
  have hDiv : 2 ^ (k + 1) / 2 = 2 ^ k := by
    rw [pow_succ]
    omega
  rw [shrunk, hDiv]
  split
  · exact ⟨⟨k, rfl⟩, by omega, by omega⟩
  · exact ⟨⟨k + 1, rfl⟩, by omega, by omega⟩

/-- Shrinking undoes growing. -/
theorem grown_shrunk (hSized : Sized (n + 1) b) : grown (n + 1) (shrunk n b) = b := by
  obtain ⟨k, rfl, hHalf⟩ := hSized.exists_half (succ_pos n)
  have hLt := hSized.lt
  have hDiv : 2 ^ (k + 1) / 2 = 2 ^ k := by
    rw [pow_succ]
    omega
  rw [shrunk, hDiv, grown]
  split
  · rw [if_pos (by omega), pow_succ]
    omega
  · rw [if_neg (by omega)]

/-- Growing undoes shrinking. -/
theorem shrunk_grown (hSized : Sized n b) : shrunk n (grown (n + 1) b) = b := by
  obtain ⟨-, hHalf, hLt⟩ := hSized
  rw [grown]
  split
  · rw [shrunk, if_pos (by omega)]
    omega
  · rw [shrunk, if_neg (by omega)]

end Sized

end Library.LinearHash
