import MySQL.Strings.Decimal.Basic

/-! The loops of `strings/decimal.c` that copy, add and subtract words from the right end to the
left, and what they do to the number the words make up. -/
namespace MySQL.Decimals
open Function

/-- `while (n--) *--buf0 = *--buf1`: the words from `p₁` on go to `p₀`. -/
def copyWords (source : Nat → Nat) (p₁ p₀ : Nat) : (n : Nat) → (Nat → Nat) → Nat → Nat
  | 0, mem => mem
  | n + 1, mem => copyWords source p₁ p₀ n (Function.update mem (p₀ + n) (source (p₁ + n)))

def addWord (x y carry : Nat) : Nat :=
  if 10 ^ 9 ≤ x + y + carry then x + y + carry - 10 ^ 9 else x + y + carry

def addCarry (x y carry : Nat) : Nat := if 10 ^ 9 ≤ x + y + carry then 1 else 0

/-- `n` times `ADD(*--buf0, *--buf1, *--buf2, carry)`, down to the words at `p₀`, `p₁` and `p₂` -/
def addWords (source₁ source₂ : Nat → Nat) (p₁ p₂ p₀ : Nat) :
    (n carry : Nat) → (Nat → Nat) → Nat × (Nat → Nat)
  | 0, carry, mem => (carry, mem)
  | n + 1, carry, mem =>
    addWords source₁ source₂ p₁ p₂ p₀ n (addCarry (source₁ (p₁ + n)) (source₂ (p₂ + n)) carry)
      (Function.update mem (p₀ + n) (addWord (source₁ (p₁ + n)) (source₂ (p₂ + n)) carry))

def subWord (x y carry : Nat) : Nat := if x < y + carry then x + 10 ^ 9 - (y + carry) else x - (y + carry)

def subCarry (x y carry : Nat) : Nat := if x < y + carry then 1 else 0

/-- `n` times `SUB(*--buf0, *--buf1, *--buf2, carry)`, down to the words at `p₀`, `p₁` and `p₂` -/
def subWords (source₁ source₂ : Nat → Nat) (p₁ p₂ p₀ : Nat) :
    (n carry : Nat) → (Nat → Nat) → Nat × (Nat → Nat)
  | 0, carry, mem => (carry, mem)
  | n + 1, carry, mem =>
    subWords source₁ source₂ p₁ p₂ p₀ n (subCarry (source₁ (p₁ + n)) (source₂ (p₂ + n)) carry)
      (Function.update mem (p₀ + n) (subWord (source₁ (p₁ + n)) (source₂ (p₂ + n)) carry))

/-- What a loop has written: `n` words of nine digits from `p` on that make up `value`, and
nothing else. -/
structure Wrote (mem mem' : Nat → Nat) (p n value : Nat) : Prop where
  word : ∀ i < n, mem' (p + i) < 10 ^ 9
  value : wordsValue mem' p n = value
  else_same : ∀ i, i < p ∨ p + n ≤ i → mem' i = mem i

namespace Wrote

variable {mem mem' mem'' : Nat → Nat} {p q m n v w : Nat}

theorem nil (mem : Nat → Nat) (p : Nat) : Wrote mem mem p 0 0 := ⟨by simp, rfl, fun _ _ => rfl⟩

/-- First the words at the right, then those to their left -/
theorem append (hRight : Wrote mem mem' (p + m) n v) (hLeft : Wrote mem' mem'' p m w) :
    Wrote mem mem'' p (m + n) (w * (10 ^ 9) ^ n + v) := by
  have hKeep : ∀ i, mem'' (p + m + i) = mem' (p + m + i) := fun i => hLeft.else_same _ (.inr (by omega))
  refine ⟨fun i hi => ?_, ?_, fun i hi => ?_⟩
  · by_cases hm : i < m
    · exact hLeft.word i hm
    · have := hRight.word (i - m) (by omega)
      rwa [← hKeep, show p + m + (i - m) = p + i by omega] at this
  · rw [wordsValue_add, hLeft.value, wordsValue_congr fun i _ => hKeep i, hRight.value]
  · rw [hLeft.else_same i (by omega), hRight.else_same i (by omega)]

theorem join {k : Nat} (hRight : Wrote mem mem' q n v) (hLeft : Wrote mem' mem'' p m w) (hPlace : q = p + m)
    (hCount : k = m + n) : Wrote mem mem'' p k (w * (10 ^ 9) ^ n + v) := by
  subst hPlace hCount
  exact hRight.append hLeft

/-- First the words at the left, then those to their right -/
theorem extend (hLeft : Wrote mem mem' p m w) (hRight : Wrote mem' mem'' (p + m) n v) :
    Wrote mem mem'' p (m + n) (w * (10 ^ 9) ^ n + v) := by
  have hKeep : ∀ i < m, mem'' (p + i) = mem' (p + i) := fun i hi => hRight.else_same _ (.inl (by omega))
  refine ⟨fun i hi => ?_, ?_, fun i hi => ?_⟩
  · by_cases hm : i < m
    · rw [hKeep i hm]
      exact hLeft.word i hm
    · have := hRight.word (i - m) (by omega)
      rwa [show p + m + (i - m) = p + i by omega] at this
  · rw [wordsValue_add, wordsValue_congr hKeep, hLeft.value, hRight.value]
  · rw [hRight.else_same i (by omega), hLeft.else_same i (by omega)]

theorem trans (h : Wrote mem mem' p n v) (h' : Wrote mem' mem'' p n w) : Wrote mem mem'' p n w :=
  ⟨h'.word, h'.value, fun i hi => (h'.else_same i hi).trans (h.else_same i hi)⟩

/-- Words to the right that were there before -/
theorem widen {k : Nat} (h : Wrote mem mem' p n v) (hRest : ∀ i < k, mem (p + n + i) < 10 ^ 9) :
    Wrote mem mem' p (n + k) (v * (10 ^ 9) ^ k + wordsValue mem (p + n) k) := by
  have hRight : Wrote mem mem (p + n) k (wordsValue mem (p + n) k) := ⟨hRest, rfl, fun _ _ => rfl⟩
  exact hRight.append h

theorem singleton {x : Nat} (hx : x < 10 ^ 9) : Wrote mem (update mem p x) p 1 x := by
  refine ⟨fun i hi => ?_, ?_, fun i hi => ?_⟩
  · obtain rfl : i = 0 := by omega
    simpa using hx
  · simp [wordsValue]
  · exact update_of_ne (by omega) ..

end Wrote

theorem wordsValue_concat (buf : Nat → Nat) (p n : Nat) :
    wordsValue buf p (n + 1) = wordsValue buf p n * 10 ^ 9 + buf (p + n) := by
  rw [wordsValue_add]
  simp [wordsValue]

/-- The upper half of a product leaves room for two carries. -/
theorem product_high {x y : Nat} (hx : x < 10 ^ 9) (hy : y < 10 ^ 9) : x * y / 10 ^ 9 + 2 ≤ 10 ^ 9 := by
  have hProduct : x * y ≤ (10 ^ 9 - 1) * (10 ^ 9 - 1) := Nat.mul_le_mul (by omega) (by omega)
  omega

/-- The first words, by division -/
theorem wordsValue_div {buf : Nat → Nat} {pos m n : Nat} (h : ∀ i < n, buf (pos + m + i) < 10 ^ 9) :
    wordsValue buf pos (m + n) / (10 ^ 9) ^ n = wordsValue buf pos m := by
  rw [wordsValue_add, add_comm, Nat.add_mul_div_right _ _ (by positivity),
    Nat.div_eq_of_lt (wordsValue_lt h), zero_add]

section Loops

variable {source source₁ source₂ mem : Nat → Nat} {p₁ p₂ p₀ n carry : Nat}

theorem copyWords_wrote (source mem : Nat → Nat) (p₁ p₀ : Nat) (h : ∀ i < n, source (p₁ + i) < 10 ^ 9) :
    Wrote mem (copyWords source p₁ p₀ n mem) p₀ n (wordsValue source p₁ n) := by
  induction n generalizing mem with
  | zero => exact Wrote.nil mem p₀
  | succ n ih =>
    have hLast : Wrote mem (update mem (p₀ + n) (source (p₁ + n))) (p₀ + n) 1 (source (p₁ + n)) :=
      Wrote.singleton (h n (by omega))
    have hAll := hLast.append (ih _ fun i hi => h i (by omega))
    rwa [pow_one, ← wordsValue_concat] at hAll

theorem zeros_wrote (mem : Nat → Nat) (p₀ n : Nat) : Wrote mem (copyWords (fun _ => 0) 0 p₀ n mem) p₀ n 0 := by
  have hCopy := copyWords_wrote (fun _ => 0) mem 0 p₀ (n := n) fun _ _ => by simp
  rwa [wordsValue_eq_zero fun _ _ => rfl] at hCopy

theorem addWord_spec {x y : Nat} (hx : x < 10 ^ 9) (hy : y < 10 ^ 9) (hc : carry ≤ 1) :
    addWord x y carry < 10 ^ 9 ∧ addCarry x y carry ≤ 1 ∧
      addWord x y carry + addCarry x y carry * 10 ^ 9 = x + y + carry := by
  unfold addWord addCarry
  split <;> omega

theorem subWord_spec {x y : Nat} (hx : x < 10 ^ 9) (hy : y < 10 ^ 9) (hc : carry ≤ 1) :
    subWord x y carry < 10 ^ 9 ∧ subCarry x y carry ≤ 1 ∧
      subWord x y carry + y + carry = x + subCarry x y carry * 10 ^ 9 := by
  unfold subWord subCarry
  split <;> omega

variable (source₁ source₂ mem p₁ p₂ p₀) (h₁ : ∀ i < n, source₁ (p₁ + i) < 10 ^ 9)
  (h₂ : ∀ i < n, source₂ (p₂ + i) < 10 ^ 9) (hc : carry ≤ 1)
include h₁ h₂ hc

theorem addWords_wrote :
    ∃ v, Wrote mem (addWords source₁ source₂ p₁ p₂ p₀ n carry mem).2 p₀ n v ∧
      (addWords source₁ source₂ p₁ p₂ p₀ n carry mem).1 ≤ 1 ∧
      v + (addWords source₁ source₂ p₁ p₂ p₀ n carry mem).1 * (10 ^ 9) ^ n =
        wordsValue source₁ p₁ n + wordsValue source₂ p₂ n + carry := by
  induction n generalizing mem carry with
  | zero => exact ⟨0, Wrote.nil mem p₀, hc, by simp [addWords, wordsValue]⟩
  | succ n ih =>
    obtain ⟨hWord, hCarry, hSum⟩ := addWord_spec (h₁ n (by omega)) (h₂ n (by omega)) hc
    rw [addWords]
    obtain ⟨v, hWrote, hLe, hValue⟩ :=
      ih _ (fun i hi => h₁ i (by omega)) (fun i hi => h₂ i (by omega)) hCarry
    refine ⟨_, (Wrote.singleton hWord).append hWrote, hLe, ?_⟩
    rw [wordsValue_concat, wordsValue_concat, pow_succ (10 ^ 9) n, pow_one]
    linear_combination (10 ^ 9) * hValue + hSum

theorem subWords_wrote :
    ∃ v, Wrote mem (subWords source₁ source₂ p₁ p₂ p₀ n carry mem).2 p₀ n v ∧
      (subWords source₁ source₂ p₁ p₂ p₀ n carry mem).1 ≤ 1 ∧
      v + wordsValue source₂ p₂ n + carry =
        wordsValue source₁ p₁ n + (subWords source₁ source₂ p₁ p₂ p₀ n carry mem).1 * (10 ^ 9) ^ n := by
  induction n generalizing mem carry with
  | zero => exact ⟨0, Wrote.nil mem p₀, hc, by simp [subWords, wordsValue]⟩
  | succ n ih =>
    obtain ⟨hWord, hCarry, hDiff⟩ := subWord_spec (h₁ n (by omega)) (h₂ n (by omega)) hc
    rw [subWords]
    obtain ⟨v, hWrote, hLe, hValue⟩ :=
      ih _ (fun i hi => h₁ i (by omega)) (fun i hi => h₂ i (by omega)) hCarry
    refine ⟨_, (Wrote.singleton hWord).append hWrote, hLe, ?_⟩
    rw [wordsValue_concat, wordsValue_concat, pow_succ (10 ^ 9) n, pow_one]
    linear_combination (10 ^ 9) * hValue + hDiff

end Loops

end MySQL.Decimals
