import Mathlib

/-! The type `decimal_t` of `strings/decimal.c` and its value. A decimal is an
array of words of nine digits with the decimal point between two words. -/
namespace MySQL.Decimals
open Nat

/-- `decimal_t`. The words are nonnegative; `buf` is the memory that the
pointer addresses, of which the first `len` words belong to the decimal. -/
structure Decimal where
  intg : Nat
  frac : Nat
  len : Nat
  sign : Bool
  buf : Nat → Nat

inductive DecError where
  | ok
  | truncated
  | overflow
  deriving DecidableEq, Repr

/-- What a run may do that C does not define -/
inductive Fault where
  /-- a sum of type `dec1` that is no 32-bit number -/
  | range
  /-- an access outside of the words of the target -/
  | outside
  deriving DecidableEq, Repr

/-- `ROUND_UP`: the number of words for so many digits. -/
def roundUp (digits : Nat) : Nat :=
  (digits + 8) / 9

def wordsValue (buf : Nat → Nat) (pos : Nat) : Nat → Nat
  | 0 => 0
  | n + 1 => buf pos * (10 ^ 9) ^ n + wordsValue buf (pos + 1) n

section
variable {buf buf' : Nat → Nat} {pos m n : Nat}

theorem wordsValue_add (buf : Nat → Nat) (pos m n : Nat) : wordsValue buf pos (m + n) =
      wordsValue buf pos m * (10 ^ 9) ^ n + wordsValue buf (pos + m) n := by
  induction m generalizing pos with
  | zero => simp [wordsValue]
  | succ m ih =>
    rw [succ_add, wordsValue, wordsValue, ih (pos + 1), add_assoc pos 1 m,
      add_comm 1 m, pow_add]
    ring

theorem wordsValue_congr (h : ∀ i < n, buf' (pos + i) = buf (pos + i)) :
    wordsValue buf' pos n = wordsValue buf pos n := by
  induction n generalizing pos with
  | zero => rfl
  | succ n ih =>
    have hHead : buf' pos = buf pos := h 0 n.succ_pos
    have hTail : ∀ i < n, buf' (pos + 1 + i) = buf (pos + 1 + i) := by
      intro i hi
      rw [add_assoc, add_comm 1 i]
      exact h (i + 1) (succ_lt_succ hi)
    rw [wordsValue, wordsValue, hHead, ih hTail]

theorem wordsValue_shift (buf : Nat → Nat) (k pos n : Nat) :
    wordsValue (fun j => buf (k + j)) pos n = wordsValue buf (k + pos) n := by
  induction n generalizing pos with
  | zero => rfl
  | succ n ih => rw [wordsValue, wordsValue, ih, add_assoc]

theorem words_lt_tail (h : ∀ i < n + 1, buf (pos + i) < 10 ^ 9) :
    ∀ i < n, buf (pos + 1 + i) < 10 ^ 9 := by
  intro i hi
  rw [add_assoc, add_comm 1 i]
  exact h (i + 1) (succ_lt_succ hi)

theorem wordsValue_lt (h : ∀ i < n, buf (pos + i) < 10 ^ 9) :
    wordsValue buf pos n < (10 ^ 9) ^ n := by
  induction n generalizing pos with
  | zero => exact one_pos
  | succ n ih =>
    have hHead : buf pos + 1 ≤ 10 ^ 9 := h 0 n.succ_pos
    have hTail : wordsValue buf (pos + 1) n < (10 ^ 9) ^ n := ih (words_lt_tail h)
    calc wordsValue buf pos (n + 1)
        < buf pos * (10 ^ 9) ^ n + (10 ^ 9) ^ n := Nat.add_lt_add_left hTail _
      _ = (buf pos + 1) * (10 ^ 9) ^ n := by ring
      _ ≤ 10 ^ 9 * (10 ^ 9) ^ n := mul_le_mul_right _ hHead
      _ = (10 ^ 9) ^ (n + 1) := by ring

theorem wordsValue_succ_div (h : wordsValue buf (pos + 1) n < (10 ^ 9) ^ n) :
    wordsValue buf pos (n + 1) / (10 ^ 9) ^ n = buf pos := by
  rw [wordsValue, add_comm, add_mul_div_right _ _ (by positivity), div_eq_of_lt h, zero_add]

theorem wordsValue_succ_mod (h : wordsValue buf (pos + 1) n < (10 ^ 9) ^ n) :
    wordsValue buf pos (n + 1) % (10 ^ 9) ^ n = wordsValue buf (pos + 1) n := by
  rw [wordsValue, add_comm, add_mul_mod_self_right, mod_eq_of_lt h]

theorem wordsValue_eq_zero (h : ∀ i < n, buf (pos + i) = 0) : wordsValue buf pos n = 0 := by
  have hSame : wordsValue buf pos n = wordsValue (fun _ => 0) pos n := wordsValue_congr h
  rw [hSame]
  clear h hSame
  induction n generalizing pos with
  | zero => rfl
  | succ n ih => simp [wordsValue, ih]

theorem wordsValue_ne_zero {i : Nat} (hi : i < n) (h : buf (pos + i) ≠ 0) :
    wordsValue buf pos n ≠ 0 := by
  induction n generalizing pos i with
  | zero => exact absurd hi (not_lt_zero i)
  | succ n ih =>
    rw [wordsValue]
    cases i with
    | zero =>
      have hHead : buf pos * (10 ^ 9) ^ n ≠ 0 := mul_ne_zero h (by positivity)
      omega
    | succ i =>
      rw [add_comm i, ← add_assoc] at h
      have hTail := ih (lt_of_succ_lt_succ hi) h
      omega

end

namespace Decimal
variable (d : Decimal)

def integerPart : Nat :=
  wordsValue d.buf 0 (roundUp d.intg)

def mantissa : Nat :=
  wordsValue d.buf 0 (roundUp d.intg + roundUp d.frac)

def val : ℚ :=
  (if d.sign then -1 else 1) * (d.mantissa / (10 ^ 9) ^ roundUp d.frac)

/-- The words in use have nine digits at most, and the first and the last no
more digits than `intg` and `frac` say. -/
structure WellFormed : Prop where
  word : ∀ i < roundUp d.intg + roundUp d.frac, d.buf i < 10 ^ 9
  lead : d.intg % 9 ≠ 0 → d.buf 0 < 10 ^ (d.intg % 9)
  trail : d.frac % 9 ≠ 0 →
    10 ^ (9 - d.frac % 9) ∣ d.buf (roundUp d.intg + roundUp d.frac - 1)

variable {d}

/-- The digits after the last one are zero. -/
theorem WellFormed.dvd_mantissa (h : d.WellFormed) :
    10 ^ (9 * roundUp d.frac - d.frac) ∣ d.mantissa := by
  by_cases hFull : d.frac % 9 = 0
  · have hNone : 9 * roundUp d.frac - d.frac = 0 := by
      unfold roundUp
      omega
    rw [hNone, pow_zero]
    exact one_dvd _
  · have hUnused : 9 * roundUp d.frac - d.frac = 9 - d.frac % 9 := by
      unfold roundUp
      omega
    have hWords : roundUp d.intg + roundUp d.frac = roundUp d.intg + roundUp d.frac - 1 + 1 := by
      unfold roundUp
      omega
    rw [hUnused, mantissa, hWords, wordsValue_add, zero_add]
    apply dvd_add
    · rw [pow_one]
      exact Dvd.dvd.mul_left (pow_dvd_pow 10 (sub_le ..)) _
    · simpa [wordsValue] using h.trail hFull

end Decimal

/-! ### Digits in use -/

def skipZeroWords (buf : Nat → Nat) : (fuel intg i pos : Nat) → Nat × Nat
  | 0, intg, _, pos => (pos, intg)
  | fuel + 1, intg, i, pos =>
    if 0 < intg ∧ buf pos = 0 then skipZeroWords buf fuel (intg - i) 9 (pos + 1)
    else (pos, intg)

def countDigits (word : Nat) : (i intg : Nat) → Nat
  | 0, intg => intg
  | i + 1, intg => if word < 10 ^ (i + 1) then countDigits word i (intg - 1) else intg

/-- `remove_leading_zeroes`: the first word in use and the number of digits. -/
def removeLeadingZeroes (d : Decimal) : Nat × Nat :=
  let (pos, intg) := skipZeroWords d.buf (roundUp d.intg) d.intg ((d.intg - 1) % 9 + 1) 0
  if 0 < intg then (pos, countDigits (d.buf pos) ((intg - 1) % 9) intg) else (pos, 0)

def dropZeroWords (buf : Nat → Nat) : (fuel frac i pos : Nat) → Nat × Nat
  | 0, frac, _, pos => (pos, frac)
  | fuel + 1, frac, i, pos =>
    if 0 < frac ∧ buf pos = 0 then dropZeroWords buf fuel (frac - i) 9 (pos - 1)
    else (pos, frac)

def dropZeroDigits (word : Nat) : (fuel i frac : Nat) → Nat
  | 0, _, frac => frac
  | fuel + 1, i, frac =>
    if word % 10 ^ i = 0 then dropZeroDigits word fuel (i + 1) (frac - 1) else frac

def decimalActualFraction (d : Decimal) : Nat :=
  if d.frac = 0 then 0
  else
    let (pos, frac) := dropZeroWords d.buf (roundUp d.frac) d.frac ((d.frac - 1) % 9 + 1)
      (roundUp d.intg + roundUp d.frac - 1)
    if 0 < frac then dropZeroDigits (d.buf pos) 9 (9 - (frac - 1) % 9) frac else frac

structure Significant (d : Decimal) (pos k : Nat) : Prop where
  value : wordsValue d.buf pos (roundUp k) = d.integerPart
  words : pos + roundUp k = roundUp d.intg
  lt : d.integerPart < 10 ^ k
  le : k ≠ 0 → 10 ^ (k - 1) ≤ d.integerPart

private theorem skipZeroWords_spec {buf : Nat → Nat} {fuel intg i pos : Nat}
    (hFuel : roundUp intg ≤ fuel) (hi : 0 < intg → i = (intg - 1) % 9 + 1)
    (hWord : ∀ j < roundUp intg, buf (pos + j) < 10 ^ 9)
    (hLead : 0 < intg → buf pos < 10 ^ ((intg - 1) % 9 + 1)) :
    ∃ p k, skipZeroWords buf fuel intg i pos = (p, k) ∧
      wordsValue buf p (roundUp k) = wordsValue buf pos (roundUp intg) ∧
      p + roundUp k = pos + roundUp intg ∧
      (0 < k → buf p ≠ 0 ∧ buf p < 10 ^ ((k - 1) % 9 + 1)) := by
  induction fuel generalizing intg i pos with
  | zero =>
    have hZero : intg = 0 := by
      unfold roundUp at hFuel
      omega
    subst hZero
    exact ⟨pos, 0, rfl, rfl, rfl, fun h => absurd h (lt_irrefl 0)⟩
  | succ fuel ih =>
    rw [skipZeroWords]
    split_ifs with hSkip
    · obtain ⟨hPos, hWordZero⟩ := hSkip
      rw [hi hPos]
      set rest := intg - ((intg - 1) % 9 + 1)
      have hRound : roundUp intg = roundUp rest + 1 := by
        unfold roundUp
        omega
      have hFull : 0 < rest → (rest - 1) % 9 + 1 = 9 := by omega
      obtain ⟨p, k, hEq, hValue, hEnd, hFirst⟩ := @ih rest 9 (pos + 1)
        (by omega) (fun h => (hFull h).symm)
        (fun j hj => by
          have hBound := hWord (j + 1) (by omega)
          rwa [add_comm j, ← add_assoc] at hBound)
        (fun h => by
          rw [hFull h]
          refine hWord 1 ?_
          unfold roundUp
          omega)
      refine ⟨p, k, hEq, ?_, by omega, hFirst⟩
      rw [hValue, hRound, wordsValue, hWordZero, zero_mul, zero_add]
    · refine ⟨pos, intg, rfl, rfl, rfl, fun hPos => ⟨fun h => hSkip ⟨hPos, h⟩, hLead hPos⟩⟩

private theorem countDigits_spec {word i k : Nat} (hWord : word ≠ 0) (hLt : word < 10 ^ (i + 1))
    (hk : 0 < k) (hi : (k - 1) % 9 = i) :
    ∃ k', countDigits word i k = k' ∧ 0 < k' ∧ roundUp k' = roundUp k ∧
      10 ^ ((k' - 1) % 9) ≤ word ∧ word < 10 ^ ((k' - 1) % 9 + 1) := by
  induction i generalizing k with
  | zero => exact ⟨k, rfl, hk, rfl, by rw [hi]; exact pos_of_ne_zero hWord, by rwa [hi]⟩
  | succ i ih =>
    rw [countDigits]
    split_ifs with hSmall
    · obtain ⟨k', hEq, hPos, hRound, hBounds⟩ := ih (k := k - 1) hSmall (by omega) (by omega)
      refine ⟨k', hEq, hPos, hRound.trans ?_, hBounds⟩
      unfold roundUp
      omega
    · exact ⟨k, rfl, hk, rfl, by rw [hi]; exact not_lt.mp hSmall, by rwa [hi]⟩

theorem roundUp_pos {k : Nat} (h : 0 < k) : roundUp k = (k - 1) / 9 + 1 := by
  unfold roundUp
  omega

theorem removeLeadingZeroes_spec {d : Decimal} (h : d.WellFormed) :
    ∃ pos k, removeLeadingZeroes d = (pos, k) ∧ Significant d pos k := by
  have hLead : 0 < d.intg → d.buf 0 < 10 ^ ((d.intg - 1) % 9 + 1) := by
    intro hPos
    by_cases hFull : d.intg % 9 = 0
    · have hDigits : (d.intg - 1) % 9 + 1 = 9 := by omega
      rw [hDigits]
      exact h.word 0 (by unfold roundUp; omega)
    · have hDigits : (d.intg - 1) % 9 + 1 = d.intg % 9 := by omega
      rw [hDigits]
      exact h.lead hFull
  have hWord : ∀ j < roundUp d.intg, d.buf j < 10 ^ 9 := fun j hj => h.word j (by omega)
  obtain ⟨p, k, hSkip, hValue, hEnd, hFirst⟩ := skipZeroWords_spec
    (le_refl _) (fun _ => rfl) (by simpa using hWord) hLead
  rw [zero_add] at hEnd
  unfold removeLeadingZeroes
  rw [hSkip]
  rcases Nat.eq_zero_or_pos k with rfl | hPos
  · have hZero : d.integerPart = 0 := hValue.symm
    refine ⟨p, 0, rfl, hValue, hEnd, ?_, fun hNe => absurd rfl hNe⟩
    rw [hZero]
    exact one_pos
  · obtain ⟨hNonzero, hLt⟩ := hFirst hPos
    obtain ⟨k', hCount, hPos', hRound, hLow, hHigh⟩ := countDigits_spec hNonzero hLt hPos rfl
    rw [← hRound] at hValue hEnd
    dsimp only
    rw [if_pos hPos, hCount]
    obtain ⟨m, hm⟩ : ∃ m, (k' - 1) / 9 = m := ⟨_, rfl⟩
    have hSplit : d.integerPart = d.buf p * (10 ^ 9) ^ m + wordsValue d.buf (p + 1) m := by
      rw [roundUp_pos hPos', hm] at hValue
      exact hValue.symm
    have hRest : wordsValue d.buf (p + 1) m < (10 ^ 9) ^ m := by
      apply wordsValue_lt
      intro j hj
      apply hWord
      have hLen := roundUp_pos hPos'
      omega
    have hPower (e : Nat) : 10 ^ e * (10 ^ 9) ^ m = 10 ^ (9 * m + e) := by
      rw [← pow_mul, ← pow_add, add_comm]
    refine ⟨p, k', rfl, hValue, hEnd, ?_, fun _ => ?_⟩
    · calc d.integerPart < d.buf p * (10 ^ 9) ^ m + (10 ^ 9) ^ m := by omega
        _ = (d.buf p + 1) * (10 ^ 9) ^ m := by ring
        _ ≤ 10 ^ ((k' - 1) % 9 + 1) * (10 ^ 9) ^ m := mul_le_mul_right _ hHigh
        _ = 10 ^ k' := by
            rw [hPower]
            congr 1
            omega
    · calc 10 ^ (k' - 1) = 10 ^ ((k' - 1) % 9) * (10 ^ 9) ^ m := by
            rw [hPower]
            congr 1
            omega
        _ ≤ d.buf p * (10 ^ 9) ^ m := mul_le_mul_right _ hLow
        _ ≤ d.integerPart := by omega

theorem Significant.le_iff {d : Decimal} {pos k n : Nat} (h : Significant d pos k) :
    k ≤ n ↔ d.integerPart < 10 ^ n := by
  constructor
  · intro hLe
    exact h.lt.trans_le (Nat.pow_le_pow_right (by decide) hLe)
  · intro hLt
    by_contra hGt
    have hBig : 10 ^ n ≤ 10 ^ (k - 1) := Nat.pow_le_pow_right (by decide) (by omega)
    exact absurd (hBig.trans (h.le (by omega))) (not_le.mpr hLt)

/-! ### Digits in use after the decimal point -/

structure Trimmed (d : Decimal) (f : Nat) : Prop where
  le : f ≤ d.frac
  zero : ∀ j, roundUp f ≤ j → j < roundUp d.frac → d.buf (roundUp d.intg + j) = 0
  trail : f % 9 ≠ 0 → 10 ^ (9 - f % 9) ∣ d.buf (roundUp d.intg + roundUp f - 1)
  last : f ≠ 0 → d.buf (roundUp d.intg + roundUp f - 1) ≠ 0

private theorem dropZeroWords_spec {d : Decimal} {fuel frac i pos : Nat} (hFuel : roundUp frac ≤ fuel)
    (hi : 0 < frac → i = (frac - 1) % 9 + 1)
    (hPos : 0 < frac → pos = roundUp d.intg + roundUp frac - 1) (hLe : frac ≤ d.frac)
    (hZero : ∀ j, roundUp frac ≤ j → j < roundUp d.frac → d.buf (roundUp d.intg + j) = 0)
    (hTrail : frac % 9 ≠ 0 → 10 ^ (9 - frac % 9) ∣ d.buf (roundUp d.intg + roundUp frac - 1)) :
    ∃ p k, dropZeroWords d.buf fuel frac i pos = (p, k) ∧
      (0 < k → p = roundUp d.intg + roundUp k - 1) ∧ Trimmed d k := by
  induction fuel generalizing frac i pos with
  | zero =>
    have hNone : frac = 0 := by
      unfold roundUp at hFuel
      omega
    exact ⟨pos, frac, rfl, hPos, hLe, hZero, hTrail, fun hNe => absurd hNone hNe⟩
  | succ fuel ih =>
    rw [dropZeroWords]
    split_ifs with hSkip
    · obtain ⟨hSome, hWord⟩ := hSkip
      rw [hi hSome]
      rw [hPos hSome] at hWord ⊢
      set rest := frac - ((frac - 1) % 9 + 1)
      have hRound : roundUp frac = roundUp rest + 1 := by
        unfold roundUp
        omega
      refine ih (by omega) (by omega) (fun _ => by omega) (by omega) ?_ (by omega)
      intro j hj hjFrac
      rcases eq_or_lt_of_le hj with rfl | hj
      · rw [hRound] at hWord
        exact hWord
      · exact hZero j (by omega) hjFrac
    · refine ⟨pos, frac, rfl, hPos, hLe, hZero, hTrail, fun hNe hWord => ?_⟩
      have hSome := pos_of_ne_zero hNe
      exact hSkip ⟨hSome, by rwa [hPos hSome]⟩

private theorem dropZeroDigits_spec {word fuel i k : Nat} (hWord : word ≠ 0) (hLt : word < 10 ^ 9)
    (hFuel : 9 ≤ fuel + i) (hk : 0 < k) (hi : i = 9 - (k - 1) % 9) (hDvd : 10 ^ (i - 1) ∣ word) :
    ∃ k', dropZeroDigits word fuel i k = k' ∧ 0 < k' ∧ k' ≤ k ∧ roundUp k' = roundUp k ∧
      10 ^ (8 - (k' - 1) % 9) ∣ word := by
  have hDone : 10 ^ (8 - (k - 1) % 9) ∣ word := by
    have hPlace : 8 - (k - 1) % 9 = i - 1 := by omega
    rwa [hPlace]
  induction fuel generalizing i k with
  | zero => exact ⟨k, rfl, hk, le_refl k, rfl, hDone⟩
  | succ fuel ih =>
    rw [dropZeroDigits]
    split_ifs with hDigit
    · have hMore : 10 ^ i ∣ word := dvd_of_mod_eq_zero hDigit
      have hSmall : i < 9 := by
        by_contra hBig
        have hPow : 10 ^ 9 ≤ 10 ^ i := Nat.pow_le_pow_right (by decide) (by omega)
        exact absurd (le_of_dvd (pos_of_ne_zero hWord) hMore) (by omega)
      have hNext : 8 - (k - 1 - 1) % 9 = i := by omega
      obtain ⟨k', hEq, hPos, hLe, hRound, hLast⟩ := @ih (i + 1) (k - 1) (by omega) (by omega)
        (by omega) (by rwa [Nat.add_sub_cancel]) (by rwa [hNext])
      refine ⟨k', hEq, hPos, by omega, ?_, hLast⟩
      rw [hRound]
      unfold roundUp
      omega
    · exact ⟨k, rfl, hk, le_refl k, rfl, hDone⟩

theorem decimalActualFraction_spec {d : Decimal} (h : d.WellFormed) :
    Trimmed d (decimalActualFraction d) := by
  unfold decimalActualFraction
  split_ifs with hNone
  · exact ⟨zero_le _, fun j _ hj => by simp [hNone, roundUp] at hj, by simp, by simp⟩
  · obtain ⟨p, k, hWords, hPos, hTrimmed⟩ := dropZeroWords_spec (le_refl _)
      (fun _ => rfl) (fun _ => rfl) (le_refl d.frac) (fun j hj hjFrac => absurd hj (by omega))
      h.trail
    rw [hWords]
    dsimp only
    split_ifs with hSome
    · have hLast := hTrimmed.last hSome.ne'
      have hWordLt : d.buf (roundUp d.intg + roundUp k - 1) < 10 ^ 9 := by
        have hLe := hTrimmed.le
        refine h.word _ ?_
        unfold roundUp
        omega
      have hDvd : 10 ^ (9 - (k - 1) % 9 - 1) ∣ d.buf (roundUp d.intg + roundUp k - 1) := by
        by_cases hFull : k % 9 = 0
        · have hOne : 9 - (k - 1) % 9 - 1 = 0 := by omega
          rw [hOne]
          exact one_dvd _
        · have hPlace : 9 - (k - 1) % 9 - 1 = 9 - k % 9 := by omega
          rw [hPlace]
          exact hTrimmed.trail hFull
      rw [hPos hSome]
      obtain ⟨k', hEq, hk', hLe, hRound, hTrail⟩ := dropZeroDigits_spec hLast hWordLt
        (by omega : 9 ≤ 9 + (9 - (k - 1) % 9)) hSome rfl hDvd
      rw [hEq]
      refine ⟨hLe.trans hTrimmed.le, ?_, fun hPart => ?_, fun _ => ?_⟩
      · rw [hRound]
        exact hTrimmed.zero
      · have hPlace : 9 - k' % 9 = 8 - (k' - 1) % 9 := by omega
        rw [hRound, hPlace]
        exact hTrail
      · rwa [hRound]
    · exact hTrimmed

end MySQL.Decimals
