import MySQL.Strings.Decimal.Round
import MySQL.Strings.Decimal.Words

/-! The words of a decimal with the fraction brought to a given number of words, so that the words
of two decimals can be added and compared. -/
namespace MySQL.Decimals

variable {d : Decimal} {frac frac0 : Nat}

def signOf (sign : Bool) : ℚ := if sign then -1 else 1

theorem cast_base_pow (n : Nat) : (((10 ^ 9) ^ n : Nat) : ℚ) = (10 ^ 9) ^ n := by norm_num

namespace Decimal

/-- All words as one number, with `frac` words after the decimal point -/
def aligned (d : Decimal) (frac : Nat) : Nat := d.mantissa * (10 ^ 9) ^ (frac - roundUp d.frac)

theorem val_eq_aligned (h : roundUp d.frac ≤ frac) :
    d.val = signOf d.sign * (d.aligned frac / (10 ^ 9) ^ frac) := by
  obtain ⟨k, rfl⟩ := Nat.exists_eq_add_of_le h
  rw [val, signOf, aligned, Nat.add_sub_cancel_left, pow_add, Nat.cast_mul, cast_base_pow,
    mul_div_mul_right _ _ (by positivity)]

theorem WellFormed.aligned_lt (hd : d.WellFormed) (h : roundUp d.frac ≤ frac) :
    d.aligned frac < (10 ^ 9) ^ (roundUp d.intg + frac) := by
  have hWords : roundUp d.intg + frac = roundUp d.intg + roundUp d.frac + (frac - roundUp d.frac) := by omega
  rw [aligned, hWords, pow_add _ _]
  exact Nat.mul_lt_mul_of_pos_right (wordsValue_lt (by simpa using hd.word)) (by positivity)

/-- The first word has no more digits than `intg` says. -/
theorem WellFormed.mantissa_lt (hd : d.WellFormed) : d.mantissa < 10 ^ (d.intg + 9 * roundUp d.frac) := by
  rw [mantissa]
  by_cases hFull : d.intg % 9 = 0
  · have hDigits : d.intg + 9 * roundUp d.frac = 9 * (roundUp d.intg + roundUp d.frac) := by
      unfold roundUp
      omega
    rw [hDigits, pow_mul]
    exact wordsValue_lt (by simpa using hd.word)
  · obtain ⟨n, hn⟩ : ∃ n, roundUp d.intg + roundUp d.frac = n + 1 := by
      refine Nat.exists_eq_add_of_le' ?_
      unfold roundUp
      omega
    have hDigits : d.intg + 9 * roundUp d.frac = d.intg % 9 + 9 * n := by
      unfold roundUp at *
      omega
    have hRest : wordsValue d.buf (0 + 1) n < (10 ^ 9) ^ n :=
      wordsValue_lt (words_lt_tail fun i hi => by simpa using hd.word i (by omega))
    rw [hDigits, hn, wordsValue, pow_add, pow_mul]
    calc d.buf 0 * (10 ^ 9) ^ n + wordsValue d.buf (0 + 1) n
        < d.buf 0 * (10 ^ 9) ^ n + (10 ^ 9) ^ n := Nat.add_lt_add_left hRest _
      _ = (d.buf 0 + 1) * (10 ^ 9) ^ n := by ring
      _ ≤ 10 ^ (d.intg % 9) * (10 ^ 9) ^ n := Nat.mul_le_mul_right _ (hd.lead hFull)

/-- The digits after the first `f` of the fraction are zero. -/
theorem WellFormed.dvd_aligned (hd : d.WellFormed) {f : Nat} (h : roundUp d.frac ≤ frac) (hf : d.frac ≤ f) :
    10 ^ (9 * frac - f) ∣ d.aligned frac := by
  have hDigits : 9 * frac - f ≤ 9 * roundUp d.frac - d.frac + 9 * (frac - roundUp d.frac) := by
    unfold roundUp at *
    omega
  refine (Nat.pow_dvd_pow 10 hDigits).trans ?_
  rw [pow_add, pow_mul, aligned]
  exact Nat.mul_dvd_mul_right hd.dvd_mantissa _

/-- The words that stay when the fraction is cut to `frac0` words -/
theorem WellFormed.aligned_div (hd : d.WellFormed) (h : roundUp d.frac ≤ frac) (h₀ : frac0 ≤ frac) :
    d.aligned frac / (10 ^ 9) ^ (frac - frac0) =
      wordsValue d.buf 0 (roundUp d.intg + min (roundUp d.frac) frac0) *
        (10 ^ 9) ^ (frac0 - min (roundUp d.frac) frac0) := by
  rcases Nat.le_total (roundUp d.frac) frac0 with hLe | hGe
  · have hWords : frac - roundUp d.frac = frac0 - roundUp d.frac + (frac - frac0) := by omega
    rw [min_eq_left hLe, aligned, hWords, pow_add, ← mul_assoc, Nat.mul_div_cancel _ (by positivity)]
    rfl
  · have hWords : frac - frac0 = roundUp d.frac - frac0 + (frac - roundUp d.frac) := by omega
    have hAll : roundUp d.intg + roundUp d.frac = roundUp d.intg + frac0 + (roundUp d.frac - frac0) := by omega
    rw [min_eq_right hGe, aligned, hWords, pow_add, Nat.mul_div_mul_right _ _ (by positivity), Nat.sub_self,
      pow_zero, mul_one, mantissa, hAll, wordsValue_div fun i hi => hd.word _ (by omega)]

end Decimal

theorem roundUp_mul_nine (n : Nat) : roundUp (n * 9) = n := by
  unfold roundUp
  omega

theorem val_of_words {intg0 m : Nat} (hIntg : d.intg = intg0 * 9)
    (hValue : wordsValue d.buf 0 (intg0 + roundUp d.frac) = m) :
    d.val = signOf d.sign * (m / (10 ^ 9) ^ roundUp d.frac) := by
  rw [Decimal.val, Decimal.mantissa, hIntg, roundUp_mul_nine, hValue, signOf]

/-- A decimal made of `intg0` words before the point and the words of `frac` digits after it -/
theorem wellFormed_of_words {intg0 m : Nat} (hIntg : d.intg = intg0 * 9)
    (hWord : ∀ i < intg0 + roundUp d.frac, d.buf i < 10 ^ 9)
    (hValue : wordsValue d.buf 0 (intg0 + roundUp d.frac) = m) (hDvd : 10 ^ (9 * roundUp d.frac - d.frac) ∣ m) :
    d.WellFormed := by
  have hWords : roundUp d.intg = intg0 := by rw [hIntg, roundUp_mul_nine]
  refine ⟨by rwa [hWords], fun hPart => absurd hPart (by omega), fun hPart => ?_⟩
  have hSome : intg0 + roundUp d.frac = intg0 + roundUp d.frac - 1 + 1 := by
    unfold roundUp
    omega
  have hUnused : 9 * roundUp d.frac - d.frac = 9 - d.frac % 9 := by
    unfold roundUp
    omega
  rw [hSome, wordsValue_concat, zero_add] at hValue
  rw [hUnused, ← hValue] at hDvd
  have hBase : 10 ^ (9 - d.frac % 9) ∣ 10 ^ 9 := Nat.pow_dvd_pow 10 (by omega)
  rw [hWords]
  exact (Nat.dvd_add_right (Dvd.dvd.mul_left hBase _)).mp hDvd

theorem makeZero_wellFormed (d : Decimal) : (makeZero d).WellFormed := by
  refine ⟨fun i hi => ?_, fun _ => ?_, fun hPart => absurd rfl hPart⟩
  · obtain rfl : i = 0 := by simpa [makeZero, roundUp] using hi
    simp [makeZero]
  · simp [makeZero]

theorem makeZero_val (d : Decimal) : (makeZero d).val = 0 := by
  simp [makeZero, Decimal.val, Decimal.mantissa, roundUp, wordsValue]

/-- What `do_add` and `do_sub` owe for the number `exact`, `words` being the words that they
provide for before and after the decimal point -/
structure Settles (from1 from2 target : Decimal) (words : Nat × Nat) (exact : ℚ)
    (out : Decimal × DecError) : Prop where
  ok : words.1 + words.2 ≤ target.len →
    out.2 = .ok ∧ out.1.WellFormed ∧ out.1.val = exact ∧
      (exact ≠ 0 → out.1.frac = max from1.frac from2.frac)
  truncated : words.1 ≤ target.len → target.len < words.1 + words.2 →
    out.2 = .truncated ∧ out.1.WellFormed ∧
      |out.1.val - exact| < 2 / (10 ^ 9) ^ (target.len - words.1)
  overflow : target.len < words.1 → out.2 = .overflow
  inside : out.2 ≠ .overflow →
    out.1.len = target.len ∧ roundUp out.1.intg + roundUp out.1.frac ≤ target.len
  bound : |exact| < (10 ^ 9) ^ words.1

/-- A number that has no room in front of the decimal point -/
theorem Settles.large {from1 from2 target : Decimal} {words : Nat × Nat} {exact : ℚ}
    {out : Decimal × DecError} (h : Settles from1 from2 target words exact out)
    (hLarge : (10 ^ 9) ^ target.len ≤ |exact|) : out.2 = .overflow := by
  apply h.overflow
  by_contra hFits
  have hPow : ((10 : ℚ) ^ 9) ^ words.1 ≤ (10 ^ 9) ^ target.len :=
    pow_le_pow_right₀ (by norm_num) (Nat.le_of_not_lt hFits)
  exact absurd h.bound (not_lt.mpr (hPow.trans hLarge))

theorem roundUp_max (m n : Nat) : max (roundUp m) (roundUp n) = roundUp (max m n) := by
  unfold roundUp
  omega

theorem roundUp_le_of_le_max {m n k frac : Nat} (hFrac : frac = max (roundUp m) (roundUp n))
    (h : k ≤ max m n) : roundUp k ≤ frac := by
  unfold roundUp at *
  omega

theorem max_le_of_roundUp {m n frac : Nat} (hFrac : frac = max (roundUp m) (roundUp n)) :
    max m n ≤ frac * 9 := by
  unfold roundUp at hFrac
  omega

theorem abs_signOf (sign : Bool) : |signOf sign| = 1 := by cases sign <;> simp [signOf]

theorem signOf_ne (s t : Bool) : signOf (s ≠ t) = signOf s * signOf t := by
  cases s <;> cases t <;> simp [signOf]

theorem Decimal.abs_val (d : Decimal) : |d.val| = d.mantissa / (10 ^ 9) ^ roundUp d.frac := by
  have hVal := val_eq_aligned (le_refl (roundUp d.frac))
  rw [hVal, abs_mul, abs_signOf, one_mul, abs_of_nonneg (by positivity), aligned, Nat.sub_self, pow_zero,
    mul_one]

theorem Decimal.val_eq_zero {d : Decimal} : d.val = 0 ↔ d.mantissa = 0 := by
  have hSign : (if d.sign then -1 else 1 : ℚ) ≠ 0 := by split_ifs <;> norm_num
  have hUnit : ((10 ^ 9) ^ roundUp d.frac : ℚ) ≠ 0 := by positivity
  rw [val, mul_eq_zero, div_eq_zero_iff, Nat.cast_eq_zero]
  simp [hSign, hUnit]

theorem abs_signed_lt {intg0 e : Nat} (sign : Bool) (h : e < (10 ^ 9) ^ (intg0 + frac)) :
    |signOf sign * (e / (10 ^ 9) ^ frac)| < (10 ^ 9) ^ intg0 := by
  rw [abs_mul, abs_signOf, one_mul, abs_of_nonneg (by positivity), div_lt_iff₀ (by positivity), ← pow_add,
    ← cast_base_pow]
  exact_mod_cast h

theorem settles_of_overflow {from1 from2 target : Decimal} {words : Nat × Nat} {exact : ℚ}
    {out : Decimal × DecError} (h : target.len < words.1) (hOut : out.2 = .overflow)
    (hBound : |exact| < (10 ^ 9) ^ words.1) : Settles from1 from2 target words exact out where
  ok hAll := absurd hAll (by omega)
  truncated hFits := absurd hFits (by omega)
  overflow _ := hOut
  inside hFits := absurd hOut hFits
  bound := hBound

private theorem abs_sub_lt_units {v e : Nat} (h : frac0 ≤ frac)
    (hBelow : v * (10 ^ 9) ^ (frac - frac0) < e + 2 * (10 ^ 9) ^ (frac - frac0))
    (hAbove : e < v * (10 ^ 9) ^ (frac - frac0) + 2 * (10 ^ 9) ^ (frac - frac0)) :
    |(v / (10 ^ 9) ^ frac0 - e / (10 ^ 9) ^ frac : ℚ)| < 2 / (10 ^ 9) ^ frac0 := by
  obtain ⟨k, rfl⟩ := Nat.exists_eq_add_of_le h
  rw [Nat.add_sub_cancel_left] at hBelow hAbove
  have hBelow' : (v * (10 ^ 9) ^ k : ℚ) < e + 2 * (10 ^ 9) ^ k := by
    rw [← cast_base_pow]
    exact_mod_cast hBelow
  have hAbove' : (e : ℚ) < v * (10 ^ 9) ^ k + 2 * (10 ^ 9) ^ k := by
    rw [← cast_base_pow]
    exact_mod_cast hAbove
  have hCommon (x : ℚ) : x / (10 ^ 9) ^ frac0 = x * (10 ^ 9) ^ k / (10 ^ 9) ^ (frac0 + k) := by
    rw [pow_add, mul_div_mul_right _ _ (by positivity)]
  rw [hCommon v, hCommon 2, ← sub_div, abs_div, abs_of_pos (by positivity : (0 : ℚ) < (10 ^ 9) ^ (frac0 + k)),
    div_lt_div_iff_of_pos_right (by positivity), abs_lt]
  constructor <;> linarith only [hBelow', hAbove']

/-- A number of `frac` words after the point, of which the target takes `frac0` -/
theorem settles_of_words {from1 from2 target : Decimal} {intg0 v e : Nat} {buf : Nat → Nat} (sign : Bool)
    (hFrac : frac = max (roundUp from1.frac) (roundUp from2.frac)) (hFits : intg0 ≤ target.len)
    (hFrac0 : frac0 = min frac (target.len - intg0)) (hWord : ∀ i < intg0 + frac0, buf i < 10 ^ 9)
    (hValue : wordsValue buf 0 (intg0 + frac0) = v) (hExact : frac0 = frac → v = e)
    (hDvd : 10 ^ (9 * frac - max from1.frac from2.frac) ∣ e) (hLt : e < (10 ^ 9) ^ (intg0 + frac))
    (hBelow : v * (10 ^ 9) ^ (frac - frac0) < e + 2 * (10 ^ 9) ^ (frac - frac0))
    (hAbove : e < v * (10 ^ 9) ^ (frac - frac0) + 2 * (10 ^ 9) ^ (frac - frac0)) :
    Settles from1 from2 target (intg0, frac) (signOf sign * (e / (10 ^ 9) ^ frac)) ({ target with
          sign := sign, intg := intg0 * 9, frac := min (max from1.frac from2.frac) (frac0 * 9), buf := buf },
        if intg0 + frac ≤ target.len then .ok else .truncated) := by
  rw [roundUp_max] at hFrac
  set digits := max from1.frac from2.frac
  have hRound : roundUp (min digits (frac0 * 9)) = frac0 := by
    unfold roundUp at *
    omega
  have hDigits : 10 ^ (9 * frac0 - min digits (frac0 * 9)) ∣ v := by
    by_cases hAll : frac0 = frac
    · have hSame : 9 * frac0 - min digits (frac0 * 9) = 9 * frac - digits := by
        unfold roundUp at hFrac
        omega
      rwa [hSame, hExact hAll]
    · have hNone : 9 * frac0 - min digits (frac0 * 9) = 0 := by
        unfold roundUp at hFrac
        omega
      rw [hNone, pow_zero]
      exact Nat.one_dvd v
  have hWellFormed := wellFormed_of_words (d := ⟨intg0 * 9, min digits _, target.len, sign, buf⟩)
    (m := v) rfl (by rwa [hRound]) (by rwa [hRound]) (by rwa [hRound])
  have hVal := val_of_words (d := ⟨intg0 * 9, min digits _, target.len, sign, buf⟩)
    (m := v) rfl (by rwa [hRound])
  rw [hRound] at hVal
  refine ⟨fun hAll => ?_, fun _ hShort => ?_, fun hOver => absurd hOver (not_lt.mpr hFits),
    fun _ => ⟨rfl, ?_⟩, ?_⟩
  · have hSame : frac0 = frac := by omega
    refine ⟨if_pos hAll, hWellFormed, ?_, fun _ => ?_⟩
    · rw [hVal, hExact hSame, hSame]
    · unfold roundUp at hFrac
      exact min_eq_left (by omega)
  · have hKept : frac0 = target.len - intg0 := by omega
    refine ⟨if_neg (not_le.mpr hShort), hWellFormed, ?_⟩
    rw [hVal, ← mul_sub, abs_mul, abs_signOf, one_mul, ← hKept]
    exact abs_sub_lt_units (by omega) hBelow hAbove
  · show roundUp (intg0 * 9) + roundUp (min digits (frac0 * 9)) ≤ target.len
    rw [hRound]
    unfold roundUp
    omega
  · exact abs_signed_lt sign hLt

/-- The integer next to `x` on the side of zero -/
def truncate (x : ℚ) : ℤ := if 0 ≤ x then ⌊x⌋ else ⌈x⌉

theorem floor_natCast_div (a b : Nat) : ⌊(a / b : ℚ)⌋ = (a / b : Nat) := by
  rw [← Nat.floor_div_eq_div (K := ℚ), Int.natCast_floor_eq_floor (by positivity)]

theorem truncate_signed (s : Bool) (a b : Nat) :
    (truncate (signOf s * (a / b : ℚ)) : ℚ) = signOf s * (a / b : Nat) := by
  have hFloor := floor_natCast_div a b
  have hNonneg : (0 : ℚ) ≤ a / b := by positivity
  cases s with
  | false =>
    rw [truncate, signOf, if_neg Bool.false_ne_true, one_mul, if_pos hNonneg, hFloor, Int.cast_natCast, one_mul]
  | true =>
    rcases hNonneg.eq_or_lt with hZero | hPos
    · have hNone : a / b = 0 := by
        rw [← hZero, Int.floor_zero] at hFloor
        exact_mod_cast hFloor.symm
      rw [← hZero, hNone]
      simp [truncate]
    · have hNeg : ¬(0 : ℚ) ≤ -1 * (a / b) := by linarith
      rw [truncate, signOf, if_pos rfl, if_neg hNeg, neg_one_mul, Int.ceil_neg, hFloor,
        Int.cast_neg, Int.cast_natCast, neg_one_mul]

end MySQL.Decimals
