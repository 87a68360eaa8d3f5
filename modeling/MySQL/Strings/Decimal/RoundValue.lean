import MySQL.Strings.Decimal.RoundReach

/-! `decimal_round` as rounding of the number. -/
namespace MySQL.Decimals
open Nat

def wholeUnits (mode : RoundMode) (x : ℚ) : ℤ :=
  match mode with
  | .truncate => truncate x
  | .halfUp => if 0 ≤ x then ⌊x + 1 / 2⌋ else ⌈x - 1 / 2⌉
  | .halfEven => if Int.fract x = 1 / 2 ∧ ⌊x⌋ % 2 = 0 then ⌊x⌋ else ⌊x + 1 / 2⌋
  | .ceiling => ⌈x⌉
  | .floor => ⌊x⌋

def roundedValue (mode : RoundMode) (scale : Int) (x : ℚ) : ℚ := wholeUnits mode (x * 10 ^ scale) * 10 ^ (-scale)

private theorem ceil_natCast_div {n u : Nat} (hu : 0 < u) : ⌈(n / u : ℚ)⌉ = ((n + u - 1) / u : Nat) := by
  have hBelow : (n + u - 1) / u * u + 1 ≤ n + u := by
    have hLe := div_mul_le_self (n + u - 1) u
    omega
  have hAbove : n ≤ (n + u - 1) / u * u := by
    have hLt : n + u - 1 < (n + u - 1) / u * u + u := lt_div_mul_add hu
    omega
  generalize _ / u = k at *
  have hPos : (0 : ℚ) < u := by exact_mod_cast hu
  rw [Int.ceil_eq_iff, Int.cast_natCast, lt_div_iff₀ hPos, div_le_iff₀ hPos]
  constructor
  · have hCast : (k * u + 1 : ℚ) ≤ n + u := by exact_mod_cast hBelow
    linarith
  · exact_mod_cast hAbove

/-- A number with a sign is rounded like its absolute value. -/
theorem wholeUnits_signed {mode : RoundMode} (hMode : mode ≠ .halfEven) (s : Bool) (n : Nat) {u : Nat} (hu : 0 < u) :
    (wholeUnits mode (signOf s * (n / u : ℚ)) : ℚ) = signOf s * roundedUnits mode s n u := by
  have hNonneg : (0 : ℚ) ≤ n / u := by positivity
  have hHalf : (n / u + 1 / 2 : ℚ) = (2 * n + u : Nat) / (2 * u : Nat) := by
    push_cast
    field_simp
  cases mode with
  | halfEven => exact absurd rfl hMode
  | truncate => exact truncate_signed s n u
  | ceiling =>
    cases s with
    | false =>
      simp only [wholeUnits, roundedUnits, signOf, Bool.false_eq_true, if_false, one_mul, ceil_natCast_div hu,
        Int.cast_natCast]
    | true =>
      simp only [wholeUnits, roundedUnits, signOf, if_true, neg_one_mul, Int.ceil_neg, floor_natCast_div,
        Int.cast_neg, Int.cast_natCast]
  | floor =>
    cases s with
    | false =>
      simp only [wholeUnits, roundedUnits, signOf, Bool.false_eq_true, if_false, one_mul, floor_natCast_div,
        Int.cast_natCast]
    | true =>
      simp only [wholeUnits, roundedUnits, signOf, if_true, neg_one_mul, Int.floor_neg, ceil_natCast_div hu,
        Int.cast_neg, Int.cast_natCast]
  | halfUp =>
    cases s with
    | false =>
      simp only [wholeUnits, roundedUnits, signOf, Bool.false_eq_true, if_false, one_mul, hNonneg, if_true, hHalf,
        floor_natCast_div, Int.cast_natCast]
    | true =>
      rcases Nat.eq_zero_or_pos n with rfl | hSome
      · have hNone : (2 * 0 + u) / (2 * u) = 0 := div_eq_of_lt (by omega)
        rw [roundedUnits, hNone]
        norm_num [wholeUnits]
      · have hBelow : ¬(0 : ℚ) ≤ -(n / u) := by
          have : (0 : ℚ) < n / u := by positivity
          linarith
        have hSides : (-(n / u) - 1 / 2 : ℚ) = -((2 * n + u : Nat) / (2 * u : Nat)) := by
          rw [← hHalf]
          ring
        simp only [wholeUnits, roundedUnits, signOf, if_true, neg_one_mul, hBelow, if_false, hSides, Int.ceil_neg,
          floor_natCast_div, Int.cast_neg, Int.cast_natCast]

/-- A whole number stays. -/
theorem wholeUnits_intCast {mode : RoundMode} (hMode : mode ≠ .halfEven) (z : ℤ) : wholeUnits mode z = z := by
  have hUp : ⌊(z : ℚ) + 1 / 2⌋ = z := by
    rw [Int.floor_eq_iff]
    constructor <;> linarith
  have hDown : ⌈(z : ℚ) - 1 / 2⌉ = z := by
    rw [Int.ceil_eq_iff]
    constructor <;> linarith
  cases mode with
  | halfEven => exact absurd rfl hMode
  | truncate => simp [wholeUnits, truncate]
  | ceiling => exact Int.ceil_intCast z
  | floor => exact Int.floor_intCast z
  | halfUp => simp only [wholeUnits, hUp, hDown, ite_self]

section

variable {d r : Decimal} {scale : Int} {mode : RoundMode} {sign : Bool} {m : Nat}

private theorem base_pow (n : Nat) : ((10 ^ 9) ^ n : ℚ) = 10 ^ (9 * (n : Int)) := by
  rw [← pow_mul, ← zpow_natCast]
  congr 1

private theorem cast_pow_toNat {e : Int} (he : 0 ≤ e) : ((10 ^ e.toNat : Nat) : ℚ) = 10 ^ e := by
  rw [cast_pow, ← zpow_natCast, Int.toNat_of_nonneg he]
  rfl

theorem Decimal.roundedValue_val (hMode : mode ≠ .halfEven) (hScale : scale ≤ 9 * roundUp d.frac) :
    roundedValue mode scale d.val = signOf d.sign *
      roundedUnits mode d.sign d.mantissa (10 ^ (9 * (roundUp d.frac : Int) - scale).toNat) * 10 ^ (-scale) := by
  have hUnits : d.val * 10 ^ scale =
      signOf d.sign * (d.mantissa / (10 ^ (9 * (roundUp d.frac : Int) - scale).toNat : Nat)) := by
    rw [cast_pow_toNat (by omega), val_eq_aligned (le_refl _), aligned, Nat.sub_self, pow_zero, mul_one,
      base_pow, zpow_sub₀ (by norm_num)]
    field_simp
  rw [roundedValue, hUnits, wholeUnits_signed hMode _ _ (Nat.pow_pos (by decide))]

theorem Rounded.val (h : Rounded r sign scale m) : r.val = signOf sign * m * 10 ^ (-scale) := by
  have hSign : signOf r.sign * (m : ℚ) = signOf sign * m := by
    rw [h.sign]
    by_cases hm : m = 0 <;> simp [hm]
  have hBelow : (0 : Int) ≤ 9 * (roundUp scale.toNat : Int) - scale := by
    unfold roundUp
    omega
  rw [Decimal.val_eq_aligned (le_refl _), Decimal.aligned, Nat.sub_self, pow_zero, mul_one, h.value, h.frac,
    cast_mul, below, cast_pow_toNat hBelow, base_pow, zpow_sub₀ (by norm_num), ← hSign, zpow_neg]
  field_simp

/-- The scale has all the digits of the number. -/
theorem Decimal.roundedValue_exact (hd : d.WellFormed) (hMode : mode ≠ .halfEven) (hScale : d.frac ≤ scale) :
    roundedValue mode scale d.val = d.val := by
  obtain ⟨c, hc⟩ := hd.dvd_mantissa
  obtain ⟨k, hk⟩ : ∃ k : Nat, scale = d.frac + k := ⟨(scale - d.frac).toNat, by omega⟩
  have hWhole : d.val * 10 ^ scale = ((if d.sign then -1 else 1 : ℤ) * c * 10 ^ k : ℤ) := by
    have hUnit : ((10 ^ 9) ^ roundUp d.frac : ℚ) = 10 ^ (9 * roundUp d.frac - d.frac) * 10 ^ d.frac := by
      rw [← pow_mul, ← pow_add]
      congr 1
      unfold roundUp
      omega
    have hSign : (((if d.sign then -1 else 1 : ℤ)) : ℚ) = signOf d.sign := by
      unfold signOf
      split_ifs <;> norm_num
    rw [val_eq_aligned (le_refl _), aligned, Nat.sub_self, pow_zero, mul_one, hc, hk, hUnit,
      zpow_add₀ (by norm_num), zpow_natCast, zpow_natCast, Int.cast_mul, Int.cast_mul, hSign]
    push_cast
    field_simp
  have hPow : (10 : ℚ) ^ scale ≠ 0 := zpow_ne_zero _ (by norm_num)
  rw [roundedValue, hWhole, wholeUnits_intCast hMode, ← hWhole, zpow_neg, mul_assoc, mul_inv_cancel₀ hPow, mul_one]

/-- The number is too small for the scale. -/
theorem Decimal.roundedValue_small (hd : d.WellFormed) (hMode : mode = .halfUp ∨ mode = .truncate)
    (hScale : scale + d.intg < 0) : roundedValue mode scale d.val = 0 := by
  have hLess := hd.mantissa_lt
  obtain ⟨k, hk⟩ : ∃ k : Nat, (9 * (roundUp d.frac : Int) - scale).toNat = d.intg + 9 * roundUp d.frac + 1 + k :=
    ⟨(9 * (roundUp d.frac) - scale).toNat - (d.intg + 9 * roundUp d.frac + 1), by omega⟩
  have hTen : 10 * d.mantissa < 10 ^ (9 * (roundUp d.frac : Int) - scale).toNat := by
    rw [hk]
    calc 10 * d.mantissa < 10 * 10 ^ (d.intg + 9 * roundUp d.frac) := by omega
      _ = 10 ^ (d.intg + 9 * roundUp d.frac + 1) := by ring
      _ ≤ 10 ^ (d.intg + 9 * roundUp d.frac + 1 + k) := Nat.pow_le_pow_right (by decide) (Nat.le_add_right ..)
  have hNone : roundedUnits mode d.sign d.mantissa (10 ^ (9 * (roundUp d.frac : Int) - scale).toNat) = 0 := by
    rcases hMode with rfl | rfl
    · exact div_eq_of_lt (by omega)
    · exact div_eq_of_lt (by omega)
  rw [roundedValue_val (by rcases hMode with rfl | rfl <;> decide) (by omega), hNone, cast_zero, mul_zero, zero_mul]

end

section

variable {source : Decimal} {mode : RoundMode}

/-- `decimal_round` rounds what reaches the target to a multiple of `10 ^ -scale`. -/
theorem decimalRound_val (h : source.WellFormed) (target : Option Decimal) (scale : Int)
    (hMode : mode = .halfUp ∨ mode = .truncate ∨ (mode = .ceiling ∨ mode = .floor) ∧ scale = 0)
    (hLen : roundUp source.intg + roundUp source.frac + 1 ≤ (target.getD source).len) :
    ∃ r error, decimalRound source target scale mode = (r, error) ∧ r.WellFormed ∧
      r.val = roundedValue mode scale (arriving source target scale).val ∧ error ≠ .overflow ∧
      (error = .ok → r.frac = scale.toNat) := by
  have hNotEven : mode ≠ .halfEven := by
    rintro rfl
    simp at hMode
  have hArrives := arriving_wellFormed h target scale
  have hFits : movedIntg source scale ≤ (target.getD source).len := by
    unfold movedIntg
    split_ifs <;> omega
  obtain ⟨hLe, hLt, hWords⟩ := fracWords_spec scale
  -- a decimal that keeps all digits
  have hExtends (frac0 scale' : Int) (error : DecError) (hFrac0 : frac0 = roundUp scale'.toNat)
      (hScale' : source.frac ≤ scale') (hScale : source.frac ≤ scale) :
      ∃ r, roundMoved source target mode scale frac0 scale' error = (r, error) ∧ r.WellFormed ∧
        r.val = roundedValue mode scale (arriving source target scale).val ∧ r.frac = scale'.toNat := by
    obtain ⟨r, hRound, hForm, hFrac, hSign, hMantissa⟩ := roundMoved_extends h hFits hFrac0 hScale' error
    refine ⟨r, hRound, hForm, ?_, hFrac⟩
    have hMore : roundUp (arriving source target scale).frac ≤ roundUp scale'.toNat := by
      rw [arriving_frac]
      exact Nat.div_le_div_right (by omega)
    rw [Decimal.roundedValue_exact hArrives hNotEven (by rwa [arriving_frac]), Decimal.val_eq_aligned (le_refl _),
      Decimal.aligned, Nat.sub_self, pow_zero, mul_one, hFrac, hSign, hMantissa, Decimal.val_eq_aligned hMore,
      Decimal.aligned, arriving_frac, arriving_sign]
  rcases Int.lt_or_le (scale + source.intg) 0 with hSmall | hSome
  · have hMode' : mode = .halfUp ∨ mode = .truncate := by
      rcases hMode with hHalf | hTruncate | ⟨-, rfl⟩
      · exact .inl hHalf
      · exact .inr hTruncate
      · omega
    refine ⟨_, _, decimalRound_small (by omega) hSmall, makeZero_wellFormed _, ?_, by decide, fun _ => ?_⟩
    · rw [makeZero_val, Decimal.roundedValue_small hArrives hMode' (by rwa [arriving_intg])]
    · change 0 = scale.toNat
      omega
  rcases Int.lt_or_le (target.getD source).len (fracWords scale + roundUp source.intg) with hShort | hEnough
  · have hAll : source.frac ≤ 9 * roundUp source.frac := by
      unfold roundUp
      omega
    have hRest : ((target.getD source).len - roundUp source.intg : Int) =
        roundUp (((target.getD source).len - roundUp source.intg : Int) * 9).toNat := by
      rw [show (((target.getD source).len - roundUp source.intg : Int) * 9).toNat =
        ((target.getD source).len - roundUp source.intg) * 9 by omega, roundUp_mul_nine]
      omega
    obtain ⟨r, hRound, hForm, hVal, -⟩ := hExtends _ _ .truncated hRest (by omega) (by omega)
    exact ⟨r, _, (decimalRound_short hShort (by omega)).trans hRound, hForm, hVal, by decide, fun hOk => by simp at hOk⟩
  · rw [decimalRound_eq hEnough hSome]
    rcases Int.lt_or_le scale source.frac with hRounds | hKeepsAll
    · have hFew : roundUp scale.toNat ≤ roundUp source.frac := Nat.div_le_div_right (by omega)
      obtain ⟨r, hRound, hRounded⟩ := roundMoved_rounds h hFits hMode hRounds hSome (fun _ => by omega)
      refine ⟨r, _, hRound, hRounded.wellFormed, ?_, by decide, fun _ => hRounded.frac⟩
      rw [hRounded.val, Decimal.roundedValue_val hNotEven (by rw [arriving_frac]; unfold roundUp; omega), arriving_frac,
        arriving_sign]
    · obtain ⟨r, hRound, hForm, hVal, hFrac⟩ := hExtends (fracWords scale) scale .ok (by omega) hKeepsAll hKeepsAll
      exact ⟨r, .ok, hRound, hForm, hVal, by decide, fun _ => hFrac⟩

/-- A whole unit more is at least one more after the rounding. -/
theorem roundedUnits_lt (hMode : mode ≠ .halfEven) (sign : Bool) {m n u : Nat} (hu : 0 < u) (h : m + u ≤ n) :
    roundedUnits mode sign m u < roundedUnits mode sign n u := by
  have hStep {a b v : Nat} (hv : 0 < v) (hLe : a + v ≤ b) : a / v < b / v := by
    have hNext : (a + v) / v = a / v + 1 := add_div_right a hv
    have hMono : (a + v) / v ≤ b / v := Nat.div_le_div_right hLe
    omega
  cases mode with
  | halfEven => exact absurd rfl hMode
  | truncate => exact hStep hu h
  | halfUp => exact hStep (by omega) (by omega)
  | ceiling =>
    cases sign with
    | true => exact hStep hu h
    | false => exact hStep hu (by omega)
  | floor =>
    cases sign with
    | true => exact hStep hu (by omega)
    | false => exact hStep hu h

/-- The first word is 999999999, so that it is seen after the rounding that it is lost. -/
theorem roundedValue_withoutFirst {scale : Int} (h : source.WellFormed) (hMode : mode ≠ .halfEven)
    (hNeeds : NeedsRoom source scale) (hSome : 0 < source.intg + source.frac) :
    roundedValue mode scale (withoutFirst source).val ≠ roundedValue mode scale source.val := by
  obtain ⟨k, hk⟩ : ∃ k, roundUp source.intg + roundUp source.frac = k + 1 :=
    ⟨roundUp source.intg + roundUp source.frac - 1, by unfold roundUp; omega⟩
  obtain ⟨-, hLt, -⟩ := fracWords_spec scale
  obtain ⟨hFull, hFirst, hKept⟩ := hNeeds
  have hMantissa : source.mantissa = (withoutFirst source).mantissa + (10 ^ 9 - 1) * (10 ^ 9) ^ k := by
    have hTail : wordsValue (withoutFirst source).buf 1 k = wordsValue source.buf 1 k :=
      wordsValue_congr fun i _ => Function.update_of_ne (by omega) ..
    have hZero : (withoutFirst source).buf 0 = 0 := Function.update_self 0 0 source.buf
    rw [Decimal.mantissa, Decimal.mantissa]
    change wordsValue _ 0 (roundUp source.intg + roundUp source.frac) =
      wordsValue _ 0 (roundUp source.intg + roundUp source.frac) + _
    rw [hk, wordsValue, wordsValue, zero_add, hTail, hZero, hFirst]
    ring
  have hPow : 0 < (10 ^ 9) ^ k := by positivity
  have hNe : (signOf source.sign : ℚ) ≠ 0 := by
    unfold signOf
    split_ifs <;> norm_num
  rcases Int.lt_or_le scale source.frac with hRounds | hKeepsAll
  · have hScale : scale ≤ 9 * roundUp source.frac := by
      unfold roundUp
      omega
    have hUnit : 10 ^ (9 * (roundUp source.frac : Int) - scale).toNat ≤ (10 ^ 9 - 1) * (10 ^ 9) ^ k := by
      have hExp : (9 * (roundUp source.frac : Int) - scale).toNat ≤ 8 + 9 * k := by omega
      calc 10 ^ (9 * (roundUp source.frac : Int) - scale).toNat ≤ 10 ^ (8 + 9 * k) :=
            Nat.pow_le_pow_right (by decide) hExp
        _ = 10 ^ 8 * (10 ^ 9) ^ k := by rw [pow_add, pow_mul]
        _ ≤ (10 ^ 9 - 1) * (10 ^ 9) ^ k := Nat.mul_le_mul_right _ (by decide)
    have hUnits := roundedUnits_lt hMode source.sign (Nat.pow_pos (by decide))
      (hMantissa ▸ Nat.add_le_add_left hUnit _ : _ ≤ source.mantissa)
    rw [Decimal.roundedValue_val (d := source) hMode hScale, Decimal.roundedValue_val (d := withoutFirst source) hMode hScale]
    intro hEq
    have hCast := mul_left_cancel₀ hNe (mul_right_cancel₀ (zpow_ne_zero _ (by norm_num)) hEq)
    exact hUnits.ne (by exact_mod_cast hCast)
  · rw [Decimal.roundedValue_exact (withoutFirst_wellFormed h) hMode hKeepsAll,
      Decimal.roundedValue_exact h hMode hKeepsAll, Decimal.val_eq_aligned (le_refl _),
      Decimal.val_eq_aligned (le_refl _), Decimal.aligned, Decimal.aligned]
    intro hEq
    have hUnit : ((10 ^ 9) ^ roundUp source.frac : ℚ) ≠ 0 := by positivity
    have hWords := (div_left_inj' hUnit).mp (mul_left_cancel₀ hNe hEq)
    simp only [Nat.sub_self, pow_zero, mul_one] at hWords
    have hSame : (withoutFirst source).mantissa = source.mantissa := by exact_mod_cast hWords
    omega

end

end MySQL.Decimals
