import MySQL.Strings.Decimal.RoundModes

/-! `my_decimal2binary`, which rounds a decimal to the scale of its column and
stores it, and the order of the stored bytes. -/
namespace MySQL.Decimals
open Library Function DigitGroup Nat

/-- A decimal of class `my_decimal`, which has nine words of its own. -/
structure MyDecimal where
  decimal : Decimal
  wellFormed : decimal.WellFormed
  len_eq : decimal.len = 9
  words_le : roundUp decimal.intg + roundUp decimal.frac ≤ 9

def myDecimal2binary (d : Decimal) (prec scale : Nat) : List Nat × DecError :=
  let rounded := { d with frac := decimalActualFraction d }
  let cut : Bool := scale < rounded.frac
  let rounded := if cut then (decimalRound rounded none scale .halfUp).1 else rounded
  let (bin, err2) := decimal2bin rounded prec scale
  (bin, if err2 = .ok then if cut then .truncated else .ok else err2)

namespace Decimal
variable {d : Decimal} {f precision scale m : Nat}

section
variable (hLe : f ≤ d.frac) (hZero : ∀ j, roundUp f ≤ j → j < roundUp d.frac → d.buf (roundUp d.intg + j) = 0) (scale : Nat)
include hLe hZero

/-- Digits of the fraction that are zero may be left out. -/
private theorem scaled_trim : scaled { d with frac := f } scale = d.scaled scale := by
  obtain ⟨n, hn⟩ : ∃ n, roundUp d.frac = roundUp f + n := by
    refine ⟨roundUp d.frac - roundUp f, ?_⟩
    unfold roundUp
    omega
  have hMantissa : d.mantissa = mantissa { d with frac := f } * (10 ^ 9) ^ n := by
    have hRest : wordsValue d.buf (roundUp d.intg + roundUp f) n = 0 :=
      wordsValue_eq_zero fun i hi => by
        rw [add_assoc]
        exact hZero _ (Nat.le_add_right ..) (by omega)
    change wordsValue d.buf 0 (roundUp d.intg + roundUp d.frac) =
      wordsValue d.buf 0 _ * (10 ^ 9) ^ n
    rw [hn, ← add_assoc, wordsValue_add, zero_add, hRest, add_zero]
  rw [scaled, scaled, hMantissa, hn, pow_add, mul_right_comm _ _,
    Nat.mul_div_mul_right _ _ (by positivity)]

private theorem roundUnits_trim : roundUnits { d with frac := f } scale = d.roundUnits scale := by
  rw [roundUnits, roundUnits, scaled_trim hLe hZero]

end

private theorem trimmed_wellFormed (h : d.WellFormed) (hTrimmed : Trimmed d f) :
    WellFormed { d with frac := f } := by
  refine ⟨fun i hi => h.word i ?_, h.lead, hTrimmed.trail⟩
  have hLe := hTrimmed.le
  change i < roundUp d.intg + roundUp f at hi
  unfold roundUp at hi ⊢
  omega

private theorem roundUnits_exact (h : d.WellFormed) (hFrac : d.frac ≤ scale) :
    d.roundUnits scale = d.scaled scale := by
  have hExact := h.scaled_exact hFrac
  have hMore := h.scaled_exact (hFrac.trans (le_succ scale))
  have hTen : d.scaled (scale + 1) = d.scaled scale * 10 := by
    apply eq_of_mul_eq_mul_right (by positivity : 0 < (10 ^ 9) ^ roundUp d.frac)
    rw [← hMore, mul_right_comm, ← hExact, pow_succ, mul_assoc]
  rw [roundUnits]
  omega

private theorem integerPart_lt (hScale : scale ≤ precision) (hm : m < 10 ^ precision)
    (hValue : d.mantissa * 10 ^ scale = m * (10 ^ 9) ^ roundUp d.frac) :
    d.integerPart < 10 ^ (precision - scale) := by
  have hPart : d.integerPart * (10 ^ 9) ^ roundUp d.frac ≤ d.mantissa := by
    rw [mantissa, wordsValue_add]
    exact Nat.le_add_right ..
  have hPos : 0 < (10 ^ 9) ^ roundUp d.frac := by positivity
  have hLt : d.integerPart * 10 ^ scale * (10 ^ 9) ^ roundUp d.frac <
      10 ^ (precision - scale) * 10 ^ scale * (10 ^ 9) ^ roundUp d.frac := by
    calc d.integerPart * 10 ^ scale * (10 ^ 9) ^ roundUp d.frac
        = d.integerPart * (10 ^ 9) ^ roundUp d.frac * 10 ^ scale := by ring
      _ ≤ d.mantissa * 10 ^ scale := mul_le_mul_right _ hPart
      _ = m * (10 ^ 9) ^ roundUp d.frac := hValue
      _ < 10 ^ precision * (10 ^ 9) ^ roundUp d.frac := mul_lt_mul_of_pos_right hm hPos
      _ = 10 ^ (precision - scale) * 10 ^ scale * (10 ^ 9) ^ roundUp d.frac := by
          rw [← pow_add 10, Nat.sub_add_cancel hScale]
  exact Nat.lt_of_mul_lt_mul_right (Nat.lt_of_mul_lt_mul_right hLt)

/-- The bytes of a decimal that fits, when zero has no digits after the point
or no sign. -/
private theorem decimal2bin_units (h : d.WellFormed) (hFrac : d.frac ≤ scale)
    (hScale : scale ≤ precision) (hm : m < 10 ^ precision)
    (hValue : d.mantissa * 10 ^ scale = m * (10 ^ 9) ^ roundUp d.frac)
    (hZero : m = 0 → d.sign = false ∨ d.frac = 0) :
    (decimal2bin d precision scale).1 = stored precision scale (d.sign && m ≠ 0) m := by
  have hScaled : d.scaled scale = m := by
    apply eq_of_mul_eq_mul_right (by positivity : 0 < (10 ^ 9) ^ roundUp d.frac)
    rw [← h.scaled_exact hFrac, hValue]
  have hSign : d.storedSign = (d.sign && m ≠ 0) := by
    by_cases hNone : m = 0
    · have hMantissa : d.mantissa = 0 := by
        rw [hNone, zero_mul] at hValue
        exact (Nat.mul_eq_zero.mp hValue).resolve_right (by positivity)
      rcases hZero hNone with hPlus | hInteger
      · simp [storedSign, hPlus]
      · have hIntg : d.integerPart = 0 := by
          rw [mantissa, hInteger] at hMantissa
          exact hMantissa
        simp [storedSign, hIntg, hInteger, hNone]
    · have hSome : ¬(d.integerPart = 0 ∧ d.frac = 0) := by
        rintro ⟨hIntg, hInteger⟩
        have hMantissa : d.mantissa = 0 := by
          rw [mantissa, hInteger]
          exact hIntg
        rw [hMantissa, zero_mul] at hValue
        exact hNone ((Nat.mul_eq_zero.mp hValue.symm).resolve_right (by positivity))
      simp [storedSign, hSome, hNone]
  rw [decimal2bin_eq h hScale (integerPart_lt hScale hm hValue) (.inl hFrac), hScaled, hSign]

/-- The rounding before the decimal is stored loses its first word. -/
def SpoiledByRounding (d : Decimal) (scale : Nat) : Prop :=
  scale < decimalActualFraction d ∧ LosesFirstWord d scale

instance (d : Decimal) (scale : Nat) : Decidable (SpoiledByRounding d scale) :=
  inferInstanceAs (Decidable (_ ∧ _))

def storedUnits (d : Decimal) (scale : Nat) : Nat :=
  if SpoiledByRounding d scale then (withoutFirst d).roundUnits scale else d.roundUnits scale

private theorem withoutFirst_trim (hTrimmed : Trimmed d f) (scale : Nat) :
    (withoutFirst { d with frac := f }).roundUnits scale = (withoutFirst d).roundUnits scale := by
  have hZero : ∀ j, roundUp f ≤ j → j < roundUp d.frac →
      (withoutFirst d).buf (roundUp d.intg + j) = 0 := by
    intro j hj hjFrac
    by_cases hFirst : roundUp d.intg + j = 0
    · simp [withoutFirst, hFirst]
    · exact (update_of_ne hFirst ..).trans (hTrimmed.zero j hj hjFrac)
  exact roundUnits_trim (d := withoutFirst d) hTrimmed.le hZero scale

theorem myDecimal2binary_eq (a : MyDecimal) (hScale : scale ≤ precision)
    (hFits : a.decimal.storedUnits scale < 10 ^ precision) :
    (myDecimal2binary a.decimal precision scale).1 =
      stored precision scale (a.decimal.sign && a.decimal.storedUnits scale ≠ 0)
        (a.decimal.storedUnits scale) := by
  obtain ⟨d, h, hLen, hWords⟩ := a
  have hTrimmed := decimalActualFraction_spec h
  have hTrimmedWf := trimmed_wellFormed h hTrimmed
  generalize hFrac : decimalActualFraction d = f at hTrimmed hTrimmedWf
  simp only [myDecimal2binary, hFrac, decide_eq_true_eq]
  have hRoom : 1 < d.len := by omega
  by_cases hCut : scale < f
  · have hTrimmedWords : roundUp d.intg + roundUp f ≤ d.len := by
      have hLe := hTrimmed.le
      unfold roundUp at hWords ⊢
      omega
    obtain ⟨r, hRound, hHolds⟩ := decimalRound_holds hTrimmedWf hCut hTrimmedWords hRoom
    have hUnits : roundUnits (if LosesFirstWord { d with frac := f } scale then withoutFirst { d with frac := f }
        else { d with frac := f }) scale = d.storedUnits scale := by
      unfold storedUnits
      split_ifs with hLoses hSpoiled hSpoiled
      · exact withoutFirst_trim hTrimmed scale
      · exact absurd ⟨by rwa [hFrac], hLoses⟩ hSpoiled
      · exact absurd hSpoiled.2 hLoses
      · exact roundUnits_trim hTrimmed.le hTrimmed.zero scale
    rw [hUnits] at hHolds
    rw [if_pos hCut, hRound]
    rw [decimal2bin_units hHolds.wellFormed hHolds.frac_le hScale hFits hHolds.value ?_]
    · simp [hHolds.sign]
    · intro hZero
      exact .inl (by simp [hHolds.sign, hZero])
  · have hNot : ¬SpoiledByRounding d scale := fun hSpoiled => hCut (hFrac ▸ hSpoiled.1)
    have hLe : f ≤ scale := Nat.le_of_not_lt hCut
    have hUnits : scaled { d with frac := f } scale = d.storedUnits scale := by
      rw [storedUnits, if_neg hNot, ← roundUnits_trim hTrimmed.le hTrimmed.zero,
        roundUnits_exact hTrimmedWf hLe]
    have hValue := hTrimmedWf.scaled_exact hLe
    rw [hUnits] at hValue
    rw [if_neg hCut]
    refine decimal2bin_units hTrimmedWf hLe hScale hFits hValue fun hZero => .inr ?_
    by_contra hSome
    have hMantissa : mantissa { d with frac := f } ≠ 0 := by
      have hRound : 0 < roundUp f := by
        unfold roundUp
        have hNe : f ≠ 0 := hSome
        omega
      refine wordsValue_ne_zero (i := roundUp d.intg + roundUp f - 1) ?_ ?_
      · change _ < roundUp d.intg + roundUp f
        omega
      · rw [zero_add]
        exact hTrimmed.last hSome
    rw [hZero, zero_mul] at hValue
    exact hMantissa ((Nat.mul_eq_zero.mp hValue).resolve_right (by positivity))

private theorem compare_unitsValue (scale m m' : Nat) :
    compare (unitsValue scale false m) (unitsValue scale false m') = compare m m' := by
  have hPos : (0 : ℚ) < 10 ^ scale := by positivity
  have hIff (x y : Nat) : unitsValue scale false x < unitsValue scale false y ↔ x < y := by
    simp only [unitsValue, Bool.false_eq_true, if_false, one_mul]
    rw [div_lt_div_iff_of_pos_right hPos, cast_lt]
  exact compare_congr (hIff m m') (hIff m' m)

private theorem unitsValue_true (scale m : Nat) :
    unitsValue scale true m = -unitsValue scale false m := by
  simp [unitsValue]

theorem unitsValue_injective (scale : Nat) (negative : Bool) :
    Function.Injective (unitsValue scale negative) := by
  intro m m' hEq
  have hPos : (10 : ℚ) ^ scale ≠ 0 := by positivity
  cases negative with
  | false => simpa [unitsValue, div_left_inj' hPos] using hEq
  | true => simpa [unitsValue, div_left_inj' hPos] using hEq

theorem memcmp_stored (hPrecision : 0 < precision) (hScale : scale ≤ precision) {m' : Nat}
    (hm : m < 10 ^ precision) (hm' : m' < 10 ^ precision) {negative negative' : Bool}
    (hSign : negative = true → m ≠ 0) (hSign' : negative' = true → m' ≠ 0) :
    memcmp (stored precision scale negative m) (stored precision scale negative' m') =
      compare (unitsValue scale negative m) (unitsValue scale negative' m') := by
  have hCompare {x y : Nat} (hx : x < 10 ^ precision) (hy : y < 10 ^ precision) :
      memcmp (encode (layout precision scale) x)
        (encode (layout precision scale) y) = compare x y :=
    memcmp_encode (by rwa [capacity_layout hScale]) (by rwa [capacity_layout hScale])
  have hBytes {n b : Nat} (hb : b ∈ encode (layout precision scale) n) : b < 256 :=
    lt_of_mem_encode hb
  obtain ⟨b, rest, hb, hEncode, hStored⟩ := stored_bytes hPrecision hScale hm
  obtain ⟨b', rest', hb', hEncode', hStored'⟩ := stored_bytes hPrecision hScale hm'
  have hUnits {n : Nat} (hn : n ≠ 0) : 0 < unitsValue scale false n := by
    have hPos : 0 < (n : ℚ) := by exact_mod_cast pos_of_ne_zero hn
    simp only [unitsValue, Bool.false_eq_true, if_false, one_mul]
    positivity
  have hNonneg (n : Nat) : 0 ≤ unitsValue scale false n := by
    simp only [unitsValue, Bool.false_eq_true, if_false, one_mul]
    positivity
  rw [hStored, hStored']
  cases negative with
  | false =>
    cases negative' with
    | false =>
      have hFirst : compare (b + 128) (b' + 128) = compare b b' := compare_congr (by omega) (by omega)
      rw [compare_unitsValue, ← hCompare hm hm', hEncode, hEncode']
      simp only [Bool.false_eq_true, if_false, memcmp, hFirst]
    | true =>
      have hGt : compare (unitsValue scale false m) (unitsValue scale true m') = .gt := by
        rw [unitsValue_true, compare_gt_iff_gt]
        have hLow := hUnits (hSign' rfl)
        have hHigh := hNonneg m
        linarith
      have hFirst : compare (b + 128) (127 - b') = .gt := Nat.compare_eq_gt.mpr (by omega)
      simp only [Bool.false_eq_true, if_false, if_true, memcmp, hFirst, hGt, Ordering.then]
  | true =>
    cases negative' with
    | false =>
      have hLt : compare (unitsValue scale true m) (unitsValue scale false m') = .lt := by
        rw [unitsValue_true, compare_lt_iff_lt]
        have hLow := hUnits (hSign rfl)
        have hHigh := hNonneg m'
        linarith
      have hFirst : compare (127 - b) (b' + 128) = .lt := Nat.compare_eq_lt.mpr (by omega)
      simp only [Bool.false_eq_true, if_false, if_true, memcmp, hFirst, hLt, Ordering.then]
    | true =>
      have hFirst : compare (127 - b) (127 - b') = compare (255 - b) (255 - b') :=
        compare_congr (by omega) (by omega)
      have hSwap : memcmp ((encode (layout precision scale) m).map (255 - ·))
            ((encode (layout precision scale) m').map (255 - ·)) =
          memcmp (encode (layout precision scale) m')
            (encode (layout precision scale) m) :=
        memcmp_complement (fun _ => hBytes) fun _ => hBytes
      rw [unitsValue_true, unitsValue_true, compare_congr neg_lt_neg_iff neg_lt_neg_iff, compare_unitsValue,
        ← hCompare hm' hm, ← hSwap, hEncode, hEncode']
      simp only [if_true, List.map_cons, memcmp, hFirst]

/-- The digit after the last one decides. -/
private theorem floor_add_half (n : Nat) {b : Nat} (hb : 0 < b) :
    ⌊(n : ℚ) / b + 1 / 2⌋ = ((n * 10 / b + 5) / 10 : Nat) := by
  have hNat : (n * 10 / b + 5) / 10 = (2 * n + b) / (2 * b) := by
    have hSum : n * 10 / b + 5 = (n * 10 + 5 * b) / b := (add_mul_div_right _ _ hb).symm
    have hNum : n * 10 + 5 * b = (2 * n + b) * 5 := by ring
    have hDen : b * 10 = 2 * b * 5 := by ring
    rw [hSum, Nat.div_div_eq_div_mul, hNum, hDen, Nat.mul_div_mul_right _ _ (by decide)]
  have hQuot : (n : ℚ) / b + 1 / 2 = ((2 * n + b : ℤ) : ℚ) / ((2 * b : ℕ) : ℚ) := by
    push_cast
    field_simp
  rw [hNat, hQuot, Rat.floor_intCast_div_natCast]
  rfl

end Decimal

/-- The value rounded to `scale` digits after the decimal point, halves away
from zero. -/
def roundTo (scale : Nat) (x : ℚ) : ℚ :=
  (if x < 0 then -1 else 1) * (⌊|x| * 10 ^ scale + 1 / 2⌋ / 10 ^ scale)

theorem roundTo_neg (scale : Nat) (x : ℚ) : roundTo scale (-x) = -roundTo scale x := by
  unfold roundTo
  rw [abs_neg]
  rcases lt_trichotomy x 0 with h | rfl | h
  · rw [if_neg (by linarith), if_pos h]
    ring
  · norm_num
  · rw [if_pos (by linarith), if_neg (by linarith)]
    ring

namespace Decimal
variable {d : Decimal} {precision scale : Nat}

theorem roundTo_val (d : Decimal) (scale : Nat) :
    roundTo scale d.val = unitsValue scale d.sign (d.roundUnits scale) := by
  have hNonneg : (0 : ℚ) ≤ d.mantissa / (10 ^ 9) ^ roundUp d.frac := by positivity
  have hFloor : ⌊(d.mantissa : ℚ) / (10 ^ 9) ^ roundUp d.frac * 10 ^ scale + 1 / 2⌋ =
      (d.roundUnits scale : ℤ) := by
    have hQuot : (d.mantissa : ℚ) / (10 ^ 9) ^ roundUp d.frac * 10 ^ scale =
        ((d.mantissa * 10 ^ scale : Nat) : ℚ) / (((10 ^ 9) ^ roundUp d.frac : Nat) : ℚ) := by
      push_cast
      ring
    rw [hQuot, floor_add_half _ (by positivity), roundUnits, scaled, pow_succ 10 scale, ← mul_assoc]
  have hRound : roundTo scale ((d.mantissa : ℚ) / (10 ^ 9) ^ roundUp d.frac) =
      unitsValue scale false (d.roundUnits scale) := by
    rw [roundTo, if_neg (not_lt.mpr hNonneg), abs_of_nonneg hNonneg, hFloor]
    simp [unitsValue]
  rw [val]
  cases d.sign with
  | false => simpa using hRound
  | true => simpa [roundTo_neg, unitsValue_true] using hRound

/-- The first word makes a difference of at least one unit. -/
private theorem roundUnits_withoutFirst_lt (hFrac : 0 < d.frac) (hLoses : LosesFirstWord d scale) :
    (withoutFirst d).roundUnits scale < d.roundUnits scale := by
  obtain ⟨hFull, hFirst, hWords⟩ := hLoses
  obtain ⟨n, hn⟩ : ∃ n, roundUp d.intg + roundUp d.frac = n + 1 := by
    refine ⟨roundUp d.intg + roundUp d.frac - 1, ?_⟩
    unfold roundUp
    omega
  have hMantissa : d.mantissa = (withoutFirst d).mantissa + (10 ^ 9 - 1) * (10 ^ 9) ^ n := by
    have hTail : wordsValue (update d.buf 0 0) 1 n = wordsValue d.buf 1 n :=
      wordsValue_congr fun i hi => update_of_ne (by omega) ..
    change wordsValue d.buf 0 (roundUp d.intg + roundUp d.frac) =
      wordsValue (update d.buf 0 0) 0 (roundUp d.intg + roundUp d.frac) + _
    rw [hn, wordsValue, wordsValue, zero_add, hTail, update_self, zero_mul,
      zero_add, hFirst, add_comm]
  -- the word is worth ten units of the next digit, left or right of the point
  have hWorth : 10 * (10 ^ 9) ^ roundUp d.frac ≤
      (10 ^ 9 - 1) * (10 ^ 9) ^ n * 10 ^ (scale + 1) := by
    rcases Nat.eq_zero_or_pos (roundUp d.intg) with hNone | hSome
    · have hScale : 2 ≤ scale + 1 := by
        rcases Nat.eq_zero_or_pos scale with rfl | hPos
        · exact absurd hWords (by rw [hNone]; decide)
        · omega
      have hPow : 10 ^ 2 ≤ 10 ^ (scale + 1) := Nat.pow_le_pow_right (by decide) hScale
      have hFracWords : roundUp d.frac = n + 1 := by omega
      calc 10 * (10 ^ 9) ^ roundUp d.frac = 10 ^ 10 * (10 ^ 9) ^ n := by
            rw [hFracWords]
            ring
        _ ≤ (10 ^ 9 - 1) * 10 ^ 2 * (10 ^ 9) ^ n := mul_le_mul_right _ (by decide)
        _ = (10 ^ 9 - 1) * (10 ^ 9) ^ n * 10 ^ 2 := by ring
        _ ≤ (10 ^ 9 - 1) * (10 ^ 9) ^ n * 10 ^ (scale + 1) := mul_le_mul_left _ hPow
    · have hPow : (10 ^ 9) ^ roundUp d.frac ≤ (10 ^ 9) ^ n :=
        Nat.pow_le_pow_right (by decide) (by omega)
      have hTen : 10 ≤ 10 ^ (scale + 1) := by
        rw [pow_succ]
        exact Nat.le_mul_of_pos_left _ (by positivity)
      calc 10 * (10 ^ 9) ^ roundUp d.frac ≤ 10 * (10 ^ 9) ^ n := mul_le_mul_left _ hPow
        _ ≤ (10 ^ 9 - 1) * (10 ^ 9) ^ n * 10 := by
            rw [mul_comm 10]
            exact mul_le_mul_right _ (Nat.le_mul_of_pos_left _ (by decide))
        _ ≤ (10 ^ 9 - 1) * (10 ^ 9) ^ n * 10 ^ (scale + 1) := mul_le_mul_left _ hTen
  have hScaled : (withoutFirst d).scaled (scale + 1) + 10 ≤ d.scaled (scale + 1) := by
    have hPos : 0 < (10 ^ 9) ^ roundUp d.frac := by positivity
    change (withoutFirst d).mantissa * 10 ^ (scale + 1) / (10 ^ 9) ^ roundUp d.frac + 10 ≤ _
    rw [scaled, ← add_mul_div_right _ _ hPos, hMantissa, add_mul]
    exact Nat.div_le_div_right (Nat.add_le_add_left hWorth _)
  unfold roundUnits
  omega

end Decimal

namespace MyDecimal
variable {precision scale : Nat}

def val (a : MyDecimal) : ℚ :=
  a.decimal.val

def toBinary (a : MyDecimal) (precision scale : Nat) : List Nat :=
  (myDecimal2binary a.decimal precision scale).1

def Fits (a : MyDecimal) (precision scale : Nat) : Prop :=
  |roundTo scale a.val| < 10 ^ (precision - scale)

theorem fits_iff (a : MyDecimal) (hScale : scale ≤ precision) :
    a.Fits precision scale ↔ a.decimal.roundUnits scale < 10 ^ precision := by
  have hAbs : |roundTo scale a.val| = (a.decimal.roundUnits scale : ℚ) / 10 ^ scale := by
    have hNonneg : (0 : ℚ) ≤ (a.decimal.roundUnits scale : ℚ) / 10 ^ scale := by positivity
    rw [val, Decimal.roundTo_val, Decimal.unitsValue, abs_mul, abs_of_nonneg hNonneg]
    cases a.decimal.sign <;> simp
  have hPow : (10 : ℚ) ^ precision = 10 ^ (precision - scale) * 10 ^ scale := by
    rw [← pow_add, Nat.sub_add_cancel hScale]
  rw [Fits, hAbs, div_lt_iff₀ (by positivity), ← hPow]
  exact_mod_cast Iff.rfl

def withoutFirst (a : MyDecimal) : MyDecimal where
  decimal := Decimals.withoutFirst a.decimal
  wellFormed := withoutFirst_wellFormed a.wellFormed
  len_eq := a.len_eq
  words_le := a.words_le

theorem withoutFirst_kept (a : MyDecimal) (scale : Nat) :
    ¬a.withoutFirst.decimal.SpoiledByRounding scale := by
  rintro ⟨-, -, hFirst, -⟩
  have hZero : a.withoutFirst.decimal.buf 0 = 0 := by
    simp [withoutFirst, Decimals.withoutFirst]
  rw [hZero] at hFirst
  exact absurd hFirst (by decide)

/-- The bytes compare like the rounded values, and are the same for the same
value. -/
structure Sorted (a b : MyDecimal) (precision scale : Nat) : Prop where
  compare_eq : memcmp (a.toBinary precision scale) (b.toBinary precision scale) =
    compare (roundTo scale a.val) (roundTo scale b.val)
  same : roundTo scale a.val = roundTo scale b.val →
    a.toBinary precision scale = b.toBinary precision scale

section
variable {a b : MyDecimal}

private theorem toBinary_eq (hScale : scale ≤ precision) (ha : a.Fits precision scale)
    (hKept : ¬a.decimal.SpoiledByRounding scale) :
    a.toBinary precision scale =
      Decimal.stored precision scale (a.decimal.sign && a.decimal.roundUnits scale ≠ 0)
        (a.decimal.roundUnits scale) := by
  have hUnits : a.decimal.storedUnits scale = a.decimal.roundUnits scale := if_neg hKept
  have hBytes := Decimal.myDecimal2binary_eq a hScale (by rwa [hUnits, ← fits_iff a hScale])
  rwa [hUnits] at hBytes

private theorem roundTo_eq (a : MyDecimal) (scale : Nat) : roundTo scale a.val =
      Decimal.unitsValue scale (a.decimal.sign && a.decimal.roundUnits scale ≠ 0)
        (a.decimal.roundUnits scale) := by
  rw [val, Decimal.roundTo_val]
  by_cases hZero : a.decimal.roundUnits scale = 0
  · simp [hZero, Decimal.unitsValue]
  · simp [hZero]

private theorem sorted_of_kept (hPrecision : 0 < precision) (hScale : scale ≤ precision)
    (ha : a.Fits precision scale) (hb : b.Fits precision scale)
    (haKept : ¬a.decimal.SpoiledByRounding scale) (hbKept : ¬b.decimal.SpoiledByRounding scale) :
    Sorted a b precision scale := by
  have hUnits (c : MyDecimal) : (c.decimal.sign && c.decimal.roundUnits scale ≠ 0) = true →
      c.decimal.roundUnits scale ≠ 0 := by simp
  have hCompare : memcmp (a.toBinary precision scale) (b.toBinary precision scale) =
      compare (roundTo scale a.val) (roundTo scale b.val) := by
    rw [toBinary_eq hScale ha haKept, toBinary_eq hScale hb hbKept, roundTo_eq, roundTo_eq]
    exact Decimal.memcmp_stored hPrecision hScale ((fits_iff a hScale).1 ha)
      ((fits_iff b hScale).1 hb) (hUnits a) (hUnits b)
  refine ⟨hCompare, fun hSame => ?_⟩
  rw [compare_eq_iff_eq.mpr hSame] at hCompare
  refine memcmp_eq_iff ?_ |>.1 hCompare
  rw [toBinary_eq hScale ha haKept, toBinary_eq hScale hb hbKept, Decimal.stored_length,
    Decimal.stored_length]

/-- The stored bytes sort like the values unless rounding spoils them: then they
are those of another value. -/
theorem sorted_iff (hPrecision : 0 < precision) (hScale : scale ≤ precision)
    (ha : a.Fits precision scale) :
    (∀ b : MyDecimal, b.Fits precision scale → ¬b.decimal.SpoiledByRounding scale →
      Sorted a b precision scale) ↔ ¬a.decimal.SpoiledByRounding scale := by
  constructor
  · intro hSorted hSpoiled
    have hFrac : 0 < a.decimal.frac :=
      (zero_le scale).trans_lt
        (hSpoiled.1.trans_le (decimalActualFraction_spec a.wellFormed).le)
    have hLess := Decimal.roundUnits_withoutFirst_lt hFrac hSpoiled.2
    have hUnits : a.decimal.storedUnits scale = a.withoutFirst.decimal.roundUnits scale :=
      if_pos hSpoiled
    have hSmall := (fits_iff a hScale).1 ha
    have hFits : a.withoutFirst.Fits precision scale :=
      (fits_iff _ hScale).2 (hLess.trans hSmall)
    -- the decimal without its first word is stored in the same bytes
    have hBytes : a.toBinary precision scale = a.withoutFirst.toBinary precision scale := by
      rw [toBinary_eq hScale hFits (withoutFirst_kept a scale), toBinary,
        Decimal.myDecimal2binary_eq a hScale (by rw [hUnits]; exact hLess.trans hSmall), hUnits]
      rfl
    have hCompare := (hSorted _ hFits (withoutFirst_kept a scale)).compare_eq
    rw [hBytes, memcmp_self, eq_comm, compare_eq_iff_eq, val, val, Decimal.roundTo_val,
      Decimal.roundTo_val] at hCompare
    exact hLess.ne' (Decimal.unitsValue_injective scale a.decimal.sign hCompare)
  · exact fun hKept b hb hbKept => sorted_of_kept hPrecision hScale ha hb hKept hbKept

end

def one : MyDecimal where
  decimal := ⟨1, 0, 9, false, fun i => [1].getD i 0⟩
  wellFormed := ⟨by decide, by decide, by decide⟩
  len_eq := rfl
  words_le := by decide

theorem one_fits : one.Fits 10 0 :=
  (fits_iff one (by decide)).2 (by decide)

theorem one_sorted : ¬one.decimal.SpoiledByRounding 0 ∧
      ∀ b : MyDecimal, b.Fits 10 0 → ¬b.decimal.SpoiledByRounding 0 → Sorted one b 10 0 :=
  ⟨by decide, (sorted_iff (by decide) (by decide) one_fits).2 (by decide)⟩

/-- 999999999.5 -/
def nearlyBillion : MyDecimal where
  decimal := ⟨9, 1, 9, false, fun i => [999999999, 500000000].getD i 0⟩
  wellFormed := ⟨by decide, by decide, by decide⟩
  len_eq := rfl
  words_le := by decide

/-- The value rounds to 1000000000 and is stored as 1. -/
theorem nearlyBillion_not_sorted : nearlyBillion.Fits 10 0 ∧ one.Fits 10 0 ∧
      nearlyBillion.toBinary 10 0 = [128, 0, 0, 0, 1] ∧ one.toBinary 10 0 = [128, 0, 0, 0, 1] ∧
      ¬Sorted nearlyBillion one 10 0 := by
  have hBytes : nearlyBillion.toBinary 10 0 = [128, 0, 0, 0, 1] := by decide
  have hOne : one.toBinary 10 0 = [128, 0, 0, 0, 1] := by decide
  refine ⟨(fits_iff _ (by decide)).2 (by decide), one_fits, hBytes, hOne, fun hSorted => ?_⟩
  have hCompare := hSorted.compare_eq
  rw [hBytes, hOne, memcmp_self, eq_comm, compare_eq_iff_eq, val, val, Decimal.roundTo_val,
    Decimal.roundTo_val] at hCompare
  have hUnits : nearlyBillion.decimal.roundUnits 0 = one.decimal.roundUnits 0 :=
    Decimal.unitsValue_injective 0 false hCompare
  revert hUnits
  decide

end MyDecimal

end MySQL.Decimals
