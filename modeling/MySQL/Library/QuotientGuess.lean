import Mathlib

/-! A digit of a quotient in base `base`, guessed from the first digits of a scaled divisor and dividend. -/
namespace Library.QuotientGuess
open Nat

variable {base factor m d : Nat}

/-- The factor that makes the first digit of a divisor large makes it half the base at least. -/
theorem half_le_scaled {v : Nat} (hv : 0 < v) (hLt : v < base) : base / 2 ≤ base / (v + 1) * v := by
  have hMod := div_add_mod base (v + 1)
  have hRest := mod_lt base v.succ_pos
  have hSome : 0 < base / (v + 1) := div_pos hLt v.succ_pos
  generalize base / (v + 1) = k at *
  generalize base % (v + 1) = r at *
  rcases lt_or_ge k 2 with hOne | hMore
  · obtain rfl : k = 1 := by omega
    omega
  · rcases lt_or_ge v 2 with hSmall | hLarge
    · obtain rfl : v = 1 := by omega
      omega
    · have hProduct : 2 * v + 2 * k ≤ k * v + 4 := by nlinarith
      have hExpand : (v + 1) * k = k * v + k := by ring
      omega

/-- A guess from scaled numbers is not too small. -/
theorem div_le_guess (hScaled : 0 < factor * d / base) : m / d ≤ factor * m / base / (factor * d / base) := by
  rw [le_div_iff_mul_le hScaled]
  calc m / d * (factor * d / base) ≤ m / d * (factor * d) / base := mul_div_le_mul_div_assoc ..
    _ = factor * (m / d * d) / base := by ring_nf
    _ ≤ factor * m / base := Nat.div_le_div_right (mul_le_mul_left _ (div_mul_le_self ..))

/-- A guess from scaled numbers is too large by two at most. -/
theorem guess_le_div (hBase : 0 < base) (hFactor : 0 < factor) (hd : 0 < d)
    (hScaled : base / 2 ≤ factor * d / base) (hDigit : m / d + 1 < base) :
    factor * m / base / (factor * d / base) ≤ m / d + 2 := by
  by_contra hLarge
  have hGuess := div_mul_le_self (factor * m / base) (factor * d / base)
  have hDividend := div_mul_le_self (factor * m) base
  have hDivisor := lt_div_mul_add (a := factor * d) hBase
  have hQuotient := lt_div_mul_add (a := m) hd
  generalize factor * m / base / (factor * d / base) = g at *
  generalize factor * m / base = n at *
  generalize factor * d / base = s at *
  generalize m / d = q at *
  have hBound : n < (q + 1) * (s + 1) := by
    have hLess : n * base < (q + 1) * (s + 1) * base := by
      calc n * base ≤ factor * m := hDividend
        _ < factor * (q * d + d) := mul_lt_mul_of_pos_left hQuotient hFactor
        _ = (q + 1) * (factor * d) := by ring
        _ ≤ (q + 1) * (s * base + base) := mul_le_mul_left _ hDivisor.le
        _ = (q + 1) * (s + 1) * base := by ring
    exact Nat.lt_of_mul_lt_mul_right hLess
  have hSteps : (q + 3) * s ≤ g * s := mul_le_mul_right s (by omega)
  have hExpand : (q + 3) * s = (q + 1) * s + 2 * s := by ring
  have hExpand' : (q + 1) * (s + 1) = (q + 1) * s + q + 1 := by ring
  omega

section Leading

variable {unit rest rest' : Nat}

/-- The quotient of the leading parts is not too small. -/
theorem div_le_leading (rest' : Nat) (hd : 0 < d) (hRest : rest < unit) :
    (m * unit + rest) / (d * unit + rest') ≤ m / d := by
  rw [le_div_iff_mul_le hd]
  have hLe := div_mul_le_self (m * unit + rest) (d * unit + rest')
  generalize _ / (d * unit + rest') = q at *
  have hLess : q * d * unit < (m + 1) * unit := by
    calc q * d * unit ≤ q * (d * unit + rest') := by nlinarith
      _ ≤ m * unit + rest := hLe
      _ < (m + 1) * unit := by rw [add_mul]; omega
  exact le_of_lt_succ (Nat.lt_of_mul_lt_mul_right hLess)

/-- The quotient of leading parts of two digits is at most the base if the quotient is a digit. -/
theorem leading_le_base (hd : base ≤ d) (hBase : 0 < base) (hRest : rest' < unit)
    (hLt : m * unit + rest < (d * unit + rest') * base) : m / d ≤ base := by
  refine Nat.lt_succ_iff.mp ((div_lt_iff_lt_mul (by omega)).mpr ?_)
  have hLess : m * unit < (d + 1) * base * unit := by
    calc m * unit ≤ m * unit + rest := Nat.le_add_right ..
      _ < (d * unit + rest') * base := hLt
      _ ≤ (d * unit + unit) * base := mul_le_mul_right _ (by omega)
      _ = (d + 1) * base * unit := by ring
  have hFinal := Nat.lt_of_mul_lt_mul_right hLess
  calc m < (d + 1) * base := hFinal
    _ ≤ (base + 1) * d := by nlinarith

/-- The quotient of leading parts of two digits is too large by one at most. -/
theorem leading_le_div (rest : Nat) (hd : base ≤ d) (hRest : rest' < unit) (hq : m / d ≤ base) (hd' : 0 < d) :
    m / d ≤ (m * unit + rest) / (d * unit + rest') + 1 := by
  have hUnit : 0 < unit := by omega
  have hQuotient := div_mul_le_self m d
  generalize m / d = q at *
  have hPos : 0 < d * unit + rest' := by positivity
  rw [← Nat.sub_le_iff_le_add, le_div_iff_mul_le hPos, Nat.sub_mul, one_mul]
  have hTail : q * rest' ≤ d * unit := Nat.mul_le_mul (hq.trans hd) hRest.le
  have hExpand : q * (d * unit + rest') = q * d * unit + q * rest' := by ring
  have hLead := mul_le_mul_right unit hQuotient
  omega

end Leading

end Library.QuotientGuess
