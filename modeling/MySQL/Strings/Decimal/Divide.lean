import MySQL.Library.QuotientGuess
import MySQL.Strings.Decimal.Words

/-! The main loop of `do_div_mod`: one word of the quotient in each turn. -/
namespace MySQL.Decimals

open Function Library Nat

/-- The words of the divisor from its first nonzero one to its last. -/
structure Divisor where
  buf : Nat → Nat
  start2 : Nat
  len2 : Nat

namespace Divisor

variable (d : Divisor)

def normFactor : Nat := 10 ^ 9 / (d.buf d.start2 + 1)

def norm2 : Nat :=
  d.normFactor * d.buf d.start2 + if 0 < d.len2 then d.normFactor * d.buf (d.start2 + 1) / 10 ^ 9 else 0

/-- The guess is one too large if the first two words of the divisor say so. -/
def correct (x y guess : Nat) : Nat :=
  if ((x : Int) - guess * d.buf d.start2) * 10 ^ 9 + y < d.buf (d.start2 + 1) * guess then guess - 1 else guess

/-- D3: make a guess -/
def guess (x y : Nat) : Nat :=
  let guess := (d.normFactor * x + d.normFactor * y / 10 ^ 9) / d.norm2
  let guess := if 10 ^ 9 ≤ guess then 10 ^ 9 - 1 else guess
  if 0 < d.len2 then d.correct x y (d.correct x y guess) else guess

end Divisor

/-- `SUB2`: a word less than zero by up to two borrows. -/
def sub2Word (x y : Nat) : Nat :=
  if x < y then if x + 10 ^ 9 < y then x + 2 * 10 ^ 9 - y else x + 10 ^ 9 - y else x - y

def sub2Carry (x y : Nat) : Nat :=
  if x < y then if x + 10 ^ 9 < y then 2 else 1 else 0

/-- D4: multiply and subtract -/
def mulSubWords (guess : Nat) (source : Nat → Nat) (p₂ p₁ : Nat) :
    (n carry : Nat) → (Nat → Nat) → Nat × (Nat → Nat)
  | 0, carry, mem => (carry, mem)
  | n + 1, carry, mem =>
    let x := guess * source (p₂ + n)
    let hi := x / 10 ^ 9
    let lo := x - hi * 10 ^ 9
    mulSubWords guess source p₂ p₁ n (sub2Carry (mem (p₁ + n)) (lo + carry) + hi)
      (Function.update mem (p₁ + n) (sub2Word (mem (p₁ + n)) (lo + carry)))

structure DivState where
  tmp1 : Nat → Nat
  start1 : Nat
  dcarry : Nat

/-- One word of the quotient: it is guessed, corrected and multiplied back. -/
def divStep (d : Divisor) (s : DivState) : Nat × DivState :=
  let (guess, tmp1) :=
    if s.dcarry = 0 ∧ s.tmp1 s.start1 < d.buf d.start2 then (0, s.tmp1)
    else
      let guess := d.guess (s.tmp1 s.start1 + s.dcarry * 10 ^ 9) (s.tmp1 (s.start1 + 1))
      let (carry, tmp1) := mulSubWords guess d.buf d.start2 s.start1 (d.len2 + 1) 0 s.tmp1
      if s.dcarry < carry then
        -- D6: correct the guess
        (guess - 1, (addWords tmp1 d.buf s.start1 d.start2 s.start1 (d.len2 + 1) 0 tmp1).2)
      else (guess, tmp1)
  (guess, ⟨tmp1, s.start1 + 1, tmp1 s.start1⟩)

/-- The main loop: `n` words of the quotient, which go to the target from `buf0` on if it is a division -/
def divLoop (d : Divisor) (div : Bool) : (n buf0 : Nat) → DivState → (Nat → Nat) → DivState × (Nat → Nat)
  | 0, _, s, mem => (s, mem)
  | n + 1, buf0, s, mem =>
    let (guess, s) := divStep d s
    divLoop d div n (buf0 + 1) s (if div then Function.update mem buf0 guess else mem)

namespace Divisor

variable (d : Divisor)

/-- The divisor as a number. -/
def value : Nat := wordsValue d.buf d.start2 (d.len2 + 1)

structure Valid : Prop where
  word : ∀ i < d.len2 + 1, d.buf (d.start2 + i) < 10 ^ 9
  first : 0 < d.buf d.start2

variable {d}

theorem Valid.value_pos (h : d.Valid) : 0 < d.value := by
  rw [value, wordsValue]
  have := h.first
  positivity

theorem Valid.le_value (h : d.Valid) : (10 ^ 9) ^ d.len2 ≤ d.value := by
  exact (Nat.le_mul_of_pos_left _ h.first).trans (Nat.le_add_right ..)

theorem Valid.value_lt (h : d.Valid) : d.value < (10 ^ 9) ^ (d.len2 + 1) := wordsValue_lt h.word

/-- The test of D3 compares the first two words. -/
theorem correct_eq (x y guess : Nat) : d.correct x y guess =
      if x * 10 ^ 9 + y < guess * (d.buf d.start2 * 10 ^ 9 + d.buf (d.start2 + 1)) then guess - 1 else guess := by
  refine if_congr ?_ rfl rfl
  have hExpand : ((x : Int) - guess * d.buf d.start2) * 10 ^ 9 + y < d.buf (d.start2 + 1) * guess ↔
      (x : Int) * 10 ^ 9 + y < guess * (d.buf d.start2 * 10 ^ 9 + d.buf (d.start2 + 1)) := by
    constructor <;> intro h <;> linarith
  rw [hExpand]
  exact_mod_cast Iff.rfl

theorem Valid.normFactor_pos (h : d.Valid) : 0 < d.normFactor := div_pos (h.word 0 d.len2.succ_pos) (succ_pos _)

/-- Two corrections turn a guess that is too large by two at most into the quotient of the first words. -/
private theorem correct_correct {g q : Nat} (hLow : q ≤ g) (hHigh : q + 1 < 10 ^ 9 → g ≤ q + 2) (hBase : q ≤ 10 ^ 9)
    {capped : Nat} (hCapped : capped = if 10 ^ 9 ≤ g then 10 ^ 9 - 1 else g) {once twice : Nat}
    (hOnce : once = if q < capped then capped - 1 else capped)
    (hTwice : twice = if q < once then once - 1 else once) : twice = min q (10 ^ 9 - 1) := by
  rw [hTwice, hOnce, hCapped]
  split_ifs <;> omega

/-- The guess for a divisor of one word is exact. -/
private theorem Valid.guess_single (h : d.Valid) (hSingle : d.len2 = 0) {x y : Nat} (hy : y < 10 ^ 9)
    (hLt : x < d.buf d.start2 * 10 ^ 9) : d.guess x y = x / d.buf d.start2 := by
  have hFactor := h.normFactor_pos
  have hSmall : d.normFactor * y / 10 ^ 9 < d.normFactor :=
    (div_lt_iff_lt_mul (by decide)).mpr (mul_lt_mul_of_pos_left hy hFactor)
  have hNorm : d.norm2 = d.normFactor * d.buf d.start2 := by simp [norm2, hSingle]
  have hDigit : x / d.buf d.start2 < 10 ^ 9 := Nat.div_lt_of_lt_mul hLt
  rw [guess, hNorm, ← Nat.div_div_eq_div_mul, mul_add_div hFactor, div_eq_of_lt hSmall, add_zero]
  rw [if_neg (by omega), if_neg (by omega)]

/-- The guess for a divisor of more words comes from the first two words, and is no less than the digit. -/
private theorem Valid.guess_double (h : d.Valid) (hMore : 0 < d.len2) {v x y : Nat}
    (hv : v = d.buf d.start2 * 10 ^ 9 + d.buf (d.start2 + 1)) (hq : (x * 10 ^ 9 + y) / v ≤ 10 ^ 9) :
    d.guess x y = min ((x * 10 ^ 9 + y) / v) (10 ^ 9 - 1) := by
  have hFactor := h.normFactor_pos
  have hFirst := h.first
  have hPos : 0 < v := by omega
  have hSplit (u v : Nat) :
      d.normFactor * (u * 10 ^ 9 + v) / 10 ^ 9 = d.normFactor * u + d.normFactor * v / 10 ^ 9 := by
    rw [mul_add, ← mul_assoc, add_comm, add_mul_div_right _ _ (by decide), add_comm]
  have hNorm : d.norm2 = d.normFactor * v / 10 ^ 9 := by
    rw [hv, hSplit, norm2, if_pos hMore]
  have hHalf : 10 ^ 9 / 2 ≤ d.normFactor * v / 10 ^ 9 := by
    rw [hv, hSplit]
    exact (QuotientGuess.half_le_scaled hFirst (h.word 0 (succ_pos _))).trans (Nat.le_add_right ..)
  have hLow := QuotientGuess.div_le_guess (m := x * 10 ^ 9 + y) (by omega : 0 < d.normFactor * v / 10 ^ 9)
  have hHigh := QuotientGuess.guess_le_div (m := x * 10 ^ 9 + y) (by decide) hFactor hPos hHalf
  have hCorrect (g : Nat) : d.correct x y g =
      if (x * 10 ^ 9 + y) / v < g then g - 1 else g := by
    rw [correct_eq, ← hv]
    exact if_congr (div_lt_iff_lt_mul hPos).symm rfl rfl
  rw [guess, ← hSplit, hNorm]
  rw [if_pos hMore]
  exact correct_correct hLow hHigh hq rfl (hCorrect _) (hCorrect _)

private theorem min_digit {q g : Nat} (hLow : q ≤ g) (hHigh : g ≤ q + 1) (hDigit : q < 10 ^ 9) :
    q ≤ min g (10 ^ 9 - 1) ∧ min g (10 ^ 9 - 1) ≤ q + 1 ∧ min g (10 ^ 9 - 1) < 10 ^ 9 := by
  omega

/-- D3 finds the word of the quotient or its successor. -/
theorem Valid.guess_spec (h : d.Valid) (mem : Nat → Nat) (p x : Nat)
    (hMem : ∀ i < d.len2 + 1, mem (p + i) < 10 ^ 9)
    (hLt : x * (10 ^ 9) ^ d.len2 + wordsValue mem p d.len2 < d.value * 10 ^ 9) :
    (x * (10 ^ 9) ^ d.len2 + wordsValue mem p d.len2) / d.value ≤ d.guess x (mem p) ∧
      d.guess x (mem p) ≤ (x * (10 ^ 9) ^ d.len2 + wordsValue mem p d.len2) / d.value + 1 ∧
      d.guess x (mem p) < 10 ^ 9 := by
  have hDigit := Nat.div_lt_of_lt_mul hLt
  have hFirst := h.first
  rcases Nat.eq_zero_or_pos d.len2 with hSingle | hMore
  · have hValue : d.value = d.buf d.start2 := by simp [value, hSingle, wordsValue]
    rw [hSingle, wordsValue, pow_zero, mul_one, hValue] at hLt ⊢
    have hGuess : d.guess x (mem p) = x / d.buf d.start2 := h.guess_single hSingle (hMem 0 (succ_pos _)) hLt
    rw [hGuess]
    exact ⟨le_refl _, le_succ _, Nat.div_lt_of_lt_mul hLt⟩
  · obtain ⟨k, hk⟩ : ∃ k, d.len2 = k + 1 := Nat.exists_eq_add_of_le' hMore
    have hDividend : x * (10 ^ 9) ^ d.len2 + wordsValue mem p d.len2 =
        (x * 10 ^ 9 + mem p) * (10 ^ 9) ^ k + wordsValue mem (p + 1) k := by
      rw [hk, wordsValue]
      ring
    have hDivisor : d.value =
        (d.buf d.start2 * 10 ^ 9 + d.buf (d.start2 + 1)) * (10 ^ 9) ^ k + wordsValue d.buf (d.start2 + 1 + 1) k := by
      rw [value, hk, wordsValue, wordsValue]
      ring
    have hRest : wordsValue mem (p + 1) k < (10 ^ 9) ^ k :=
      wordsValue_lt (words_lt_tail fun i hi => hMem i (by omega))
    have hRest' : wordsValue d.buf (d.start2 + 1 + 1) k < (10 ^ 9) ^ k :=
      wordsValue_lt (words_lt_tail (words_lt_tail fun i hi => h.word i (by omega)))
    have hBase : 10 ^ 9 ≤ d.buf d.start2 * 10 ^ 9 + d.buf (d.start2 + 1) :=
      (Nat.le_mul_of_pos_left _ hFirst).trans (Nat.le_add_right ..)
    have hPos : 0 < d.buf d.start2 * 10 ^ 9 + d.buf (d.start2 + 1) := lt_of_lt_of_le (by decide) hBase
    rw [hDividend, hDivisor] at hLt hDigit ⊢
    have hLe := QuotientGuess.leading_le_base hBase (by decide) hRest' hLt
    have hLow := QuotientGuess.div_le_leading (wordsValue d.buf (d.start2 + 1 + 1) k)
      hPos hRest (m := x * 10 ^ 9 + mem p)
    have hHigh := QuotientGuess.leading_le_div (wordsValue mem (p + 1) k) hBase hRest' hLe hPos
    rw [h.guess_double hMore rfl hLe]
    exact min_digit hLow hHigh hDigit

end Divisor

section Step

variable {guess p₁ p₂ n carry : Nat} {source mem : Nat → Nat}

private theorem sub2_spec {x y : Nat} (hx : x < 10 ^ 9) (hy : y < 2 * 10 ^ 9) :
    sub2Word x y < 10 ^ 9 ∧ sub2Carry x y ≤ 2 ∧ sub2Word x y + y = x + sub2Carry x y * 10 ^ 9 := by
  unfold sub2Word sub2Carry
  split_ifs <;> omega

theorem mulSubWords_wrote (source mem : Nat → Nat) (p₂ p₁ : Nat) (hGuess : guess < 10 ^ 9)
    (hSource : ∀ i < n, source (p₂ + i) < 10 ^ 9) (hMem : ∀ i < n, mem (p₁ + i) < 10 ^ 9) (hCarry : carry ≤ 10 ^ 9) :
    ∃ v, Wrote mem (mulSubWords guess source p₂ p₁ n carry mem).2 p₁ n v ∧
      v + guess * wordsValue source p₂ n + carry =
        wordsValue mem p₁ n + (mulSubWords guess source p₂ p₁ n carry mem).1 * (10 ^ 9) ^ n := by
  induction n generalizing mem carry with
  | zero => exact ⟨0, Wrote.nil mem p₁, by simp [mulSubWords, wordsValue]⟩
  | succ n ih =>
    have hHigh := product_high hGuess (hSource n (by omega))
    have hSplit := div_mul_le_self (guess * source (p₂ + n)) (10 ^ 9)
    rw [mulSubWords]
    generalize hHi : guess * source (p₂ + n) / 10 ^ 9 = hi at *
    obtain ⟨lo, hLo⟩ := Nat.exists_eq_add_of_le hSplit
    rw [hLo, Nat.add_sub_cancel_left]
    obtain ⟨hWord, hBorrow, hDiff⟩ := sub2_spec (hMem n (by omega)) (by omega : lo + carry < 2 * 10 ^ 9)
    generalize sub2Word _ _ = word at *
    generalize sub2Carry _ _ = borrow at *
    have hKept : ∀ i < n, update mem (p₁ + n) word (p₁ + i) = mem (p₁ + i) :=
      fun i hi => update_of_ne (by omega) ..
    obtain ⟨v, hWrote, hSum⟩ := ih (update mem (p₁ + n) word) (fun i hi => hSource i (by omega))
      (fun i hi => by rw [hKept i hi]; exact hMem i (by omega)) (by omega : borrow + hi ≤ 10 ^ 9)
    refine ⟨_, (Wrote.singleton hWord).append hWrote, ?_⟩
    rw [wordsValue_congr hKept] at hSum
    rw [wordsValue_concat, wordsValue_concat]
    linear_combination (10 ^ 9) * hSum + hDiff + hLo

def DivState.rest (s : DivState) (d : Divisor) : Nat :=
  s.dcarry * (10 ^ 9) ^ d.len2 + wordsValue s.tmp1 s.start1 d.len2

private theorem eq_of_add_mul {a b x y unit : Nat} (ha : a < unit) (hb : b < unit) (h : a + x * unit = b + y * unit) :
    a = b ∧ x = y := by
  have hUnit : 0 < unit := by omega
  have hMod := congrArg (· % unit) h
  have hDiv := congrArg (· / unit) h
  simp only [add_mul_mod_self_right, mod_eq_of_lt ha, mod_eq_of_lt hb] at hMod
  simp only [add_mul_div_right _ _ hUnit, div_eq_of_lt ha, div_eq_of_lt hb, zero_add] at hDiv
  exact ⟨hMod, hDiv⟩

private theorem right_guess {v r w q value carry dcarry unit : Nat} (hv : v < unit) (hr : r < unit)
    (hDiff : v + q * value = w + carry * unit) (hMod : value * q + r = dcarry * unit + w) :
    v = r ∧ carry = dcarry :=
  (eq_of_add_mul hv hr (by linarith : v + dcarry * unit = r + carry * unit)).imp id Eq.symm

private theorem high_guess {v r w q value carry dcarry unit : Nat} (hv : v < unit) (hr : r < value)
    (hValue : value < unit) (hDiff : v + (q + 1) * value = w + carry * unit)
    (hMod : value * q + r = dcarry * unit + w) : v + value = r + unit ∧ carry = dcarry + 1 := by
  have hSum : v + value + dcarry * unit = r + carry * unit := by linarith
  rcases lt_trichotomy carry (dcarry + 1) with hLess | rfl | hMore
  · have hScaled := mul_le_mul_right unit (Nat.lt_succ_iff.mp hLess)
    omega
  · rw [add_mul] at hSum
    exact ⟨by omega, rfl⟩
  · have hScaled := mul_le_mul_right unit hMore
    rw [succ_mul, succ_mul] at hScaled
    omega

variable {d : Divisor} {s : DivState} {limit : Nat}

/-- A turn of the loop divides the part left over and one more word. -/
theorem divStep_wrote (hd : d.Valid) (hTmp : ∀ i < limit, s.tmp1 i < 10 ^ 9)
    (hRoom : s.start1 + d.len2 + 1 < limit) (hRest : s.rest d < d.value) {n : Nat}
    (hn : n = s.rest d * 10 ^ 9 + s.tmp1 (s.start1 + d.len2)) :
    ∃ tmp1, divStep d s = (n / d.value, ⟨tmp1, s.start1 + 1, tmp1 s.start1⟩) ∧
      Wrote s.tmp1 tmp1 s.start1 (d.len2 + 1) (n % d.value) := by
  have hWindow : ∀ i < d.len2 + 1, s.tmp1 (s.start1 + i) < 10 ^ 9 := fun i hi => hTmp _ (by omega)
  have hWhole : n = s.dcarry * (10 ^ 9) ^ (d.len2 + 1) + wordsValue s.tmp1 s.start1 (d.len2 + 1) := by
    rw [hn, DivState.rest, wordsValue_concat]
    ring
  have hFirst : n = (s.tmp1 s.start1 + s.dcarry * 10 ^ 9) * (10 ^ 9) ^ d.len2 +
      wordsValue s.tmp1 (s.start1 + 1) d.len2 := by
    rw [hWhole, wordsValue]
    ring
  have hLt : n < d.value * 10 ^ 9 := by
    have hWord := hWindow d.len2 (lt_succ_self _)
    omega
  have hMod := div_add_mod n d.value
  have hSmall := mod_lt n hd.value_pos
  have hUnit := hd.value_lt
  rw [divStep]
  by_cases hShort : s.dcarry = 0 ∧ s.tmp1 s.start1 < d.buf d.start2
  · have hNone : n < d.value := by
      have hTail := wordsValue_lt (words_lt_tail hWindow)
      calc n = s.tmp1 s.start1 * (10 ^ 9) ^ d.len2 + wordsValue s.tmp1 (s.start1 + 1) d.len2 := by
            rw [hFirst, hShort.1, zero_mul, add_zero]
        _ < (s.tmp1 s.start1 + 1) * (10 ^ 9) ^ d.len2 := by
            rw [add_mul, one_mul]
            exact Nat.add_lt_add_left hTail _
        _ ≤ d.buf d.start2 * (10 ^ 9) ^ d.len2 := mul_le_mul_right _ hShort.2
        _ ≤ d.value := Nat.le_add_right ..
    rw [if_pos hShort, div_eq_of_lt hNone, mod_eq_of_lt hNone]
    refine ⟨s.tmp1, rfl, hWindow, ?_, fun _ _ => rfl⟩
    rw [hWhole, hShort.1, zero_mul, zero_add]
  · obtain ⟨hLow, hHigh, hDigit⟩ := hd.guess_spec s.tmp1 (s.start1 + 1)
      (s.tmp1 s.start1 + s.dcarry * 10 ^ 9) (fun i hi => hTmp _ (by omega)) (by rwa [← hFirst])
    rw [← hFirst] at hLow hHigh
    rw [if_neg hShort]
    dsimp only
    generalize d.guess _ _ = guess at *
    obtain ⟨v, hWrote, hDiff⟩ := mulSubWords_wrote d.buf s.tmp1 d.start2 s.start1 hDigit hd.word hWindow
      (zero_le (10 ^ 9))
    generalize mulSubWords guess d.buf d.start2 s.start1 _ 0 s.tmp1 = out at *
    obtain ⟨carry, tmp1⟩ := out
    have hv := wordsValue_lt hWrote.word
    rw [hWrote.value] at hv
    have hMod' := hMod.trans hWhole
    obtain hRight | hOne : guess = n / d.value ∨ guess = n / d.value + 1 := by omega
    · obtain ⟨rfl, rfl⟩ := right_guess hv (hSmall.trans hUnit) (hRight ▸ hDiff) hMod'
      rw [if_neg (lt_irrefl _), hRight]
      exact ⟨tmp1, rfl, hWrote⟩
    · obtain ⟨hBack, rfl⟩ := high_guess hv hSmall hUnit (hOne ▸ hDiff) hMod'
      rw [if_pos (lt_succ_self _), hOne, Nat.add_sub_cancel]
      obtain ⟨w, hWrote', hCarry, hSum⟩ :=
        addWords_wrote tmp1 d.buf tmp1 s.start1 d.start2 s.start1 hWrote.word hd.word (zero_le 1)
      have hw := wordsValue_lt hWrote'.word
      rw [hWrote'.value] at hw
      rw [hWrote.value, add_zero] at hSum
      obtain ⟨rfl, -⟩ := eq_of_add_mul hw (hSmall.trans hUnit)
        (hSum.trans (hBack.trans (by rw [one_mul])))
      exact ⟨_, rfl, hWrote.trans hWrote'⟩

def DivState.dividend (s : DivState) (d : Divisor) (n : Nat) : Nat :=
  s.rest d * (10 ^ 9) ^ n + wordsValue s.tmp1 (s.start1 + d.len2) n

structure Divided (d : Divisor) (limit n : Nat) (s s' : DivState) : Prop where
  start1 : s'.start1 = s.start1 + n
  dcarry : s'.dcarry < 10 ^ 9
  rest : s'.rest d = s.dividend d n % d.value
  word : ∀ i < limit, s'.tmp1 i < 10 ^ 9
  kept : ∀ i, s.start1 + d.len2 + n ≤ i → s'.tmp1 i = s.tmp1 i

private theorem div_mod_of_turn {value : Nat} (n unit low : Nat) (hValue : 0 < value) :
    (n * unit + low) / value = n / value * unit + (n % value * unit + low) / value ∧
      (n * unit + low) % value = (n % value * unit + low) % value := by
  have hSplit : n * unit + low = n % value * unit + low + value * (n / value * unit) := by
    have hn := div_add_mod n value
    calc n * unit + low = (value * (n / value) + n % value) * unit + low := by rw [hn]
      _ = n % value * unit + low + value * (n / value * unit) := by ring
  constructor
  · rw [hSplit, add_mul_div_left _ _ hValue, add_comm]
  · rw [hSplit, add_mul_mod_self_left]

/-- The main loop divides the part left over and `n` more words. -/
theorem divLoop_spec (hd : d.Valid) (div : Bool) {n : Nat} (buf0 : Nat) (mem : Nat → Nat)
    (hCarry : s.dcarry < 10 ^ 9) (hTmp : ∀ i < limit, s.tmp1 i < 10 ^ 9)
    (hRoom : 0 < n → s.start1 + d.len2 + n < limit) (hRest : s.rest d < d.value) :
    ∃ s' mem', divLoop d div n buf0 s mem = (s', mem') ∧ Divided d limit n s s' ∧
      (div = true → Wrote mem mem' buf0 n (s.dividend d n / d.value)) := by
  induction n generalizing s buf0 mem with
  | zero =>
    have hWhole : s.dividend d 0 = s.rest d := by simp [DivState.dividend, wordsValue]
    refine ⟨s, mem, rfl, ⟨rfl, hCarry, ?_, hTmp, fun _ _ => rfl⟩, fun _ => ?_⟩
    · rw [hWhole, mod_eq_of_lt hRest]
    · rw [hWhole, div_eq_of_lt hRest]
      exact Wrote.nil mem buf0
  | succ n ih =>
    have hRoom' := hRoom n.succ_pos
    obtain ⟨x, hx⟩ : ∃ x, x = s.rest d * 10 ^ 9 + s.tmp1 (s.start1 + d.len2) := ⟨_, rfl⟩
    obtain ⟨tmp1, hStep, hWrote⟩ := divStep_wrote hd hTmp (by omega) hRest hx
    have hTmp' : ∀ i < limit, tmp1 i < 10 ^ 9 := by
      intro i hi
      by_cases hIn : s.start1 ≤ i ∧ i < s.start1 + (d.len2 + 1)
      · have hWord := hWrote.word (i - s.start1) (by omega)
        rwa [Nat.add_sub_cancel' hIn.1] at hWord
      · rw [hWrote.else_same i (by omega)]
        exact hTmp i hi
    have hRest' : DivState.rest ⟨tmp1, s.start1 + 1, tmp1 s.start1⟩ d = x % d.value := by
      rw [← hWrote.value]
      rfl
    have hKept : ∀ i, s.start1 + d.len2 + 1 ≤ i → tmp1 i = s.tmp1 i := fun i hi => hWrote.else_same i (by omega)
    have hNext : DivState.dividend ⟨tmp1, s.start1 + 1, tmp1 s.start1⟩ d n =
        x % d.value * (10 ^ 9) ^ n + wordsValue s.tmp1 (s.start1 + d.len2 + 1) n := by
      rw [DivState.dividend, hRest']
      rw [add_right_comm s.start1 1 d.len2, wordsValue_congr fun i _ => hKept _ (by omega)]
    have hNow : s.dividend d (n + 1) = x * (10 ^ 9) ^ n + wordsValue s.tmp1 (s.start1 + d.len2 + 1) n := by
      rw [DivState.dividend, wordsValue, hx, pow_succ]
      ring
    obtain ⟨hDiv, hMod⟩ := div_mod_of_turn x _ _
      hd.value_pos
    rw [← hNow, ← hNext] at hDiv hMod
    have hDigit : x / d.value < 10 ^ 9 := by
      have hWord := hTmp (s.start1 + d.len2) (by omega)
      exact Nat.div_lt_of_lt_mul (by omega)
    obtain ⟨s', mem', hLoop, hDivided, hQuotient⟩ := ih _
      (if div then update mem buf0 _ else mem) (hTmp' _ (by omega)) hTmp'
      (fun _ => by dsimp only; omega) (hRest' ▸ mod_lt x hd.value_pos)
    refine ⟨s', mem', ?_, ⟨?_, hDivided.dcarry, ?_, hDivided.word, fun i hi => ?_⟩, fun hTrue => ?_⟩
    · rw [divLoop, hStep]
      exact hLoop
    · rw [hDivided.start1, add_assoc, add_comm 1 n]
    · rw [hDivided.rest, hMod]
    · exact (hDivided.kept i (by dsimp only; omega)).trans (hKept i (by omega))
    · have hFirst : Wrote mem (if div then update mem buf0 (x / d.value) else mem) buf0 1 (x / d.value) := by
        rw [if_pos hTrue]
        exact Wrote.singleton hDigit
      rw [hDiv, add_comm n 1]
      exact hFirst.extend (hQuotient hTrue)

end Step

end MySQL.Decimals
