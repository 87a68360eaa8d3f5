import MySQL.Strings.Decimal.Aligned
import MySQL.Strings.Decimal.Binary

/-! The first half of `do_sub`: the operands without their zero words and which of them is larger.
`decimal_cmp` uses nothing else. -/
namespace MySQL.Decimals
open Nat

/-- `while (buf1 < stop1 && *buf1 == 0) buf1++`, with `n` words before `stop1` -/
def skipZeros (buf : Nat → Nat) (pos : Nat) : Nat → Nat
  | 0 => pos
  | n + 1 => if buf pos = 0 then skipZeros buf (pos + 1) n else pos

/-- `while (buf1 <= end1 && *end1 == 0) end1--`: how many of the `n` words from `pos` on remain -/
def dropZeros (buf : Nat → Nat) (pos : Nat) : Nat → Nat
  | 0 => 0
  | n + 1 => if buf (pos + n) = 0 then dropZeros buf pos n else n + 1

/-- Compare words from the left; `n₁` and `n₂` words are there. -/
def compareWords (buf1 buf2 : Nat → Nat) (pos1 pos2 : Nat) : (n₁ n₂ : Nat) → Ordering
  | 0, 0 => .eq
  | _ + 1, 0 => .gt
  | 0, _ + 1 => .lt
  | n₁ + 1, n₂ + 1 =>
    if buf1 pos1 = buf2 pos2 then compareWords buf1 buf2 (pos1 + 1) (pos2 + 1) n₁ n₂
    else if buf1 pos1 < buf2 pos2 then .lt
    else .gt

/-- The words of a decimal that `do_sub` works on: `intg` words before the point from `start` on and
`frac` after it. `frac` is negative if words before the point are left out too. -/
structure Operand where
  buf : Nat → Nat
  start : Nat
  intg : Nat
  frac : Int

def Operand.words (o : Operand) : Nat := (o.intg + o.frac).toNat

def operand (d : Decimal) : Operand where
  buf := d.buf
  start := skipZeros d.buf 0 (roundUp d.intg)
  intg := roundUp d.intg - skipZeros d.buf 0 (roundUp d.intg)
  frac := roundUp d.frac

def Operand.trim (o : Operand) : Operand :=
  { o with frac := (dropZeros o.buf o.start o.words : Int) - o.intg }

/-- Compare the absolute values. The words at the end are looked at only if both numbers have the
same words in front of the point. -/
def compareParts (from1 from2 : Decimal) : Operand × Operand × Ordering :=
  let part1 := operand from1
  let part2 := operand from2
  if part1.intg < part2.intg then (part1, part2, .lt)
  else if part2.intg = part1.intg then
    let part1 := part1.trim
    let part2 := part2.trim
    (part1, part2, compareWords part1.buf part2.buf part1.start part2.start part1.words part2.words)
  else (part1, part2, .gt)

def decimalCmp (from1 from2 : Decimal) : Int :=
  if from1.sign = from2.sign then
    match (compareParts from1 from2).2.2 with
    | .eq => 0
    | .lt => if from1.sign then 1 else -1
    | .gt => if from1.sign then -1 else 1
  else if from1.sign then -1
  else 1

section Words

variable {buf buf1 buf2 : Nat → Nat} {pos pos1 pos2 n n₁ n₂ : Nat}

section
variable (buf : Nat → Nat) (pos n : Nat)

theorem skipZeros_spec :
    pos ≤ skipZeros buf pos n ∧ skipZeros buf pos n ≤ pos + n ∧
      (∀ i, pos ≤ i → i < skipZeros buf pos n → buf i = 0) ∧
      (skipZeros buf pos n < pos + n → buf (skipZeros buf pos n) ≠ 0) := by
  induction n generalizing pos with
  | zero => simp [skipZeros]; omega
  | succ n ih =>
    rw [skipZeros]
    split_ifs with hZero
    · obtain ⟨hGe, hLe, hSkipped, hFirst⟩ := ih (pos + 1)
      refine ⟨by omega, by omega, fun i hi hLt => ?_, fun hLt => hFirst (by omega)⟩
      rcases eq_or_lt_of_le hi with rfl | hi
      · exact hZero
      · exact hSkipped i hi hLt
    · exact ⟨le_refl pos, by omega, fun i hi hLt => absurd hi (by omega), fun _ => hZero⟩

theorem dropZeros_le : dropZeros buf pos n ≤ n := by
  induction n with
  | zero => exact le_refl 0
  | succ n ih =>
    rw [dropZeros]
    split_ifs
    · omega
    · exact le_refl _

theorem dropZeros_last (h : 0 < dropZeros buf pos n) :
    buf (pos + (dropZeros buf pos n - 1)) ≠ 0 := by
  induction n with
  | zero => exact absurd h (lt_irrefl 0)
  | succ n ih =>
    rw [dropZeros] at h ⊢
    split_ifs at h ⊢ with hZero
    · exact ih h
    · exact hZero

theorem dropZeros_value : wordsValue buf pos n =
      wordsValue buf pos (dropZeros buf pos n) * (10 ^ 9) ^ (n - dropZeros buf pos n) := by
  induction n with
  | zero => simp [dropZeros, wordsValue]
  | succ n ih =>
    have hLe := dropZeros_le buf pos n
    rw [dropZeros]
    split_ifs with hZero
    · have hMore : n + 1 - dropZeros buf pos n = n - dropZeros buf pos n + 1 := by omega
      rw [wordsValue_concat, hZero, ih, hMore, pow_succ (10 ^ 9), add_zero, mul_assoc]
    · rw [Nat.sub_self, pow_zero, mul_one]

end

private theorem compare_affine (x y c : Nat) {k : Nat} (hk : 0 < k) :
    compare (c + x * k) (c + y * k) = compare x y := by
  have hIff (x y : Nat) : c + x * k < c + y * k ↔ x < y := by
    rw [add_lt_add_iff_left, Nat.mul_lt_mul_right hk]
  exact Library.compare_congr (hIff x y) (hIff y x)

private theorem compare_mul (x y : Nat) {k : Nat} (hk : 0 < k) : compare (x * k) (y * k) = compare x y := by
  simpa using compare_affine x y 0 hk

private theorem wordsValue_succ_mul (buf : Nat → Nat) (pos n m : Nat) :
    wordsValue buf pos (n + 1) * (10 ^ 9) ^ (m + 1) =
      buf pos * (10 ^ 9) ^ (n + m + 1) + wordsValue buf (pos + 1) n * (10 ^ 9) ^ m * 10 ^ 9 := by
  rw [wordsValue]
  ring

private theorem tail_lt (h : ∀ i < n, buf (pos + i) < 10 ^ 9) (m : Nat) :
    wordsValue buf pos n * (10 ^ 9) ^ m * 10 ^ 9 < (10 ^ 9) ^ (n + m + 1) := by
  rw [pow_succ (10 ^ 9) (n + m), pow_add]
  exact mul_lt_mul_of_pos_right (mul_lt_mul_of_pos_right (wordsValue_lt h) (by positivity)) (by decide)

private theorem last_tail (h : 0 < n + 1 → buf (pos + (n + 1 - 1)) ≠ 0) : 0 < n → buf (pos + 1 + (n - 1)) ≠ 0 := by
  intro hn
  have hPlace : pos + 1 + (n - 1) = pos + (n + 1 - 1) := by omega
  rw [hPlace]
  exact h n.succ_pos

/-- The words as digits of a fraction, without zeros at the end -/
theorem compareWords_eq (h₁ : ∀ i < n₁, buf1 (pos1 + i) < 10 ^ 9) (h₂ : ∀ i < n₂, buf2 (pos2 + i) < 10 ^ 9)
    (hLast₁ : 0 < n₁ → buf1 (pos1 + (n₁ - 1)) ≠ 0) (hLast₂ : 0 < n₂ → buf2 (pos2 + (n₂ - 1)) ≠ 0) :
    compareWords buf1 buf2 pos1 pos2 n₁ n₂ =
      compare (wordsValue buf1 pos1 n₁ * (10 ^ 9) ^ n₂) (wordsValue buf2 pos2 n₂ * (10 ^ 9) ^ n₁) := by
  fun_induction compareWords buf1 buf2 pos1 pos2 n₁ n₂ with
  | case1 => rfl
  | case2 pos1 pos2 n₁ =>
    rw [eq_comm, compare_gt_iff_gt, wordsValue, zero_mul, pow_zero, mul_one]
    exact pos_of_ne_zero (wordsValue_ne_zero (lt_succ_self n₁) (hLast₁ n₁.succ_pos))
  | case3 pos1 pos2 n₂ =>
    rw [eq_comm, compare_lt_iff_lt, wordsValue, zero_mul, pow_zero, mul_one]
    exact pos_of_ne_zero (wordsValue_ne_zero (lt_succ_self n₂) (hLast₂ n₂.succ_pos))
  | case4 pos1 pos2 n₁ n₂ hSame ih =>
    rw [ih (words_lt_tail h₁) (words_lt_tail h₂) (last_tail hLast₁) (last_tail hLast₂),
      wordsValue_succ_mul, wordsValue_succ_mul, hSame, add_comm n₂ n₁,
      compare_affine _ _ _ (by decide)]
  | case5 pos1 pos2 n₁ n₂ _ hLt =>
    rw [eq_comm, compare_lt_iff_lt, wordsValue_succ_mul, wordsValue_succ_mul, add_comm n₂ n₁]
    exact Library.mul_add_lt_mul_add hLt (tail_lt (words_lt_tail h₁) n₂) _
  | case6 pos1 pos2 n₁ n₂ hNe hGe =>
    rw [eq_comm, compare_gt_iff_gt, wordsValue_succ_mul, wordsValue_succ_mul, add_comm n₁ n₂]
    exact Library.mul_add_lt_mul_add (by omega) (tail_lt (words_lt_tail h₂) n₁) _

end Words

variable {d from1 from2 : Decimal} {o : Operand} {frac : Nat}

structure Operand.Of (o : Operand) (d : Decimal) : Prop where
  first : 0 < o.intg → o.buf o.start ≠ 0
  frac_le : o.frac ≤ roundUp d.frac
  nonneg : 0 ≤ o.intg + o.frac
  word : ∀ i < o.words, o.buf (o.start + i) < 10 ^ 9
  value : ∀ frac, roundUp d.frac ≤ frac →
    d.aligned frac = wordsValue o.buf o.start o.words * (10 ^ 9) ^ (o.intg + frac - o.words)

theorem operand_of (hd : d.WellFormed) : (operand d).Of d := by
  obtain ⟨-, hLe, hSkipped, hFirst⟩ := skipZeros_spec d.buf 0 _
  rw [zero_add] at hLe hFirst
  set start := skipZeros d.buf 0 (roundUp d.intg)
  have hWords : (operand d).words = roundUp d.intg - start + roundUp d.frac := by
    simp only [Operand.words, operand]
    omega
  refine ⟨fun h => hFirst (Nat.lt_of_sub_pos h), le_refl _, by simp only [operand]; omega, fun i hi => ?_,
    fun frac hFrac => ?_⟩
  · rw [hWords] at hi
    exact hd.word (start + i) (by omega)
  · have hSplit : roundUp d.intg + roundUp d.frac = start + (roundUp d.intg - start + roundUp d.frac) := by omega
    have hZero : wordsValue d.buf 0 start = 0 :=
      wordsValue_eq_zero fun i hi => by
        rw [zero_add]
        exact hSkipped i (zero_le i) hi
    have hRest : (operand d).intg + frac - (operand d).words = frac - roundUp d.frac := by
      rw [hWords]
      simp only [operand]
      omega
    rw [Decimal.aligned, Decimal.mantissa, hSplit, wordsValue_add, hZero, zero_mul, zero_add,
      zero_add, hRest]
    rfl

namespace Operand.Of

section
variable (h : o.Of d) (hFrac : roundUp d.frac ≤ frac)
include h hFrac

theorem words_le : o.words ≤ o.intg + frac := by
  have hLe := h.frac_le
  unfold words
  omega

theorem lt : d.aligned frac < (10 ^ 9) ^ (o.intg + frac) := by
  have hWords : o.intg + frac = o.words + (o.intg + frac - o.words) := by
    have := h.words_le hFrac
    omega
  rw [h.value frac hFrac]
  calc wordsValue o.buf o.start o.words * (10 ^ 9) ^ (o.intg + frac - o.words)
      < (10 ^ 9) ^ o.words * (10 ^ 9) ^ (o.intg + frac - o.words) :=
        mul_lt_mul_of_pos_right (wordsValue_lt h.word) (by positivity)
    _ = (10 ^ 9) ^ (o.intg + frac) := by rw [← pow_add, ← hWords]

theorem le (hIntg : 0 < o.intg) (hPoint : 0 ≤ o.frac) :
    (10 ^ 9) ^ (o.intg - 1 + frac) ≤ d.aligned frac := by
  obtain ⟨n, hn⟩ : ∃ n, o.words = n + 1 := by
    refine Nat.exists_eq_add_of_le' ?_
    unfold words
    omega
  have hWords : o.intg - 1 + frac = n + (o.intg + frac - o.words) := by
    have := h.words_le hFrac
    omega
  have hFirst := pos_of_ne_zero (h.first hIntg)
  rw [h.value frac hFrac, hWords, pow_add]
  refine mul_le_mul_right _ ?_
  rw [hn]
  exact (Nat.le_mul_of_pos_left _ hFirst).trans (Nat.le_add_right ..)

end

/-- The zero words at the end do not matter. -/
theorem trim (h : o.Of d) : o.trim.Of d := by
  have hLe := dropZeros_le o.buf o.start o.words
  have hWords : o.trim.words = dropZeros o.buf o.start o.words := by
    simp only [words, Operand.trim]
    omega
  have hNonneg := h.nonneg
  have hFrac := h.frac_le
  refine ⟨h.first, ?_, ?_, fun i hi => h.word i (by omega), fun frac hAll => ?_⟩
  · simp only [Operand.trim, words] at hLe ⊢
    omega
  · simp only [Operand.trim]
    omega
  · have hCount := h.words_le hAll
    have hRest : o.intg + frac - dropZeros o.buf o.start o.words =
        o.words - dropZeros o.buf o.start o.words + (o.intg + frac - o.words) := by omega
    rw [h.value frac hAll, dropZeros_value, hWords]
    show _ = wordsValue o.buf o.start _ * (10 ^ 9) ^ (o.intg + frac - _)
    rw [hRest, pow_add, mul_assoc]

end Operand.Of

theorem trim_last (o : Operand) (h : 0 < o.trim.words) :
    o.trim.buf (o.trim.start + (o.trim.words - 1)) ≠ 0 := by
  have hWords : o.trim.words = dropZeros o.buf o.start o.words := by
    simp only [Operand.words, Operand.trim]
    omega
  rw [hWords] at h ⊢
  exact dropZeros_last o.buf o.start o.words h

/-- `large` reaches as far to the left as `small`, and the point is within both unless they reach
equally far. -/
structure Reaches (large small : Operand) : Prop where
  intg : small.intg ≤ large.intg
  point : small.intg < large.intg → 0 ≤ large.frac ∧ 0 ≤ small.frac

private theorem compare_trimmed {part1 part2 : Operand} (h₁ : part1.Of from1) (h₂ : part2.Of from2)
    (hSame : part2.intg = part1.intg) (hFrac₁ : roundUp from1.frac ≤ frac) (hFrac₂ : roundUp from2.frac ≤ frac) :
    compareWords part1.trim.buf part2.trim.buf part1.trim.start part2.trim.start part1.trim.words
        part2.trim.words = compare (from1.aligned frac) (from2.aligned frac) := by
  have hScale {p : Operand} {d : Decimal} (h : p.trim.Of d) (hFrac : roundUp d.frac ≤ frac) :
      d.aligned frac * (10 ^ 9) ^ p.trim.words =
        wordsValue p.trim.buf p.trim.start p.trim.words * (10 ^ 9) ^ (p.intg + frac) := by
    have hWords : p.intg + frac - p.trim.words + p.trim.words = p.intg + frac :=
      Nat.sub_add_cancel (h.words_le hFrac)
    rw [h.value frac hFrac, mul_assoc, ← pow_add]
    exact congrArg (_ * (10 ^ 9) ^ ·) hWords
  rw [compareWords_eq h₁.trim.word h₂.trim.word (trim_last part1) (trim_last part2),
    ← compare_mul _ _ (by positivity : 0 < (10 ^ 9) ^ (part1.intg + frac)),
    ← compare_mul (from1.aligned frac) _ (by positivity : 0 < (10 ^ 9) ^ (part1.trim.words + part2.trim.words))]
  have hScale₁ := hScale h₁.trim hFrac₁
  have hScale₂ := hScale h₂.trim hFrac₂
  rw [hSame] at hScale₂
  congr 1
  · rw [pow_add]
    linear_combination (10 ^ 9) ^ part2.trim.words * hScale₁.symm
  · rw [pow_add]
    linear_combination (10 ^ 9) ^ part1.trim.words * hScale₂.symm

/-- The first half of `do_sub` compares the absolute values. -/
theorem compareParts_spec (h₁ : from1.WellFormed) (h₂ : from2.WellFormed) (hFrac₁ : roundUp from1.frac ≤ frac)
    (hFrac₂ : roundUp from2.frac ≤ frac) :
    ∃ part1 part2 order, compareParts from1 from2 = (part1, part2, order) ∧ part1.Of from1 ∧ part2.Of from2 ∧
      order = compare (from1.aligned frac) (from2.aligned frac) ∧
      (order = .lt → Reaches part2 part1) ∧ (order = .gt → Reaches part1 part2) := by
  have hOf₁ := operand_of h₁
  have hOf₂ := operand_of h₂
  have hPoint (d : Decimal) : 0 ≤ (operand d).frac := Int.natCast_nonneg _
  have hMono {m n : Nat} (h : m ≤ n) : (10 ^ 9) ^ m ≤ (10 ^ 9) ^ n := Nat.pow_le_pow_right (by decide) h
  unfold compareParts
  dsimp only
  split_ifs with hLess hSame
  · have hLt : from1.aligned frac < from2.aligned frac := by
      have hBelow := hOf₁.lt hFrac₁
      have hAbove := hOf₂.le hFrac₂ (by omega) (hPoint from2)
      have hPow := hMono (by omega : (operand from1).intg + frac ≤ (operand from2).intg - 1 + frac)
      omega
    exact ⟨_, _, _, rfl, hOf₁, hOf₂, (compare_lt_iff_lt.mpr hLt).symm,
      fun _ => ⟨hLess.le, fun _ => ⟨hPoint from2, hPoint from1⟩⟩, by simp⟩
  · exact ⟨_, _, _, rfl, hOf₁.trim, hOf₂.trim, compare_trimmed hOf₁ hOf₂ hSame hFrac₁ hFrac₂,
      fun _ => ⟨hSame.ge, fun hNe => absurd hNe (by simp [Operand.trim, hSame])⟩,
      fun _ => ⟨hSame.le, fun hNe => absurd hNe (by simp [Operand.trim, hSame])⟩⟩
  · have hGt : from2.aligned frac < from1.aligned frac := by
      have hBelow := hOf₂.lt hFrac₂
      have hAbove := hOf₁.le hFrac₁ (by omega) (hPoint from1)
      have hPow := hMono (by omega : (operand from2).intg + frac ≤ (operand from1).intg - 1 + frac)
      omega
    exact ⟨_, _, _, rfl, hOf₁, hOf₂, (compare_gt_iff_gt.mpr hGt).symm, by simp,
      fun _ => ⟨by omega, fun _ => ⟨hPoint from1, hPoint from2⟩⟩⟩

/-- `-1`, `0` or `1` as the first number is less than, equal to or greater than the second -/
def signOfCompare : Ordering → Int
  | .lt => -1
  | .eq => 0
  | .gt => 1

private theorem compare_div (x y n : Nat) :
    compare (x / (10 ^ 9) ^ n : ℚ) (y / (10 ^ 9) ^ n) = compare x y := by
  have hPos : (0 : ℚ) < (10 ^ 9) ^ n := by positivity
  have hIff (x y : Nat) : (x / (10 ^ 9) ^ n : ℚ) < y / (10 ^ 9) ^ n ↔ x < y := by
    rw [div_lt_div_iff_of_pos_right hPos, cast_lt]
  exact Library.compare_congr (hIff x y) (hIff y x)

/-- `decimal_cmp` compares the values, except for two zeros of different signs. -/
theorem decimalCmp_eq (h₁ : from1.WellFormed) (h₂ : from2.WellFormed)
    (hZeros : from1.sign = from2.sign ∨ from1.val ≠ 0 ∨ from2.val ≠ 0) :
    decimalCmp from1 from2 = signOfCompare (compare from1.val from2.val) := by
  set frac := max _ (roundUp from2.frac)
  have hFrac₁ : roundUp from1.frac ≤ frac := le_max_left ..
  have hFrac₂ : roundUp from2.frac ≤ frac := le_max_right ..
  obtain ⟨part1, part2, order, hParts, -, -, hOrder, -⟩ := compareParts_spec h₁ h₂ hFrac₁ hFrac₂
  have hDiv := compare_div (from1.aligned frac) (from2.aligned frac) frac
  rw [← hOrder] at hDiv
  have hSwap : compare (-(from1.aligned frac / (10 ^ 9) ^ frac : ℚ)) (-(from2.aligned frac / (10 ^ 9) ^ frac)) =
      order.swap := by
    rw [Library.compare_congr neg_lt_neg_iff neg_lt_neg_iff, compare_div, ← Nat.compare_swap, ← hOrder]
  have hVal₁ := Decimal.val_eq_aligned hFrac₁
  have hVal₂ := Decimal.val_eq_aligned hFrac₂
  have hNonneg₁ : (0 : ℚ) ≤ from1.aligned frac / (10 ^ 9) ^ frac := by positivity
  have hNonneg₂ : (0 : ℚ) ≤ from2.aligned frac / (10 ^ 9) ^ frac := by positivity
  unfold decimalCmp
  rw [hParts]
  cases hSign₁ : from1.sign <;> cases hSign₂ : from2.sign <;>
    simp only [hSign₁, hSign₂, signOf, Bool.false_eq_true, if_false, if_true, one_mul, neg_one_mul,
      reduceCtorEq, false_or] at hVal₁ hVal₂ hZeros
  · rw [hVal₁, hVal₂, hDiv]
    cases order <;> rfl
  · have hGt : from2.val < from1.val := by grind
    rw [compare_gt_iff_gt.mpr hGt]
    rfl
  · have hLt : from1.val < from2.val := by grind
    rw [compare_lt_iff_lt.mpr hLt]
    rfl
  · rw [hVal₁, hVal₂, hSwap]
    cases order <;> rfl

/-- `decimal_cmp` compares the values exactly if the decimals are not two zeros of different signs. -/
theorem decimalCmp_correct_iff (h₁ : from1.WellFormed) (h₂ : from2.WellFormed) :
    decimalCmp from1 from2 = signOfCompare (compare from1.val from2.val) ↔
      ¬(from1.sign ≠ from2.sign ∧ from1.val = 0 ∧ from2.val = 0) := by
  constructor
  · rintro hEq ⟨hSign, hZero₁, hZero₂⟩
    rw [hZero₁, hZero₂, compare_eq_iff_eq.mpr rfl, decimalCmp, if_neg hSign] at hEq
    split_ifs at hEq <;> exact absurd hEq (by decide)
  · intro hZeros
    refine decimalCmp_eq h₁ h₂ ?_
    by_contra hNone
    simp only [not_or, not_not] at hNone
    exact hZeros hNone

theorem decimalCmp_correct_someDecimals :
    decimalCmp ⟨9, 0, 2, true, fun _ => 5⟩ ⟨0, 9, 2, false, fun _ => 7⟩ =
      signOfCompare (compare (Decimal.val ⟨9, 0, 2, true, fun _ => 5⟩) (Decimal.val ⟨0, 9, 2, false, fun _ => 7⟩)) := by
  have hNonzero : Decimal.val ⟨9, 0, 2, true, fun _ => 5⟩ ≠ 0 := by
    norm_num [Decimal.val, Decimal.mantissa, roundUp, wordsValue]
  exact (decimalCmp_correct_iff ⟨by decide, by decide, by decide⟩ ⟨by decide, by decide, by decide⟩).mpr
    fun h => hNonzero h.2.1

/-- `bin2decimal` reads both bytes as zero, the first one with a sign. -/
theorem decimalCmp_signedZero :
    let blank : Decimal := ⟨0, 0, 9, false, fun _ => 0⟩
    let from1 := (bin2decimal [127] blank 1 0).1
    let from2 := (bin2decimal [128] blank 1 0).1
    from1.WellFormed ∧ from2.WellFormed ∧ from1.val = 0 ∧ from2.val = 0 ∧ decimalCmp from1 from2 = -1 := by
  intro blank from1 from2
  have hNone₁ : roundUp from1.intg + roundUp from1.frac = 0 := by decide
  have hNone₂ : roundUp from2.intg + roundUp from2.frac = 0 := by decide
  have hEmpty {d : Decimal} (h : roundUp d.intg + roundUp d.frac = 0) : d.WellFormed ∧ d.val = 0 := by
    have hDigits : d.intg = 0 ∧ d.frac = 0 := by
      unfold roundUp at h
      omega
    refine ⟨⟨fun i hi => absurd hi (by omega), fun hPart => absurd hPart (by omega),
      fun hPart => absurd hPart (by omega)⟩, ?_⟩
    rw [Decimal.val, Decimal.mantissa, h]
    simp [wordsValue]
  exact ⟨(hEmpty hNone₁).1, (hEmpty hNone₂).1, (hEmpty hNone₁).2, (hEmpty hNone₂).2, by decide⟩

theorem signOfCompare_nonpos {α : Type} [LinearOrder α] (x y : α) :
    signOfCompare (compare x y) ≤ 0 ↔ x ≤ y := by
  rcases lt_trichotomy x y with h | rfl | h
  · simp [compare_lt_iff_lt.mpr h, signOfCompare, h.le]
  · simp [signOfCompare]
  · simp [compare_gt_iff_gt.mpr h, signOfCompare, h]

theorem signOfCompare_swap {α : Type} [LinearOrder α] (x y : α) :
    signOfCompare (compare y x) = -signOfCompare (compare x y) := by
  rcases lt_trichotomy x y with h | rfl | h
  · rw [compare_lt_iff_lt.mpr h, compare_gt_iff_gt.mpr h]
    rfl
  · simp [signOfCompare]
  · rw [compare_gt_iff_gt.mpr h, compare_lt_iff_lt.mpr h]
    rfl

/-- The order of `decimal_cmp`: by value, and a negative zero is before the other zeros. -/
def Decimal.rank (d : Decimal) : ℚ ×ₗ Bool := toLex (d.val, !d.sign)

theorem Decimal.rank_lt {d e : Decimal} :
    d.rank < e.rank ↔ d.val < e.val ∨ d.val = e.val ∧ d.sign = true ∧ e.sign = false := by
  rw [rank, rank, Prod.Lex.toLex_lt_toLex, Bool.lt_iff]
  simp

theorem Decimal.val_of_sign (d : Decimal) : if d.sign then d.val ≤ 0 else 0 ≤ d.val := by
  have hNonneg : (0 : ℚ) ≤ d.mantissa / (10 ^ 9) ^ roundUp d.frac := by positivity
  unfold val
  split_ifs <;> linarith

theorem Decimal.eq_zero_of_sign_ne {d e : Decimal} (hSign : d.sign ≠ e.sign) (hVal : d.val = e.val) :
    d.val = 0 := by
  have hd := d.val_of_sign
  have he := e.val_of_sign
  cases hdSign : d.sign <;> cases heSign : e.sign <;> grind

theorem decimalCmp_eq_rank (h₁ : from1.WellFormed) (h₂ : from2.WellFormed) :
    decimalCmp from1 from2 = signOfCompare (compare from1.rank from2.rank) := by
  by_cases hZeros : from1.sign = from2.sign ∨ from1.val ≠ 0 ∨ from2.val ≠ 0
  · rw [decimalCmp_eq h₁ h₂ hZeros]
    have hApart : from1.val = from2.val → from1.sign = from2.sign := by
      intro hVal
      by_contra hSign
      have hZero := Decimal.eq_zero_of_sign_ne hSign hVal
      exact hZeros.elim hSign fun hNe => hNe.elim (· hZero) (· (hVal ▸ hZero))
    congr 1
    apply Library.compare_congr <;> rw [Decimal.rank_lt] <;> grind
  · simp only [not_or, not_not] at hZeros
    obtain ⟨hSign, hZero₁, hZero₂⟩ := hZeros
    rw [decimalCmp, if_neg hSign]
    cases hSign₁ : from1.sign with
    | true =>
      rw [compare_lt_iff_lt.mpr (Decimal.rank_lt.mpr (.inr ⟨by rw [hZero₁, hZero₂], hSign₁, by grind⟩))]
      rfl
    | false =>
      rw [compare_gt_iff_gt.mpr (Decimal.rank_lt.mpr (.inr ⟨by rw [hZero₁, hZero₂], by grind, hSign₁⟩))]
      rfl

/-- `decimal_cmp` is a total preorder on all decimals, zeros of both signs among them. -/
theorem decimalCmp_preorder (h₁ : from1.WellFormed) (h₂ : from2.WellFormed) {from3 : Decimal}
    (h₃ : from3.WellFormed) :
    decimalCmp from2 from1 = -decimalCmp from1 from2 ∧
      (decimalCmp from1 from2 ≤ 0 → decimalCmp from2 from3 ≤ 0 → decimalCmp from1 from3 ≤ 0) ∧
      (decimalCmp from1 from2 = 0 ↔ from1.val = from2.val ∧ from1.sign = from2.sign) := by
  rw [decimalCmp_eq_rank h₁ h₂, decimalCmp_eq_rank h₂ h₁, decimalCmp_eq_rank h₂ h₃,
    decimalCmp_eq_rank h₁ h₃]
  refine ⟨signOfCompare_swap _ _, ?_, ?_⟩
  · simp only [signOfCompare_nonpos]
    exact le_trans
  · have hSwap := signOfCompare_swap from1.rank from2.rank
    have hLe := signOfCompare_nonpos from1.rank from2.rank
    have hGe := signOfCompare_nonpos from2.rank from1.rank
    have hEq : from1.rank = from2.rank ↔ from1.val = from2.val ∧ from1.sign = from2.sign := by
      simp [Decimal.rank]
    rw [← hEq, le_antisymm_iff (b := from2.rank), ← hLe, ← hGe]
    omega

theorem decimalCmp_preorder_zeros :
    decimalCmp ⟨1, 0, 1, true, fun _ => 0⟩ ⟨0, 9, 1, false, fun _ => 7⟩ ≤ 0 :=
  (decimalCmp_preorder ⟨by decide, by decide, by decide⟩
    (show Decimal.WellFormed ⟨1, 0, 1, false, fun _ => 0⟩ from ⟨by decide, by decide, by decide⟩)
    ⟨by decide, by decide, by decide⟩).2.1 (by decide) (by decide)

end MySQL.Decimals
