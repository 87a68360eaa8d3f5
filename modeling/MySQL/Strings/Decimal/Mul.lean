import MySQL.Strings.Decimal.Aligned
import MySQL.Strings.Decimal.Binary

/-! `decimal_mul`. Words are computed as `dec1`, which has 32 bits. -/
namespace MySQL.Decimals
open Function

def add2Word (a : Nat) : Nat :=
  let a := if 10 ^ 9 ≤ a then a - 10 ^ 9 else a
  if 10 ^ 9 ≤ a then a - 10 ^ 9 else a

def add2Carry (a : Nat) : Nat :=
  (if 10 ^ 9 ≤ a then 1 else 0) + if 10 ^ 9 ≤ (if 10 ^ 9 ≤ a then a - 10 ^ 9 else a) then 1 else 0

/-- The inner loop: add `word` times the `n` words from `p₂` on to the words from `p₀` on. -/
def mulRow (word : Nat) (source : Nat → Nat) (p₂ p₀ : Nat) :
    (n carry : Nat) → (Nat → Nat) → Except Fault (Nat × (Nat → Nat))
  | 0, carry, mem => .ok (carry, mem)
  | n + 1, carry, mem =>
    let p := word * source (p₂ + n)
    let hi := p / 10 ^ 9
    let lo := p - hi * 10 ^ 9
    let a := mem (p₀ + n) + lo + carry
    if 2 ^ 31 ≤ a then .error .range
    else mulRow word source p₂ p₀ n (add2Carry a + hi) (Function.update mem (p₀ + n) (add2Word a))

/-- `for (; carry; buf0--) ADD(*buf0, *buf0, 0, carry)`, with `pos` words up to `buf0` -/
def carryDown : (pos carry : Nat) → (Nat → Nat) → Except Fault (Nat → Nat)
  | 0, carry, mem => if carry = 0 then .ok mem else .error .outside
  | pos + 1, carry, mem =>
    if carry = 0 then .ok mem
    else if 2 ^ 31 ≤ mem pos + carry then .error .range
    else
      carryDown pos (addCarry (mem pos) 0 carry) (Function.update mem pos (addWord (mem pos) 0 carry))

/-- The outer loop over the `n` words from `p₁` on, from the right. The products with the word at
`p₁` are added from `p₀` on. -/
def mulRows (from1 from2 : Nat → Nat) (p₁ p₂ p₀ n₂ : Nat) :
    (n : Nat) → (Nat → Nat) → Except Fault (Nat → Nat)
  | 0, mem => .ok mem
  | n + 1, mem => do
    let (carry, mem) ← mulRow (from1 (p₁ + n)) from2 p₂ (p₀ + n) n₂ 0 mem
    let mem ← carryDown (p₀ + n) carry mem
    mulRows from1 from2 p₁ p₂ p₀ n₂ n mem

def stripZeros (buf : Nat → Nat) : (fuel pos intg : Nat) → Nat × Nat
  | 0, pos, intg => (pos, intg)
  | fuel + 1, pos, intg =>
    if buf pos = 0 ∧ 9 < intg then stripZeros buf fuel (pos + 1) (intg - 9) else (pos, intg)

/-- `for (; n--; cur_d++, buf1++) *cur_d = *buf1`, `shift` being the distance of the two -/
def moveDown (shift : Nat) : (n pos : Nat) → (Nat → Nat) → Nat → Nat
  | 0, _, buf => buf
  | n + 1, pos, buf => moveDown shift n (pos + 1) (Function.update buf pos (buf (pos + shift)))

def stripDecimal (d : Decimal) (intg0 : Nat) : Decimal :=
  let (pos, intg) := stripZeros d.buf intg0 0 d.intg
  { d with
    intg := intg
    buf := if 0 < pos then moveDown pos (intg0 + roundUp d.frac - pos) 0 d.buf else d.buf }

structure Factor where
  start : Nat
  words : Nat

/-- The factors, cut to what the target has room for. Of the words that are too many, half are taken
from each factor. -/
def mulFactors (from1 from2 : Decimal) (intg0 frac0 : Nat) (error : DecError) : Factor × Factor :=
  let intg1 := roundUp from1.intg
  let intg2 := roundUp from2.intg
  let frac1 := roundUp from1.frac
  let frac2 := roundUp from2.frac
  match error with
  | .ok => (⟨0, intg1 + frac1⟩, ⟨0, intg2 + frac2⟩)
  | .overflow =>
    let i := roundUp (from1.intg + from2.intg) - intg0
    let j := i / 2
    (⟨j, intg1 - j⟩, ⟨i - j, intg2 - (i - j)⟩)
  | .truncated =>
    let j := frac1 + frac2 - frac0
    let i := j / 2
    (⟨0, intg1 + frac1 - i⟩, ⟨0, intg2 + frac2 - (j - i)⟩)

/-- The check for `-0`. Without any word to look at, it runs on to the first word that is not zero. -/
def dropSign (d : Decimal) (words : Nat) : Except Fault Decimal :=
  if d.sign then
    if words = 0 then if ∃ i < d.len, d.buf i ≠ 0 then .ok d else .error .outside
    else if ∃ i < words, d.buf i ≠ 0 then .ok d
    else .ok (makeZero d)
  else .ok d

def decimalMul (from1 from2 target : Decimal) : Except Fault (Decimal × DecError) := do
  let (intg0, frac0, error) := fixIntgFracError target.len (roundUp (from1.intg + from2.intg))
    (roundUp from1.frac + roundUp from2.frac)
  let (factor1, factor2) := mulFactors from1 from2 intg0 frac0 error
  let frac := from1.frac + from2.frac
  let mem := zeroWords 0 (intg0 + frac0) target.buf
  let mem ← mulRows from1.buf from2.buf factor1.start factor2.start
    (intg0 + frac0 + 1 - (factor1.words + factor2.words)) factor2.words factor1.words mem
  let product ← dropSign
    { target with
      sign := from1.sign ≠ from2.sign
      intg := intg0 * 9
      frac := if error = .ok then frac else min frac (frac0 * 9)
      buf := mem } (intg0 + frac0)
  .ok (stripDecimal product intg0, error)

section Rows

variable {word carry carry' n pos : Nat} {source mem mem' : Nat → Nat} {p₁ p₂ p₀ n₂ : Nat}

theorem add2_spec {a : Nat} (h : a < 3 * 10 ^ 9) :
    add2Word a < 10 ^ 9 ∧ add2Carry a ≤ 2 ∧ add2Word a + add2Carry a * 10 ^ 9 = a := by
  unfold add2Word add2Carry
  dsimp only
  split_ifs <;> omega

/-- The sum of `ADD2` in column `i` of a row of `n` words, with the carry of the columns behind it -/
def rowSum (word : Nat) (source : Nat → Nat) (p₂ p₀ n carry : Nat) (mem : Nat → Nat) (i : Nat) : Nat :=
  mem (p₀ + i) + word * source (p₂ + i) % 10 ^ 9 +
    (wordsValue mem (p₀ + i + 1) (n - 1 - i) + word * wordsValue source (p₂ + i + 1) (n - 1 - i) + carry) /
      (10 ^ 9) ^ (n - 1 - i)

/-- A row ends with a sum that is out of range, or adds the product. -/
theorem mulRow_spec (hWord : word < 10 ^ 9) (hSource : ∀ i < n, source (p₂ + i) < 10 ^ 9)
    (hMem : ∀ i < n, mem (p₀ + i) < 10 ^ 9) (hCarry : carry ≤ word + 1) :
    (∃ i < n, 2 ^ 31 ≤ rowSum word source p₂ p₀ n carry mem i) ∧
        mulRow word source p₂ p₀ n carry mem = .error .range ∨
      (∀ i < n, rowSum word source p₂ p₀ n carry mem i < 2 ^ 31) ∧
      ∃ carry' mem' v, mulRow word source p₂ p₀ n carry mem = .ok (carry', mem') ∧ Wrote mem mem' p₀ n v ∧
        carry' ≤ 10 ^ 9 ∧
        v + carry' * (10 ^ 9) ^ n = wordsValue mem p₀ n + word * wordsValue source p₂ n + carry := by
  induction n generalizing mem carry with
  | zero =>
    exact .inr ⟨fun i hi => absurd hi (Nat.not_lt_zero i), carry, mem, 0, rfl, Wrote.nil mem p₀, by omega,
      by simp [wordsValue]⟩
  | succ n ih =>
    have hSplit := Nat.div_mul_le_self (word * source (p₂ + n)) (10 ^ 9)
    have hRest := Nat.lt_div_mul_add (a := word * source (p₂ + n)) (by decide : 0 < 10 ^ 9)
    have hHigh : word * source (p₂ + n) / 10 ^ 9 ≤ word - 1 := by
      have hLe : word * source (p₂ + n) ≤ word * (10 ^ 9 - 1) :=
        Nat.mul_le_mul_left word (by have := hSource n (by omega); omega)
      omega
    have hLast := hMem n (by omega)
    have hLow := Nat.mod_add_div' (word * source (p₂ + n)) (10 ^ 9)
    have hHere : rowSum word source p₂ p₀ (n + 1) carry mem n =
        mem (p₀ + n) + word * source (p₂ + n) % 10 ^ 9 + carry := by
      simp [rowSum, wordsValue]
    rw [mulRow]
    generalize word * source (p₂ + n) % 10 ^ 9 = lo at *
    generalize word * source (p₂ + n) / 10 ^ 9 = hi at *
    rw [show word * source (p₂ + n) - hi * 10 ^ 9 = lo by omega]
    split_ifs with hRange
    · exact .inl ⟨⟨n, Nat.lt_succ_self n, hHere ▸ hRange⟩, rfl⟩
    · obtain ⟨hAddWord, hAddCarry, hAdd⟩ := add2_spec (by omega : mem (p₀ + n) + lo + carry < 3 * 10 ^ 9)
      generalize add2Word _ = w at *
      generalize add2Carry _ = c at *
      have hNext : c + hi ≤ word + 1 := by
        rcases Nat.eq_zero_or_pos word with rfl | hPos
        · rw [zero_mul] at hLow
          omega
        · omega
      have hKept : ∀ i < n, update mem (p₀ + n) w (p₀ + i) = mem (p₀ + i) := fun i hi => update_of_ne (by omega) ..
      have hMem' : ∀ i < n, update mem (p₀ + n) w (p₀ + i) < 10 ^ 9 := fun i hi => by
        rw [hKept i hi]
        exact hMem i (by omega)
      -- the carry of this column goes on into the sums in front of it
      have hLater : ∀ i < n, rowSum word source p₂ p₀ (n + 1) carry mem i =
          rowSum word source p₂ p₀ n (c + hi) (update mem (p₀ + n) w) i := by
        intro i hi'
        obtain ⟨j, rfl⟩ : ∃ j, n = i + 1 + j := ⟨n - (i + 1), by omega⟩
        have hBehind : wordsValue (update mem (p₀ + (i + 1 + j)) w) (p₀ + i + 1) j =
            wordsValue mem (p₀ + i + 1) j := wordsValue_congr fun k hk => update_of_ne (by omega) ..
        rw [rowSum, rowSum, hKept i hi', show i + 1 + j + 1 - 1 - i = j + 1 by omega,
          show i + 1 + j - 1 - i = j by omega, hBehind, wordsValue_concat, wordsValue_concat,
          show p₀ + i + 1 + j = p₀ + (i + 1 + j) by omega, show p₂ + i + 1 + j = p₂ + (i + 1 + j) by omega]
        have hColumn : wordsValue mem (p₀ + i + 1) j * 10 ^ 9 + mem (p₀ + (i + 1 + j)) +
            word * (wordsValue source (p₂ + i + 1) j * 10 ^ 9 + source (p₂ + (i + 1 + j))) + carry =
            w + 10 ^ 9 * (wordsValue mem (p₀ + i + 1) j + word * wordsValue source (p₂ + i + 1) j + (c + hi)) := by
          linear_combination hLow.symm - hAdd
        rw [hColumn, pow_succ' (10 ^ 9) j, ← Nat.div_div_eq_div_mul, Nat.add_mul_div_left _ _ (by decide),
          Nat.div_eq_of_lt hAddWord, zero_add]
      obtain ⟨⟨i, hi', hSum⟩, hRun⟩ | ⟨hAll, carry', mem', v, hRun, hWrote, hLe, hSum⟩ :=
        ih (fun i hi => hSource i (by omega)) hMem' hNext
      · exact .inl ⟨⟨i, by omega, hLater i hi' ▸ hSum⟩, hRun⟩
      · refine .inr ⟨fun i hi' => ?_, carry', mem', _, hRun, (Wrote.singleton hAddWord).append hWrote, hLe, ?_⟩
        · rcases Nat.lt_succ_iff_lt_or_eq.mp hi' with hLess | rfl
          · rw [hLater i hLess]
            exact hAll i hLess
          · omega
        · rw [wordsValue_congr hKept] at hSum
          rw [wordsValue_concat, wordsValue_concat]
          linear_combination (10 ^ 9) * hSum + hAdd + hLow

private theorem addWord_zero {x : Nat} (hx : x < 10 ^ 9) (hCarry : carry ≤ 10 ^ 9) :
    addWord x 0 carry < 10 ^ 9 ∧ addCarry x 0 carry ≤ 1 ∧
      addWord x 0 carry + addCarry x 0 carry * 10 ^ 9 = x + carry := by
  unfold addWord addCarry
  split <;> omega

theorem carryDown_wrote (hMem : ∀ i < pos, mem i < 10 ^ 9) (hCarry : carry ≤ 10 ^ 9)
    (hFits : wordsValue mem 0 pos + carry < (10 ^ 9) ^ pos) :
    ∃ mem', carryDown pos carry mem = .ok mem' ∧ Wrote mem mem' 0 pos (wordsValue mem 0 pos + carry) := by
  induction pos generalizing mem carry with
  | zero =>
    have hNone : carry = 0 := by simpa [wordsValue] using hFits
    exact ⟨mem, by rw [carryDown, if_pos hNone], by simpa [wordsValue, hNone] using Wrote.nil mem 0⟩
  | succ pos ih =>
    have hLast := hMem pos (by omega)
    rw [carryDown]
    split_ifs with hNone hRange
    · exact ⟨mem, rfl, by simpa using hMem, by omega, fun _ _ => rfl⟩
    · omega
    · obtain ⟨hWord, hMore, hColumn⟩ := addWord_zero hLast hCarry
      generalize addWord (mem pos) 0 carry = word at *
      generalize addCarry (mem pos) 0 carry = more at *
      have hKept : ∀ i < pos, update mem pos word (0 + i) = mem (0 + i) :=
        fun i hi => update_of_ne (by omega) ..
      have hValue : (wordsValue mem 0 pos + more) * 10 ^ 9 + word = wordsValue mem 0 (pos + 1) + carry := by
        rw [wordsValue_concat, zero_add]
        linear_combination hColumn
      have hRest : wordsValue mem 0 pos + more < (10 ^ 9) ^ pos := by
        rw [← hValue] at hFits
        exact Nat.lt_of_mul_lt_mul_right ((Nat.le_add_right ..).trans_lt hFits)
      have hMem' : ∀ i < pos, update mem pos word i < 10 ^ 9 := fun i hi => by
        rw [update_of_ne (by omega)]
        exact hMem i (by omega)
      obtain ⟨mem', hRun, hWrote⟩ := ih hMem' (by omega : more ≤ 10 ^ 9) (by rwa [wordsValue_congr hKept])
      have hOne : Wrote mem (update mem pos word) pos 1 word := Wrote.singleton hWord
      have hAll := hOne.join hWrote (zero_add pos).symm rfl
      rw [wordsValue_congr hKept, pow_one, hValue] at hAll
      exact ⟨mem', hRun, hAll⟩

/-- One turn of the outer loop -/
theorem row_spec {r k : Nat} (hWord : word < 10 ^ 9) (hSource : ∀ i < n₂, source (p₂ + i) < 10 ^ 9)
    (hMem : ∀ i < r + n₂ + k, mem i < 10 ^ 9)
    (hFits : wordsValue mem 0 (r + n₂ + k) + word * wordsValue source p₂ n₂ * (10 ^ 9) ^ k <
      (10 ^ 9) ^ (r + n₂ + k)) :
    (∃ i < n₂, 2 ^ 31 ≤ rowSum word source p₂ r n₂ 0 mem i) ∧ mulRow word source p₂ r n₂ 0 mem = .error .range ∨
      (∀ i < n₂, rowSum word source p₂ r n₂ 0 mem i < 2 ^ 31) ∧ ∃ carry mem' mem'', mulRow word source p₂ r n₂ 0 mem = .ok (carry, mem') ∧
        carryDown r carry mem' = .ok mem'' ∧ Wrote mem mem'' 0 (r + n₂ + k)
          (wordsValue mem 0 (r + n₂ + k) + word * wordsValue source p₂ n₂ * (10 ^ 9) ^ k) := by
  refine (mulRow_spec hWord hSource (fun i hi => hMem (r + i) (by omega)) (Nat.zero_le _)).imp_right ?_
  rintro ⟨hSums, carry, mem', v, hRun, hWrote, hCarry, hSum⟩
  have hFront : ∀ i < r, mem' (0 + i) = mem (0 + i) := fun i hi => hWrote.else_same _ (.inl (by omega))
  have hSplit : wordsValue mem 0 (r + n₂ + k) + word * wordsValue source p₂ n₂ * (10 ^ 9) ^ k =
      ((wordsValue mem 0 r + carry) * (10 ^ 9) ^ n₂ + v) * (10 ^ 9) ^ k + wordsValue mem (0 + (r + n₂)) k := by
    rw [wordsValue_add mem 0 (r + n₂) k, wordsValue_add mem 0 r n₂, zero_add r]
    linear_combination (10 ^ 9) ^ k * hSum.symm
  have hRoom : wordsValue mem' 0 r + carry < (10 ^ 9) ^ r := by
    rw [wordsValue_congr hFront]
    rw [hSplit, pow_add, pow_add] at hFits
    have hLess := Nat.lt_of_mul_lt_mul_right ((Nat.le_add_right ..).trans_lt hFits)
    exact Nat.lt_of_mul_lt_mul_right ((Nat.le_add_right ..).trans_lt hLess)
  have hMem' : ∀ i < r, mem' i < 10 ^ 9 := fun i hi => by
    rw [hWrote.else_same i (.inl hi)]
    exact hMem i (by omega)
  obtain ⟨mem'', hDown, hWrote'⟩ := carryDown_wrote hMem' hCarry hRoom
  refine ⟨hSums, carry, mem', mem'', hRun, hDown, ?_⟩
  have hAll := (hWrote.join hWrote' (zero_add r).symm rfl).widen (k := k)
    fun i hi => hMem _ (by omega)
  rwa [wordsValue_congr hFront, ← hSplit] at hAll

theorem wordsValue_span {a b c : Nat} (h : ∀ i < a + b + c, mem (p₀ + i) < 10 ^ 9) :
    wordsValue mem (p₀ + a) b = wordsValue mem p₀ (a + b + c) / (10 ^ 9) ^ c % (10 ^ 9) ^ b := by
  have hLt : wordsValue mem (p₀ + a) b < (10 ^ 9) ^ b := wordsValue_lt fun i hi => by
    rw [add_assoc]
    exact h _ (by omega)
  rw [wordsValue_div fun i hi => by rw [add_assoc]; exact h _ (by omega), wordsValue_add, Nat.mul_add_mod',
    Nat.mod_eq_of_lt hLt]

/-- The sum of `ADD2` for word `k` of `a` and word `j` of `b`, both counted from the right, when the
product of the words behind `k` with `b` stands in the target: its word there, the lower half of the
product of the two words, and the carry of the columns on the right -/
def columnSum (a b k j : Nat) : Nat :=
  let done := a % (10 ^ 9) ^ k * b
  let word := a / (10 ^ 9) ^ k % 10 ^ 9
  done / (10 ^ 9) ^ (k + j) % 10 ^ 9 + word * (b / (10 ^ 9) ^ j % 10 ^ 9) % 10 ^ 9 +
    (done / (10 ^ 9) ^ k % (10 ^ 9) ^ j + word * (b % (10 ^ 9) ^ j)) / (10 ^ 9) ^ j

/-- No sum of the double loop over `n₁` and `n₂` words leaves the range of `dec1`. -/
def SumsFit (a b n₁ n₂ : Nat) : Prop := ∀ k < n₁, ∀ j < n₂, columnSum a b k j < 2 ^ 31

instance (a b n₁ n₂ : Nat) : Decidable (SumsFit a b n₁ n₂) :=
  inferInstanceAs (Decidable (∀ k < n₁, ∀ j < n₂, columnSum a b k j < 2 ^ 31))

private theorem rowSum_eq {a b k r i j : Nat} (hSource : ∀ i < n₂, source (p₂ + i) < 10 ^ 9)
    (hMem : ∀ i < r + n₂ + k, mem i < 10 ^ 9) (hDone : wordsValue mem 0 (r + n₂ + k) = a % (10 ^ 9) ^ k * b)
    (hb : wordsValue source p₂ n₂ = b) (hj : i + 1 + j = n₂) :
    rowSum (a / (10 ^ 9) ^ k % 10 ^ 9) source p₂ r n₂ 0 mem i = columnSum a b k j := by
  subst hj hb
  have hMem' : ∀ l < r + (i + 1 + j) + k, mem (0 + l) < 10 ^ 9 := by simpa using hMem
  have hHere : mem (r + i) = a % (10 ^ 9) ^ k * wordsValue source p₂ (i + 1 + j) / (10 ^ 9) ^ (k + j) % 10 ^ 9 := by
    have hOne := wordsValue_span (a := r + i) (b := 1) (c := k + j) fun l hl => hMem' l (by omega)
    rw [show r + i + 1 + (k + j) = r + (i + 1 + j) + k by omega, hDone] at hOne
    simpa [wordsValue] using hOne
  have hBehind : wordsValue mem (r + i + 1) j =
      a % (10 ^ 9) ^ k * wordsValue source p₂ (i + 1 + j) / (10 ^ 9) ^ k % (10 ^ 9) ^ j := by
    have hSome := wordsValue_span (a := r + i + 1) (b := j) (c := k) fun l hl => hMem' l (by omega)
    rwa [show r + i + 1 + j + k = r + (i + 1 + j) + k by omega, hDone, zero_add] at hSome
  have hWord : source (p₂ + i) = wordsValue source p₂ (i + 1 + j) / (10 ^ 9) ^ j % 10 ^ 9 := by
    have hOne := wordsValue_span (a := i) (b := 1) (c := j) hSource
    simpa [wordsValue] using hOne
  have hRest : wordsValue source (p₂ + i + 1) j = wordsValue source p₂ (i + 1 + j) % (10 ^ 9) ^ j := by
    have hSome := wordsValue_span (a := i + 1) (b := j) (c := 0) hSource
    simpa [add_assoc] using hSome
  rw [rowSum, columnSum, show i + 1 + j - 1 - i = j by omega, hHere, hBehind, hRest, add_zero]
  nth_rewrite 1 [hWord]
  rfl

/-- How the outer loop ends when it has done `k` of `n` rows: with the product of the two factors in the
first words of the target, or with a sum that is out of range -/
def RowsEnd (a b k n n₂ : Nat) (mem : Nat → Nat) (width : Nat) (out : Except Fault (Nat → Nat)) : Prop :=
  (∃ i, k ≤ i ∧ i < n ∧ ∃ j < n₂, 2 ^ 31 ≤ columnSum a b i j) ∧ out = .error .range ∨
    (∀ i, k ≤ i → i < n → ∀ j < n₂, columnSum a b i j < 2 ^ 31) ∧
      ∃ mem', out = .ok mem' ∧ Wrote mem mem' 0 width (a * b)

/-- The rows make the product of the two factors out of the product with the last `k` words. -/
theorem mulRows_end (from1 from2 mem : Nat → Nat) (p₁ p₂ p₀ n₂ n k width : Nat) {a b : Nat}
    (h₁ : ∀ i < n + k, from1 (p₁ + i) < 10 ^ 9) (h₂ : ∀ i < n₂, from2 (p₂ + i) < 10 ^ 9)
    (hMem : ∀ i < width, mem i < 10 ^ 9) (ha : wordsValue from1 p₁ (n + k) = a) (hb : wordsValue from2 p₂ n₂ = b)
    (hWidth : 0 < n → p₀ + n + n₂ + k = width + 1) (hDone : wordsValue mem 0 width = a % (10 ^ 9) ^ k * b)
    (hFits : a * b < (10 ^ 9) ^ width) :
    RowsEnd a b k (n + k) n₂ mem width (mulRows from1 from2 p₁ p₂ p₀ n₂ n mem) := by
  induction n generalizing mem k with
  | zero =>
    have hAll : a < (10 ^ 9) ^ (0 + k) := ha ▸ wordsValue_lt h₁
    rw [zero_add] at hAll
    refine .inr ⟨fun i hk hi => by omega, mem, rfl, by simpa using hMem, ?_, fun _ _ => rfl⟩
    rw [hDone, Nat.mod_eq_of_lt hAll]
  | succ n ih =>
    obtain rfl : width = p₀ + n + n₂ + k := by
      have := hWidth n.succ_pos
      omega
    have hWord : from1 (p₁ + n) = a / (10 ^ 9) ^ k % 10 ^ 9 := by
      have hOne := wordsValue_span (a := n) (b := 1) (c := k) h₁
      rw [ha] at hOne
      simpa [wordsValue] using hOne
    have hNext : wordsValue mem 0 (p₀ + n + n₂ + k) + from1 (p₁ + n) * wordsValue from2 p₂ n₂ * (10 ^ 9) ^ k =
        a % (10 ^ 9) ^ (k + 1) * b := by
      have hLast := Nat.mod_pow_succ (b := 10 ^ 9) (k := k) (x := a)
      rw [hDone, hWord, hb, hLast]
      ring
    have hLe : a % (10 ^ 9) ^ (k + 1) * b ≤ a * b := Nat.mul_le_mul_right b (Nat.mod_le ..)
    have hRows : n + 1 + k = n + (k + 1) := by omega
    obtain ⟨⟨i, hi, hSum⟩, hRow⟩ | ⟨hSums, carry, mem₁, mem₂, hRow, hDown, hWrote⟩ :=
      row_spec (h₁ n (by omega)) h₂ hMem (hNext ▸ hLe.trans_lt hFits)
    · rw [hWord, rowSum_eq h₂ hMem hDone hb (j := n₂ - 1 - i) (by omega)] at hSum
      rw [mulRows, hRow]
      exact .inl ⟨⟨k, le_rfl, by omega, n₂ - 1 - i, by omega, hSum⟩, rfl⟩
    · have hRun : mulRows from1 from2 p₁ p₂ p₀ n₂ (n + 1) mem = mulRows from1 from2 p₁ p₂ p₀ n₂ n mem₂ := by
        rw [mulRows, hRow]
        show (carryDown (p₀ + n) carry mem₁ >>= _) = _
        rw [hDown]
        rfl
      rw [hNext] at hWrote
      rw [hRun, hRows]
      refine (ih mem₂ (k + 1) (hRows ▸ h₁) (by simpa using hWrote.word) (hRows ▸ ha) (fun _ => by omega)
        hWrote.value).imp ?_ ?_
      · rintro ⟨⟨i, hk, hi, hLarge⟩, hRange⟩
        exact ⟨⟨i, by omega, hi, hLarge⟩, hRange⟩
      · rintro ⟨hLater, mem', hRest, hWrote'⟩
        refine ⟨fun i hk hi j hj => ?_, mem', hRest, hWrote.trans hWrote'⟩
        rcases hk.eq_or_lt with rfl | hLess
        · rw [← rowSum_eq h₂ hMem hDone hb (i := n₂ - 1 - j) (by omega), ← hWord]
          exact hSums _ (by omega)
        · exact hLater i hLess hi j hj

end Rows

section Finish

variable {buf : Nat → Nat} {d : Decimal} {intg0 frac0 m : Nat}

theorem stripZeros_spec (buf : Nat → Nat) (fuel pos words : Nat) :
    ∃ k, stripZeros buf fuel pos (words * 9) = (pos + k, (words - k) * 9) ∧ k ≤ words ∧
      ∀ i < k, buf (pos + i) = 0 := by
  induction fuel generalizing pos words with
  | zero => exact ⟨0, by simp [stripZeros], Nat.zero_le _, fun i hi => absurd hi (Nat.not_lt_zero i)⟩
  | succ fuel ih =>
    rw [stripZeros]
    split_ifs with hZero
    · obtain ⟨k, hEq, hLe, hSkipped⟩ := ih (pos + 1) (words - 1)
      have hLess : words * 9 - 9 = (words - 1) * 9 := by omega
      refine ⟨k + 1, ?_, by omega, fun i hi => ?_⟩
      · rw [hLess, hEq, add_assoc, Nat.sub_sub, add_comm 1 k]
      · cases i with
        | zero => exact hZero.1
        | succ i =>
          rw [add_comm i 1, ← add_assoc]
          exact hSkipped i (by omega)
    · exact ⟨0, rfl, Nat.zero_le _, fun i hi => absurd hi (Nat.not_lt_zero i)⟩

theorem moveDown_apply (shift n pos : Nat) (buf : Nat → Nat) (i : Nat) :
    moveDown shift n pos buf i = if pos ≤ i ∧ i < pos + n then buf (i + shift) else buf i := by
  induction n generalizing pos buf with
  | zero => rw [moveDown, if_neg (by omega)]
  | succ n ih =>
    rw [moveDown, ih]
    rcases eq_or_ne i pos with rfl | hNe
    · rw [if_neg (by omega), if_pos (by omega), update_self]
    · by_cases hIn : pos + 1 ≤ i ∧ i < pos + 1 + n
      · rw [if_pos hIn, if_pos (by omega), update_of_ne (by omega)]
      · rw [if_neg hIn, if_neg (by omega), update_of_ne hNe]

/-- The words that are left are those behind the first ones, which are zero. -/
theorem stripDecimal_spec (hIntg : d.intg = intg0 * 9) :
    ∃ k, (stripDecimal d intg0).intg = (intg0 - k) * 9 ∧ k ≤ intg0 ∧
      (∀ i < intg0 - k + roundUp d.frac, (stripDecimal d intg0).buf i = d.buf (k + i)) ∧
      wordsValue (stripDecimal d intg0).buf 0 (intg0 - k + roundUp d.frac) =
        wordsValue d.buf 0 (intg0 + roundUp d.frac) := by
  obtain ⟨k, hStrip, hLe, hZero⟩ := stripZeros_spec d.buf intg0 0 intg0
  rw [zero_add] at hStrip
  have hMoved : ∀ i < intg0 - k + roundUp d.frac, (stripDecimal d intg0).buf i = d.buf (k + i) := by
    intro i hi
    simp only [stripDecimal, hIntg, hStrip]
    split_ifs with hSome
    · rw [moveDown_apply, if_pos (by omega), add_comm]
    · rw [show k + i = i by omega]
  have hSplit : intg0 + roundUp d.frac = k + (intg0 - k + roundUp d.frac) := by omega
  refine ⟨k, by simp only [stripDecimal, hIntg, hStrip], hLe, hMoved, ?_⟩
  have hShift := wordsValue_shift d.buf k 0 (intg0 - k + roundUp d.frac)
  rw [hSplit, wordsValue_add d.buf 0 k, wordsValue_eq_zero hZero, zero_mul, zero_add, zero_add k]
  rw [add_zero] at hShift
  rw [← hShift]
  exact wordsValue_congr fun i hi => by simpa using hMoved i hi

theorem stripDecimal_holds (hIntg : d.intg = intg0 * 9) (hFrac : roundUp d.frac ≤ frac0)
    (hWord : ∀ i < intg0 + frac0, d.buf i < 10 ^ 9) (hValue : wordsValue d.buf 0 (intg0 + frac0) = m)
    (hDvd : (10 ^ 9) ^ (frac0 - roundUp d.frac) ∣ m) :
    (stripDecimal d intg0).val = signOf d.sign * (m / (10 ^ 9) ^ frac0) ∧
      (10 ^ (9 * frac0 - d.frac) ∣ m → (stripDecimal d intg0).WellFormed) := by
  obtain ⟨k, hIntg', hLe, hMoved, hSame⟩ := stripDecimal_spec hIntg
  obtain ⟨rest, rfl⟩ := Nat.exists_eq_add_of_le hFrac
  rw [Nat.add_sub_cancel_left] at hDvd
  have hUnit : 0 < (10 ^ 9) ^ rest := by positivity
  have hCut : m / (10 ^ 9) ^ rest = wordsValue d.buf 0 (intg0 + roundUp d.frac) := by
    rw [← hValue, ← add_assoc]
    exact wordsValue_div fun i hi => by simpa using hWord _ (by omega)
  have hProduct : m = wordsValue d.buf 0 (intg0 + roundUp d.frac) * (10 ^ 9) ^ rest := by
    rw [← hCut, Nat.div_mul_cancel hDvd]
  constructor
  · rw [val_of_words hIntg' hSame, hProduct, pow_add, Nat.cast_mul, cast_base_pow, mul_div_mul_right _ _ (by positivity)]
    rfl
  · intro hDigits
    refine wellFormed_of_words hIntg' (fun i hi => ?_) hSame ?_
    · have hi' : i < intg0 - k + roundUp d.frac := hi
      rw [hMoved i hi']
      exact hWord (k + i) (by omega)
    · have hExp : 9 * (roundUp d.frac + rest) - d.frac = 9 * roundUp d.frac - d.frac + 9 * rest := by
        unfold roundUp at *
        omega
      rw [hExp, pow_add, pow_mul 10 9, hProduct] at hDigits
      exact Nat.dvd_of_mul_dvd_mul_right hUnit hDigits

private theorem stripDecimal_makeZero (d : Decimal) (intg0 : Nat) : stripDecimal (makeZero d) intg0 = makeZero d := by
  have hStrip : stripZeros (makeZero d).buf intg0 0 (makeZero d).intg = (0, 1) := by
    cases intg0 <;> simp [stripZeros, makeZero]
  rw [stripDecimal, hStrip]
  rfl

/-- The end of `decimal_mul`, for a product of `intg0` and `frac0` words -/
theorem finish_holds (d : Decimal) (intg0 frac0 : Nat) (hIntg : d.intg = intg0 * 9) (hFrac : roundUp d.frac ≤ frac0)
    (hWord : ∀ i < intg0 + frac0, d.buf i < 10 ^ 9) (hValue : wordsValue d.buf 0 (intg0 + frac0) = m)
    (hDvd : (10 ^ 9) ^ (frac0 - roundUp d.frac) ∣ m) (hSome : d.sign → 0 < intg0 + frac0) :
    ∃ p, dropSign d (intg0 + frac0) = .ok p ∧
      (stripDecimal p intg0).val = signOf d.sign * (m / (10 ^ 9) ^ frac0) ∧
      (10 ^ (9 * frac0 - d.frac) ∣ m → (stripDecimal p intg0).WellFormed) := by
  have hKept := stripDecimal_holds hIntg hFrac hWord hValue hDvd
  unfold dropSign
  split_ifs with hSign hNone _ hNonzero
  · exact absurd hNone (hSome hSign).ne'
  · exact absurd hNone (hSome hSign).ne'
  · exact ⟨d, rfl, hKept⟩
  · have hZero : m = 0 := by
      rw [← hValue]
      refine wordsValue_eq_zero fun i hi => ?_
      by_contra hSome
      exact hNonzero ⟨0 + i, by omega, hSome⟩
    refine ⟨makeZero d, rfl, ?_, fun _ => ?_⟩
    · rw [stripDecimal_makeZero, makeZero_val, hZero]
      simp
    · rw [stripDecimal_makeZero]
      exact makeZero_wellFormed d
  · exact ⟨d, rfl, hKept⟩

end Finish

section Product

variable {from1 from2 target : Decimal} {d : Decimal} {intg0 frac0 c₁ c₂ : Nat} {mem : Nat → Nat}
  {error : DecError}

theorem mulRows_nothing (buf1 buf2 : Nat → Nat) (p₁ p₂ p₀ n : Nat) (mem : Nat → Nat) :
    mulRows buf1 buf2 p₁ p₂ p₀ 0 n mem = .ok mem := by
  induction n with
  | zero => rfl
  | succ n ih =>
    have hDown : carryDown (p₀ + n) 0 mem = .ok mem := by
      cases p₀ + n <;> simp [carryDown]
    show (carryDown (p₀ + n) 0 mem >>= _) = _
    rw [hDown]
    exact ih

/-- The words of a factor without the last `c` -/
theorem Decimal.WellFormed.cutWords (hd : d.WellFormed) (c : Nat) :
    wordsValue d.buf 0 (roundUp d.intg + roundUp d.frac - c) = d.mantissa / (10 ^ 9) ^ c := by
  rcases Nat.le_total c (roundUp d.intg + roundUp d.frac) with hLe | hGe
  · have hAll : roundUp d.intg + roundUp d.frac = roundUp d.intg + roundUp d.frac - c + c := by omega
    rw [Decimal.mantissa, hAll, Nat.add_sub_cancel,
      wordsValue_div fun i hi => by simpa using hd.word _ (by omega)]
  · have hLt : d.mantissa < (10 ^ 9) ^ c :=
      (wordsValue_lt (by simpa using hd.word)).trans_le (Nat.pow_le_pow_right (by decide) hGe)
    rw [Nat.sub_eq_zero_of_le hGe, Nat.div_eq_of_lt hLt]
    rfl

/-- The product of the factors without their last words has room in the target. -/
private theorem product_lt (h₁ : from1.WellFormed) (h₂ : from2.WellFormed)
    (hCut : c₁ + c₂ + frac0 = roundUp from1.frac + roundUp from2.frac) :
    from1.mantissa / (10 ^ 9) ^ c₁ * (from2.mantissa / (10 ^ 9) ^ c₂) <
      (10 ^ 9) ^ (roundUp (from1.intg + from2.intg) + frac0) := by
  have hLe := Nat.mul_le_mul (Nat.div_mul_le_self from1.mantissa ((10 ^ 9) ^ c₁))
    (Nat.div_mul_le_self from2.mantissa ((10 ^ 9) ^ c₂))
  have hLt := Nat.mul_lt_mul'' h₁.mantissa_lt h₂.mantissa_lt
  rw [← pow_add] at hLt
  have hDigits : from1.intg + 9 * roundUp from1.frac + (from2.intg + 9 * roundUp from2.frac) ≤
      9 * (roundUp (from1.intg + from2.intg) + frac0 + (c₁ + c₂)) := by
    unfold roundUp at *
    omega
  have hPow := Nat.pow_le_pow_right (by decide : 0 < 10) hDigits
  rw [pow_mul 10 9, pow_add _ _ (c₁ + c₂), pow_add _ c₁] at hPow
  refine Nat.lt_of_mul_lt_mul_right (a := (10 ^ 9) ^ c₁ * (10 ^ 9) ^ c₂) ?_
  calc from1.mantissa / (10 ^ 9) ^ c₁ * (from2.mantissa / (10 ^ 9) ^ c₂) * ((10 ^ 9) ^ c₁ * (10 ^ 9) ^ c₂)
      = from1.mantissa / (10 ^ 9) ^ c₁ * (10 ^ 9) ^ c₁ * (from2.mantissa / (10 ^ 9) ^ c₂ * (10 ^ 9) ^ c₂) := by ring
    _ ≤ from1.mantissa * from2.mantissa := hLe
    _ < _ := hLt.trans_le hPow

theorem mulRows_product (mem : Nat → Nat) (h₁ : from1.WellFormed) (h₂ : from2.WellFormed)
    (hIntg : intg0 = roundUp (from1.intg + from2.intg))
    (hCut : c₁ + c₂ + frac0 = roundUp from1.frac + roundUp from2.frac)
    (hZero : ∀ i < intg0 + frac0, mem i = 0) {n₁ n₂ : Nat}
    (hn₁ : n₁ = roundUp from1.intg + roundUp from1.frac - c₁)
    (hn₂ : n₂ = roundUp from2.intg + roundUp from2.frac - c₂) :
    RowsEnd (from1.mantissa / (10 ^ 9) ^ c₁) (from2.mantissa / (10 ^ 9) ^ c₂) 0 n₁ n₂ mem (intg0 + frac0)
      (mulRows from1.buf from2.buf 0 0 (intg0 + frac0 + 1 - (n₁ + n₂)) n₂ n₁ mem) := by
  have hWord : ∀ i < intg0 + frac0, mem i < 10 ^ 9 := fun i hi => by simp [hZero i hi]
  have hEmpty : wordsValue mem 0 (intg0 + frac0) = 0 := wordsValue_eq_zero (by simpa using hZero)
  have hLt := product_lt h₁ h₂ hCut
  rw [← h₁.cutWords, ← h₂.cutWords, ← hn₁, ← hn₂] at hLt ⊢
  rcases Nat.eq_zero_or_pos n₂ with rfl | hPos₂
  · refine .inr ⟨fun i _ _ j hj => absurd hj (Nat.not_lt_zero j), mem, mulRows_nothing .., by simpa using hWord, ?_,
      fun _ _ => rfl⟩
    rw [hEmpty]
    rfl
  · refine mulRows_end _ _ mem 0 0 _ n₂ n₁ 0 _ (fun i hi => by simpa using h₁.word i (by omega))
      (fun i hi => by simpa using h₂.word i (by omega)) hWord rfl rfl (fun hPos₁ => ?_) ?_ (hIntg ▸ hLt)
    · unfold roundUp at *
      omega
    · rw [hEmpty, pow_zero, Nat.mod_one, zero_mul]

theorem Decimal.WellFormed.dvd_product (h₁ : from1.WellFormed) (h₂ : from2.WellFormed) :
    10 ^ (9 * (roundUp from1.frac + roundUp from2.frac) - (from1.frac + from2.frac)) ∣
      from1.mantissa * from2.mantissa := by
  have hDigits : 9 * (roundUp from1.frac + roundUp from2.frac) - (from1.frac + from2.frac) =
      9 * roundUp from1.frac - from1.frac + (9 * roundUp from2.frac - from2.frac) := by
    unfold roundUp
    omega
  rw [hDigits, pow_add]
  exact Nat.mul_dvd_mul h₁.dvd_mantissa h₂.dvd_mantissa

private theorem fixIntgFracError_fits {len intg frac : Nat}
    (hFix : fixIntgFracError len intg frac = (intg0, frac0, error)) (hFits : intg ≤ len) :
    intg0 = intg ∧ (error = .ok ∧ frac0 = frac ∨ error = .truncated ∧ frac0 = len - intg ∧ frac0 < frac) := by
  unfold fixIntgFracError at hFix
  split_ifs at hFix with hLong hOver
  · omega
  · simp only [Prod.mk.injEq] at hFix
    exact ⟨hFix.1.symm, .inr ⟨hFix.2.2.symm, hFix.2.1.symm, by omega⟩⟩
  · simp only [Prod.mk.injEq] at hFix
    exact ⟨hFix.1.symm, .inl ⟨hFix.2.2.symm, hFix.2.1.symm⟩⟩

private theorem mulFactors_eq (from1 from2 : Decimal) (intg0 : Nat) (h : error ≠ .overflow) {surplus : Nat}
    (hSurplus : surplus = roundUp from1.frac + roundUp from2.frac - frac0) (hNone : error = .ok → surplus = 0) :
    mulFactors from1 from2 intg0 frac0 error =
      (⟨0, roundUp from1.intg + roundUp from1.frac - surplus / 2⟩,
        ⟨0, roundUp from2.intg + roundUp from2.frac - (surplus - surplus / 2)⟩) := by
  cases error with
  | ok =>
    rw [hNone rfl]
    rfl
  | truncated =>
    rw [hSurplus]
    rfl
  | overflow => exact absurd rfl h

/-- The sums fit for the factors without the `surplus` words for which the target has no room. -/
def CutSumsFit (from1 from2 : Decimal) (surplus : Nat) : Prop :=
  SumsFit (from1.mantissa / (10 ^ 9) ^ (surplus / 2)) (from2.mantissa / (10 ^ 9) ^ (surplus - surplus / 2))
    (roundUp from1.intg + roundUp from1.frac - surplus / 2)
    (roundUp from2.intg + roundUp from2.frac - (surplus - surplus / 2))

instance (from1 from2 : Decimal) (surplus : Nat) : Decidable (CutSumsFit from1 from2 surplus) :=
  inferInstanceAs (Decidable (SumsFit ..))

/-- The words behind the fraction of the result are zeros of the product, if it has such words at all. -/
private theorem pow_dvd_cutProduct (h₁ : from1.WellFormed) (h₂ : from2.WellFormed) {surplus : Nat}
    (hSurplus : surplus = roundUp from1.frac + roundUp from2.frac - frac0)
    (hLe : frac0 ≤ roundUp from1.frac + roundUp from2.frac) :
    (10 ^ 9) ^ (frac0 - roundUp (min (from1.frac + from2.frac) (frac0 * 9))) ∣
      from1.mantissa / (10 ^ 9) ^ (surplus / 2) * (from2.mantissa / (10 ^ 9) ^ (surplus - surplus / 2)) := by
  rcases hLe.eq_or_lt with hWords | hLess
  · have hNone : surplus = 0 := by omega
    have hDigits : 9 * (frac0 - roundUp (min (from1.frac + from2.frac) (frac0 * 9))) ≤
        9 * frac0 - (from1.frac + from2.frac) := by
      unfold roundUp at *
      omega
    rw [← pow_mul, hNone]
    refine (Nat.pow_dvd_pow 10 hDigits).trans ?_
    simpa [hWords] using h₁.dvd_product h₂
  · have hNone : frac0 - roundUp (min (from1.frac + from2.frac) (frac0 * 9)) = 0 := by
      unfold roundUp at *
      omega
    rw [hNone, pow_zero]
    exact Nat.one_dvd _

/-- What `decimal_mul` does when the words before the point fit -/
theorem decimalMul_fits (h₁ : from1.WellFormed) (h₂ : from2.WellFormed) {surplus m : Nat}
    (hFix : fixIntgFracError target.len (roundUp (from1.intg + from2.intg))
      (roundUp from1.frac + roundUp from2.frac) = (intg0, frac0, error))
    (hFits : roundUp (from1.intg + from2.intg) ≤ target.len)
    (hSome : from1.sign = from2.sign ∨ 0 < intg0 + frac0)
    (hSurplus : surplus = roundUp from1.frac + roundUp from2.frac - frac0)
    (hm : m = from1.mantissa / (10 ^ 9) ^ (surplus / 2) * (from2.mantissa / (10 ^ 9) ^ (surplus - surplus / 2))) :
    ¬ CutSumsFit from1 from2 surplus ∧ decimalMul from1 from2 target = .error .range ∨
      CutSumsFit from1 from2 surplus ∧ ∃ r, decimalMul from1 from2 target = .ok (r, error) ∧
        r.val = signOf (from1.sign ≠ from2.sign) * (m / (10 ^ 9) ^ frac0) ∧
        (10 ^ (9 * frac0 - min (from1.frac + from2.frac) (frac0 * 9)) ∣ m → r.WellFormed) := by
  obtain ⟨hIntg, hCases⟩ := fixIntgFracError_fits hFix hFits
  have hCut : surplus / 2 + (surplus - surplus / 2) + frac0 = roundUp from1.frac + roundUp from2.frac := by omega
  have hError : error ≠ .overflow := by
    rintro rfl
    simp at hCases
  have hAll : error = .ok → frac0 = roundUp from1.frac + roundUp from2.frac := by
    rintro rfl
    simpa using hCases
  have hFactors := mulFactors_eq from1 from2 intg0 hError hSurplus fun hOk => by
    have := hAll hOk
    omega
  have hRows := mulRows_product (zeroWords 0 (intg0 + frac0) target.buf) h₁ h₂ hIntg hCut
    (fun i hi => by rw [zeroWords_apply, if_pos ⟨Nat.zero_le i, by omega⟩]) rfl rfl
  rw [decimalMul, hFix]
  dsimp only
  rw [hFactors]
  obtain ⟨⟨i, -, hi, j, hj, hLarge⟩, hRange⟩ | ⟨hSums, mem, hRun, hWrote⟩ := hRows
  · rw [hRange]
    exact .inl ⟨fun hFit => absurd (hFit i hi j hj) (not_lt.mpr hLarge), rfl⟩
  · rw [hRun]
    obtain ⟨d, hd⟩ : ∃ d : Decimal, d =
        { target with
          sign := from1.sign ≠ from2.sign
          intg := intg0 * 9
          frac := if error = .ok then from1.frac + from2.frac else min (from1.frac + from2.frac) (frac0 * 9)
          buf := mem } := ⟨_, rfl⟩
    have hFrac : d.frac = min (from1.frac + from2.frac) (frac0 * 9) := by
      rw [hd]
      dsimp only
      split_ifs with hOk
      · have := hAll hOk
        unfold roundUp at this
        omega
      · rfl
    have hDvd : (10 ^ 9) ^ (frac0 - roundUp d.frac) ∣ m := by
      rw [hFrac, hm]
      exact pow_dvd_cutProduct h₁ h₂ hSurplus (by omega)
    obtain ⟨p, hDrop, hVal, hWellFormed⟩ := finish_holds d intg0 frac0
      (by rw [hd]) (by rw [hFrac]; unfold roundUp; omega) (by rw [hd]; simpa using hWrote.word)
      (by rw [hd, hm]; exact hWrote.value) hDvd
      (fun hSign => hSome.resolve_left (by simpa [hd] using hSign))
    rw [hFrac] at hWellFormed
    refine .inr ⟨fun i hi => hSums i (Nat.zero_le i) hi, stripDecimal p intg0, ?_, ?_, hWellFormed⟩
    · show (dropSign _ _ >>= _) = _
      rw [← hd, hDrop]
      rfl
    · rw [hVal, hd]

/-- The product of two numbers without digits and with different signs is the first words of the target. -/
private theorem decimalMul_noDigits (target : Decimal) (hSign : from1.sign ≠ from2.sign)
    (hNone : from1.intg + from2.intg + from1.frac + from2.frac = 0) :
    (∃ i < target.len, target.buf i ≠ 0) ∧
        decimalMul from1 from2 target = .ok ({ target with sign := true, intg := 0, frac := 0 }, .ok) ∨
      (¬ ∃ i < target.len, target.buf i ≠ 0) ∧ decimalMul from1 from2 target = .error .outside := by
  obtain ⟨hIntg1, hIntg2, hFrac1, hFrac2⟩ : from1.intg = 0 ∧ from2.intg = 0 ∧ from1.frac = 0 ∧ from2.frac = 0 := by
    omega
  have hFix : fixIntgFracError target.len (roundUp 0) (roundUp 0 + roundUp 0) = (0, 0, .ok) := by
    simp [fixIntgFracError, roundUp]
  rw [decimalMul, hIntg1, hIntg2, hFrac1, hFrac2, add_zero, hFix]
  have hFactors : mulFactors from1 from2 0 0 .ok = (⟨0, 0⟩, ⟨0, 0⟩) := by
    simp [mulFactors, hIntg1, hIntg2, hFrac1, hFrac2, roundUp]
  dsimp only
  rw [hFactors]
  show _ ∧ (dropSign _ _ >>= _) = _ ∨ _ ∧ (dropSign _ _ >>= _) = _
  rw [dropSign, if_pos (by simpa using hSign), if_pos rfl, if_pos rfl]
  split_ifs with hWord
  · refine .inl ⟨hWord, ?_⟩
    rw [decide_eq_true hSign]
    rfl
  · exact .inr ⟨hWord, rfl⟩

/-- With the words of `decimal_result_size` in the target, the product is exact just when all sums of
`ADD2` are `dec1` numbers and the check for `-0` has a word to end at. -/
theorem decimalMul_exact_iff (from1 from2 target : Decimal) (h₁ : from1.WellFormed) (h₂ : from2.WellFormed)
    (hLen : roundUp (from1.intg + from2.intg) + roundUp from1.frac + roundUp from2.frac ≤ target.len) :
    (∃ r, decimalMul from1 from2 target = .ok (r, .ok) ∧ r.WellFormed ∧ r.val = from1.val * from2.val) ↔
      SumsFit from1.mantissa from2.mantissa (roundUp from1.intg + roundUp from1.frac)
        (roundUp from2.intg + roundUp from2.frac) ∧
      (from1.sign = from2.sign ∨ 0 < from1.intg + from2.intg + from1.frac + from2.frac ∨
        ∃ i < target.len, target.buf i ≠ 0) := by
  have hFix : fixIntgFracError target.len (roundUp (from1.intg + from2.intg))
      (roundUp from1.frac + roundUp from2.frac) =
      (roundUp (from1.intg + from2.intg), roundUp from1.frac + roundUp from2.frac, .ok) := by
    rw [fixIntgFracError, if_neg (by omega)]
  by_cases hSome : from1.sign = from2.sign ∨ 0 < from1.intg + from2.intg + from1.frac + from2.frac
  · have hWords : from1.sign = from2.sign ∨
        0 < roundUp (from1.intg + from2.intg) + (roundUp from1.frac + roundUp from2.frac) := by
      refine hSome.imp_right fun hDigits => ?_
      unfold roundUp
      omega
    have hMul := decimalMul_fits h₁ h₂ hFix (by omega) hWords rfl rfl
    rw [CutSumsFit, Nat.sub_self, Nat.zero_div, Nat.sub_zero, pow_zero, Nat.div_one, Nat.div_one] at hMul
    obtain ⟨hNot, hFault⟩ | ⟨hFit, r, hRun, hVal, hWellFormed⟩ := hMul
    · rw [hFault]
      refine iff_of_false ?_ fun hFit => hNot hFit.1
      rintro ⟨r, hOk, -⟩
      cases hOk
    · refine ⟨fun _ => ⟨hFit, or_assoc.mp (.inl hSome)⟩, fun _ => ⟨r, hRun, hWellFormed ?_, ?_⟩⟩
      · rw [min_eq_left (by unfold roundUp; omega)]
        exact h₁.dvd_product h₂
      · rw [hVal, signOf_ne, Decimal.val, Decimal.val, Nat.cast_mul, signOf, signOf]
        ring
  · obtain ⟨hSign, hNone⟩ := not_or.mp hSome
    have hIntg1 : from1.intg = 0 := by omega
    have hFrac1 : from1.frac = 0 := by omega
    have hZero : from1.val = 0 := by simp [Decimal.val, Decimal.mantissa, hIntg1, hFrac1, roundUp, wordsValue]
    rw [hZero, zero_mul, ← or_assoc, or_iff_right hSome]
    obtain ⟨hWord, hRun⟩ | ⟨hWord, hRun⟩ := decimalMul_noDigits target hSign (by omega) <;> rw [hRun]
    · refine ⟨fun _ => ⟨fun k hk => ?_, hWord⟩, fun _ => ⟨_, rfl, ?_, ?_⟩⟩
      · simp [hIntg1, hFrac1, roundUp] at hk
      · constructor <;> simp [roundUp]
      · simp [Decimal.val, Decimal.mantissa, roundUp, wordsValue]
    · refine iff_of_false ?_ fun hFit => hWord hFit.2
      rintro ⟨r, hOk, -⟩
      cases hOk

/-- `-7` times `1.5` -/
theorem decimalMul_exact_iff_someDecimals :
    ∃ r, decimalMul ⟨1, 0, 1, true, fun _ => 7⟩ ⟨1, 1, 2, false, fun i => if i = 0 then 1 else 500000000⟩
      ⟨0, 0, 3, false, fun _ => 9⟩ = .ok (r, .ok) ∧ r.WellFormed ∧
      r.val = Decimal.val ⟨1, 0, 1, true, fun _ => 7⟩ *
        Decimal.val ⟨1, 1, 2, false, fun i => if i = 0 then 1 else 500000000⟩ :=
  (decimalMul_exact_iff _ _ _ ⟨by decide, by decide, by decide⟩ ⟨by decide, by decide, by decide⟩ (by decide)).mpr
    ⟨by decide, .inr (.inl (by decide))⟩

/-- `999968378999999999` times itself: in the second row the word in the target, the lower half of the
product and the carry are all near `DIG_BASE`. -/
theorem decimalMul_leavesRange :
    let d : Decimal := ⟨18, 0, 2, false, fun i => if i = 0 then 999968378 else 999999999⟩
    d.WellFormed ∧ decimalMul d d ⟨0, 0, 4, false, fun _ => 0⟩ = .error .range :=
  ⟨⟨by decide, by decide, by decide⟩, rfl⟩

/-- What is lost with the last words of the factors, in units of the last word of the exact product -/
def cutLoss (a b c₁ c₂ : Nat) : Nat :=
  a % (10 ^ 9) ^ c₁ * b + a / (10 ^ 9) ^ c₁ * (10 ^ 9) ^ c₁ * (b % (10 ^ 9) ^ c₂)

private theorem cutLoss_spec {frac words : Nat} (hCut : frac + (c₁ + c₂) = words) (a b : Nat) :
    (a * b / (10 ^ 9) ^ words : ℚ) =
      (a / (10 ^ 9) ^ c₁ * (b / (10 ^ 9) ^ c₂) : Nat) / (10 ^ 9) ^ frac + cutLoss a b c₁ c₂ / (10 ^ 9) ^ words := by
  have ha : a / (10 ^ 9) ^ c₁ * (10 ^ 9) ^ c₁ + a % (10 ^ 9) ^ c₁ = a := Nat.div_add_mod' ..
  have hb : b / (10 ^ 9) ^ c₂ * (10 ^ 9) ^ c₂ + b % (10 ^ 9) ^ c₂ = b := Nat.div_add_mod' ..
  have hProduct : a * b = a / (10 ^ 9) ^ c₁ * (b / (10 ^ 9) ^ c₂) * (10 ^ 9) ^ (c₁ + c₂) + cutLoss a b c₁ c₂ := by
    rw [cutLoss, pow_add]
    linear_combination b * ha.symm + a / (10 ^ 9) ^ c₁ * (10 ^ 9) ^ c₁ * hb.symm
  have hCast : (a * b : ℚ) =
      (a / (10 ^ 9) ^ c₁ * (b / (10 ^ 9) ^ c₂) : Nat) * (10 ^ 9) ^ (c₁ + c₂) + cutLoss a b c₁ c₂ := by
    exact_mod_cast hProduct
  rw [hCast, add_div, ← hCut, pow_add _ frac, mul_div_mul_right _ _ (by positivity)]

private theorem bind_eq_ok {α β : Type} {x : Except Fault α} {f : α → Except Fault β} {b : β}
    (h : x >>= f = .ok b) : ∃ a, x = .ok a ∧ f a = .ok b := by
  cases x with
  | error fault => exact nomatch h
  | ok a => exact ⟨a, rfl, h⟩

private theorem decimalMul_noRoom (hSign : from1.sign ≠ from2.sign) (hLen : target.len = 0) {r : Decimal}
    {e : DecError} : decimalMul from1 from2 target ≠ .ok (r, e) := by
  intro hRun
  obtain ⟨e', hFix⟩ : ∃ e', fixIntgFracError target.len (roundUp (from1.intg + from2.intg))
      (roundUp from1.frac + roundUp from2.frac) = (0, 0, e') := by
    rw [fixIntgFracError, hLen]
    split_ifs with hLong hOver
    · exact ⟨_, rfl⟩
    · exact ⟨_, by rw [Nat.le_zero.mp (not_lt.mp hOver)]⟩
    · exact ⟨_, by rw [show roundUp (from1.intg + from2.intg) = 0 by omega,
        show roundUp from1.frac + roundUp from2.frac = 0 by omega]⟩
  rw [decimalMul, hFix] at hRun
  obtain ⟨mem, -, hRest⟩ := bind_eq_ok hRun
  obtain ⟨p, hDrop, -⟩ := bind_eq_ok hRest
  simp [dropSign, hSign, hLen] at hDrop

/-- When there is no room for all words behind the point, the product is cut and not too small just when
the sums for the cut factors are `dec1` numbers and the cut words make less than 1 of the product. -/
theorem decimalMul_truncated_iff (from1 from2 target : Decimal) (h₁ : from1.WellFormed) (h₂ : from2.WellFormed)
    (hFits : roundUp (from1.intg + from2.intg) ≤ target.len)
    (hLess : target.len < roundUp (from1.intg + from2.intg) + (roundUp from1.frac + roundUp from2.frac)) :
    let words := roundUp from1.frac + roundUp from2.frac
    let surplus := words - (target.len - roundUp (from1.intg + from2.intg))
    (∃ r, decimalMul from1 from2 target = .ok (r, .truncated) ∧
        |r.val| ≤ |from1.val * from2.val| ∧ |from1.val * from2.val| - |r.val| < 1) ↔
      CutSumsFit from1 from2 surplus ∧
      cutLoss from1.mantissa from2.mantissa (surplus / 2) (surplus - surplus / 2) < (10 ^ 9) ^ words ∧
      (from1.sign = from2.sign ∨ 0 < target.len) := by
  intro words surplus
  have hFix : fixIntgFracError target.len (roundUp (from1.intg + from2.intg)) words =
      (roundUp (from1.intg + from2.intg), target.len - roundUp (from1.intg + from2.intg), .truncated) := by
    rw [fixIntgFracError, if_pos (by omega), if_neg (by omega)]
  by_cases hSome : from1.sign = from2.sign ∨ 0 < target.len
  · obtain ⟨hNot, hFault⟩ | ⟨hFit, r, hRun, hVal, -⟩ :=
      decimalMul_fits h₁ h₂ hFix hFits (hSome.imp_right fun h => by omega) rfl rfl
    · rw [hFault]
      refine iff_of_false ?_ fun hFit => hNot hFit.1
      rintro ⟨r, hOk, -⟩
      cases hOk
    · have hCut : target.len - roundUp (from1.intg + from2.intg) + (surplus / 2 + (surplus - surplus / 2)) = words := by
        omega
      have hLoss := cutLoss_spec hCut from1.mantissa from2.mantissa
      have hUnit : (0 : ℚ) < (10 ^ 9) ^ words := by positivity
      have hProduct : |from1.val * from2.val| = (from1.mantissa * from2.mantissa / (10 ^ 9) ^ words : ℚ) := by
        rw [abs_mul, Decimal.abs_val, Decimal.abs_val, div_mul_div_comm, ← pow_add]
      have hCutProduct : |r.val| = (from1.mantissa / (10 ^ 9) ^ (surplus / 2) *
          (from2.mantissa / (10 ^ 9) ^ (surplus - surplus / 2)) : Nat) /
            (10 ^ 9) ^ (target.len - roundUp (from1.intg + from2.intg)) := by
        rw [hVal, abs_mul, abs_signOf, one_mul, abs_of_nonneg (by positivity)]
      rw [hRun, hProduct, hLoss, ← hCutProduct]
      constructor
      · rintro ⟨r', hOk, -, hSmall⟩
        obtain rfl : r = r' := (Prod.mk.inj (Except.ok.inj hOk)).1
        rw [add_sub_cancel_left, div_lt_one hUnit] at hSmall
        exact ⟨hFit, by exact_mod_cast hSmall, hSome⟩
      · rintro ⟨-, hSmall, -⟩
        refine ⟨r, rfl, le_add_of_nonneg_right (by positivity), ?_⟩
        rw [add_sub_cancel_left, div_lt_one hUnit]
        exact_mod_cast hSmall
  · obtain ⟨hSign, hLen⟩ := not_or.mp hSome
    refine iff_of_false ?_ fun hFit => hSome hFit.2.2
    rintro ⟨r, hOk, -⟩
    exact decimalMul_noRoom hSign (by omega) hOk

/-- `0.500000000` times `1.500000000` in two words is `0.500000000`. -/
theorem decimalMul_truncated_iff_someDecimals :
    ∃ r, decimalMul ⟨1, 9, 2, false, fun i => 500000000 * i⟩ ⟨1, 9, 2, false, fun i => if i = 0 then 1 else 500000000⟩
        ⟨0, 0, 2, false, fun _ => 0⟩ = .ok (r, .truncated) ∧
      |r.val| ≤ |Decimal.val ⟨1, 9, 2, false, fun i => 500000000 * i⟩ *
        Decimal.val ⟨1, 9, 2, false, fun i => if i = 0 then 1 else 500000000⟩| ∧
      |Decimal.val ⟨1, 9, 2, false, fun i => 500000000 * i⟩ *
        Decimal.val ⟨1, 9, 2, false, fun i => if i = 0 then 1 else 500000000⟩| - |r.val| < 1 :=
  (decimalMul_truncated_iff _ _ ⟨0, 0, 2, false, fun _ => 0⟩ ⟨by decide, by decide, by decide⟩
    ⟨by decide, by decide, by decide⟩ (by decide) (by decide)).mpr ⟨by decide, by decide, .inl rfl⟩

/-- `1.000000001000000002` times `1` in two words: one word is left out, and it is taken from the second
factor, which has no other. -/
theorem decimalMul_truncated_loses :
    Decimal.WellFormed ⟨1, 18, 3, false, fun i => if i = 0 then 1 else i⟩ ∧
      Decimal.WellFormed ⟨1, 0, 1, false, fun _ => 1⟩ ∧
      ∃ r, decimalMul ⟨1, 18, 3, false, fun i => if i = 0 then 1 else i⟩ ⟨1, 0, 1, false, fun _ => 1⟩
          ⟨0, 0, 2, false, fun _ => 0⟩ = .ok (r, .truncated) ∧
        r.val = 0 ∧
        Decimal.val ⟨1, 18, 3, false, fun i => if i = 0 then 1 else i⟩ * Decimal.val ⟨1, 0, 1, false, fun _ => 1⟩ =
          1.000000001000000002 := by
  refine ⟨⟨by decide, by decide, by decide⟩, ⟨by decide, by decide, by decide⟩, _, rfl, ?_, ?_⟩
  · exact Decimal.val_eq_zero.mpr (by decide +kernel)
  · norm_num [Decimal.val, Decimal.mantissa, roundUp, wordsValue]

end Product

end MySQL.Decimals
