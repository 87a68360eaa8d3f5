import MySQL.Strings.Decimal.Aligned
import MySQL.Strings.Decimal.Binary
import MySQL.Strings.Decimal.Divide

/-! `do_div_mod`: where the words of the quotient stand, and the quotient itself. -/
namespace MySQL.Decimals
open Nat

def Decimal.whole (d : Decimal) : Decimal := { d with intg := d.intg + 9 * roundUp d.frac, frac := 0 }

/-- removing end zeroes: the index of the last word that is not zero -/
def lastWord (buf : Nat → Nat) (start2 : Nat) : Nat → Nat
  | 0 => 0
  | n + 1 => if buf (start2 + (n + 1)) = 0 then lastWord buf start2 n else n + 1

/-- The operands of `do_div_mod` without their leading zeroes: the first word of each and
the digits from there on -/
structure DivOperands where
  from1 : Decimal
  from2 : Decimal
  buf1 : Nat
  prec1 : Nat
  buf2 : Nat
  prec2 : Nat
  scaleIncr : Nat

namespace DivOperands

variable (o : DivOperands)

/-- The digits of the quotient before the point; negative if it begins with zeros. -/
def dintg : Int :=
  ((o.prec1 : Int) - 9 * roundUp o.from1.frac) - (o.prec2 - 9 * roundUp o.from2.frac) +
    if o.from2.buf o.buf2 ≤ o.from1.buf o.buf1 then 1 else 0

def intg0 : Nat := roundUp o.dintg.toNat

def zeros : Nat := (-o.dintg).toNat / 9

def frac0 : Nat := roundUp (9 * roundUp o.from1.frac + 9 * roundUp o.from2.frac + o.scaleIncr)

def len1 : Nat := max 3 (roundUp o.prec1 + roundUp (2 * (9 * roundUp o.from2.frac) + o.scaleIncr + 1) + 1)

/-- The copy of the dividend, with `scratch` behind the words that are allocated for it -/
def tmp1 (scratch : Nat → Nat) (i : Nat) : Nat :=
  if i < roundUp o.prec1 then o.from1.buf (o.buf1 + i) else if i < o.len1 then 0 else scratch i

def divisor : Divisor := ⟨o.from2.buf, o.buf2, lastWord o.from2.buf o.buf2 (roundUp o.prec2 - 1)⟩

/-- The division begins a word further if the dividend's first word is the smaller one. -/
def start (scratch : Nat → Nat) : DivState :=
  if o.tmp1 scratch 0 < o.from2.buf o.buf2 then ⟨o.tmp1 scratch, 1, o.tmp1 scratch 0⟩
  else ⟨o.tmp1 scratch, 0, 0⟩

/-- The words of the quotient behind its leading zero words, which are written first. -/
def quotient (scratch : Nat → Nat) (target : Decimal) : Except Fault (Decimal × DecError) :=
  let (intg0, frac0, error) := fixIntgFracError target.len o.intg0 o.frac0
  -- `while (dintg++ < 0) *buf0++= 0` stops neither at `stop0` nor at the end of the target
  if target.len < o.zeros then .error .outside
  else
    let zeroed := copyWords (fun _ => 0) 0 0 o.zeros target.buf
    .ok ({ target with
      sign := o.from1.sign ≠ o.from2.sign
      intg := intg0 * 9
      frac := frac0 * 9
      buf := (divLoop o.divisor true (intg0 + frac0 - o.zeros) o.zeros (o.start scratch) zeroed).2 }, error)

end DivOperands

def divOperands (from1 from2 : Decimal) (scaleIncr : Nat) : DivOperands :=
  let (buf1, prec1) := removeLeadingZeroes from1.whole
  let (buf2, prec2) := removeLeadingZeroes from2.whole
  { from1, from2, buf1, prec1, buf2, prec2
    -- taking into account frac1,frac2 increase
    scaleIncr := scaleIncr - (9 * roundUp from1.frac - from1.frac + (9 * roundUp from2.frac - from2.frac)) }

/-- `do_div_mod` for a quotient, with no result for a divisor that is zero -/
def doDivMod (scratch : Nat → Nat) (from1 from2 target : Decimal) (scaleIncr : Nat) :
    Except Fault (Option (Decimal × DecError)) :=
  let o := divOperands from1 from2 scaleIncr
  if o.prec2 = 0 then .ok none
  else if o.prec1 = 0 then .ok (some (makeZero target, .ok))
  else (o.quotient scratch target).map some

/-- `decimal_div`. There is no result for a divisor of zero. -/
def decimalDiv (scratch : Nat → Nat) (from1 from2 target : Decimal) (scaleIncr : Nat) :
    Except Fault (Option (Decimal × DecError)) :=
  doDivMod scratch from1 from2 target scaleIncr

section Precision

variable {d : Decimal} {pos k : Nat}

theorem roundUp_add_mul (m n : Nat) : roundUp (m + 9 * n) = roundUp m + n := by
  unfold roundUp
  omega

theorem Decimal.WellFormed.whole (h : d.WellFormed) : d.whole.WellFormed := by
  have hWords : roundUp d.whole.intg + roundUp d.whole.frac = roundUp d.intg + roundUp d.frac := by
    simp [Decimal.whole, roundUp_add_mul, show roundUp 0 = 0 from rfl]
  refine ⟨fun i hi => h.word i (hWords ▸ hi), fun hPart => ?_, fun hPart => absurd rfl hPart⟩
  · have hSame : d.whole.intg % 9 = d.intg % 9 := add_mul_mod_self_left ..
    rw [hSame] at hPart ⊢
    exact h.lead hPart

theorem Decimal.whole_integerPart (d : Decimal) : d.whole.integerPart = d.mantissa := by
  rw [integerPart, whole, roundUp_add_mul, mantissa]

/-- The leading word has the digits that are not in the words after it. -/
theorem Significant.lead_word (h : Significant d pos k) (hk : k ≠ 0)
    (hWord : ∀ i < roundUp k, d.buf (pos + i) < 10 ^ 9) :
    10 ^ ((k - 1) % 9) ≤ d.buf pos ∧ d.buf pos < 10 ^ ((k - 1) % 9 + 1) := by
  obtain ⟨n, hn⟩ : ∃ n, roundUp k = n + 1 := ⟨_, roundUp_pos (pos_of_ne_zero hk)⟩
  have hDigits : k - 1 = (k - 1) % 9 + 9 * n := by
    unfold roundUp at hn
    omega
  have hUnit : 10 ^ (k - 1) = 10 ^ ((k - 1) % 9) * (10 ^ 9) ^ n := by
    rw [← pow_mul, ← pow_add, ← hDigits]
  have hUnit' : 10 ^ k = 10 ^ ((k - 1) % 9 + 1) * (10 ^ 9) ^ n := by
    rw [← pow_mul, ← pow_add]
    congr 1
    omega
  rw [hn] at hWord
  have hTail := wordsValue_lt (words_lt_tail hWord)
  have hValue := h.value
  rw [hn] at hValue
  have hLow := h.le hk
  have hHigh := h.lt
  rw [← hValue, hUnit] at hLow
  rw [← hValue, hUnit'] at hHigh
  constructor
  · have hLt : 10 ^ ((k - 1) % 9) * (10 ^ 9) ^ n < (d.buf pos + 1) * (10 ^ 9) ^ n := by
      rw [add_mul, one_mul]
      exact hLow.trans_lt (Nat.add_lt_add_left hTail _)
    exact Nat.lt_succ_iff.mp (Nat.lt_of_mul_lt_mul_right hLt)
  · exact Nat.lt_of_mul_lt_mul_right ((le_add_right ..).trans_lt hHigh)

theorem lastWord_spec (buf : Nat → Nat) (start2 n : Nat) :
    lastWord buf start2 n ≤ n ∧ ∀ i, lastWord buf start2 n < i → i ≤ n → buf (start2 + i) = 0 := by
  induction n with
  | zero => exact ⟨le_refl 0, fun i hi hn => absurd hi (by simp [lastWord]; omega)⟩
  | succ n ih =>
    rw [lastWord]
    split_ifs with hZero
    · refine ⟨ih.1.trans n.le_succ, fun i hi hn => ?_⟩
      rcases lt_or_eq_of_le hn with hLess | rfl
      · exact ih.2 i hi (Nat.lt_succ_iff.mp hLess)
      · exact hZero
    · exact ⟨le_refl _, fun i hi hn => absurd hi (by omega)⟩

end Precision

namespace DivOperands

/-- What the search for the first words finds in two numbers that are not zero -/
structure Valid (o : DivOperands) : Prop where
  from1 : o.from1.WellFormed
  from2 : o.from2.WellFormed
  significant1 : Significant o.from1.whole o.buf1 o.prec1
  significant2 : Significant o.from2.whole o.buf2 o.prec2
  pos1 : o.prec1 ≠ 0
  pos2 : o.prec2 ≠ 0

def offset (o : DivOperands) : Nat := if o.from1.buf o.buf1 < o.from2.buf o.buf2 then 1 else 0

def extended (o : DivOperands) : Nat → Nat := o.tmp1 fun _ => 0

variable {o : DivOperands} {scratch : Nat → Nat}

theorem tmp1_eq {i : Nat} (hi : i < o.len1) : o.tmp1 scratch i = o.extended i := by
  simp [extended, tmp1, hi]

variable (h : o.Valid)

include h

namespace Valid

theorem words1 : ∀ i < roundUp o.prec1, o.from1.buf (o.buf1 + i) < 10 ^ 9 := by
  intro i hi
  have hWords := h.significant1.words
  exact h.from1.whole.word _ (by omega)

theorem words2 : ∀ i < roundUp o.prec2, o.from2.buf (o.buf2 + i) < 10 ^ 9 := by
  intro i hi
  have hWords := h.significant2.words
  exact h.from2.whole.word _ (by omega)

theorem divisor_value : ∃ z, o.divisor.len2 + 1 + z = roundUp o.prec2 ∧
    o.from2.mantissa = o.divisor.value * (10 ^ 9) ^ z := by
  obtain ⟨n, hn⟩ : ∃ n, roundUp o.prec2 = n + 1 := ⟨_, roundUp_pos (pos_of_ne_zero h.pos2)⟩
  obtain ⟨hLe, hZero⟩ := lastWord_spec o.from2.buf o.buf2 (roundUp o.prec2 - 1)
  obtain ⟨z, hz⟩ := Nat.exists_eq_add_of_le hLe
  have hCount : o.divisor.len2 + 1 + z = roundUp o.prec2 := by
    simp only [divisor]
    omega
  refine ⟨z, hCount, ?_⟩
  rw [← Decimal.whole_integerPart, ← h.significant2.value, ← hCount, wordsValue_add,
    wordsValue_eq_zero (fun i hi => ?_ : ∀ i < z, o.from2.whole.buf _ = 0)]
  · rfl
  · rw [add_assoc o.buf2]
    exact hZero _ (by simp only [divisor]; omega) (by omega)

theorem divisor_valid : o.divisor.Valid := by
  obtain ⟨z, hz, -⟩ := h.divisor_value
  refine ⟨fun i hi => h.words2 i (by omega), ?_⟩
  have hLead := (h.significant2.lead_word h.pos2 h.words2).1
  exact (Nat.pow_pos (by decide)).trans_le hLead

/-- `dintg` counts the words of the quotient before the decimal point, or the zero words after it. -/
theorem intg0_zeros : (o.intg0 : Int) - o.zeros =
    (roundUp o.prec1 - roundUp o.from1.frac) - (roundUp o.prec2 - roundUp o.from2.frac) + 1 - o.offset := by
  obtain ⟨hLow1, hHigh1⟩ := h.significant1.lead_word h.pos1 h.words1
  obtain ⟨hLow2, hHigh2⟩ := h.significant2.lead_word h.pos2 h.words2
  have hLess : ∀ {m n x : Nat}, 10 ^ m ≤ x → x < 10 ^ (n + 1) → m ≤ n := fun hm hn =>
    Nat.lt_succ_iff.mp ((Nat.pow_lt_pow_iff_right (by decide)).mp (hm.trans_lt hn))
  have hPos1 := h.pos1
  have hPos2 := h.pos2
  unfold intg0 zeros dintg offset
  by_cases hFirst : o.from2.buf o.buf2 ≤ o.from1.buf o.buf1
  · have hDigits := hLess hLow2 (hFirst.trans_lt hHigh1)
    rw [if_pos hFirst, if_neg (by omega)]
    unfold roundUp
    omega
  · have hDigits := hLess hLow1 ((Nat.lt_of_not_le hFirst).trans hHigh2)
    rw [if_neg hFirst, if_pos (by omega)]
    unfold roundUp
    omega

theorem tmp1_zero : o.tmp1 scratch 0 = o.from1.buf o.buf1 := by
  simp [tmp1, roundUp_pos (pos_of_ne_zero h.pos1)]

theorem extended_lt (i : Nat) : o.extended i < 10 ^ 9 := by
  unfold extended tmp1
  split_ifs with hIn
  · exact h.words1 i hIn
  all_goals exact Nat.pow_pos (by decide)

/-- Any number of words of the dividend, by division -/
theorem extended_value (j : Nat) :
    wordsValue o.extended 0 j = o.from1.mantissa * (10 ^ 9) ^ j / (10 ^ 9) ^ roundUp o.prec1 := by
  have hCopy : wordsValue o.extended 0 (roundUp o.prec1) = o.from1.mantissa := by
    rw [← Decimal.whole_integerPart, ← h.significant1.value, ← add_zero o.buf1, ← wordsValue_shift]
    refine wordsValue_congr fun i hi => ?_
    simp only [extended, tmp1, zero_add, if_pos hi]
    rfl
  rcases le_total j (roundUp o.prec1) with hLe | hGe
  · obtain ⟨k, hk⟩ := Nat.exists_eq_add_of_le hLe
    rw [hk, pow_add, mul_comm ((10 ^ 9) ^ j), Nat.mul_div_mul_right _ _ (by positivity), ← hCopy, hk,
      wordsValue_div fun i _ => h.extended_lt _]
  · obtain ⟨k, rfl⟩ := Nat.exists_eq_add_of_le hGe
    have hZero : wordsValue o.extended (0 + roundUp o.prec1) k = 0 := by
      refine wordsValue_eq_zero fun i _ => ?_
      simp [extended, tmp1]
    rw [wordsValue_add, hCopy, hZero, add_zero, pow_add, mul_left_comm,
      Nat.mul_div_cancel_left _ (by positivity)]

/-- The words before those of the quotient's first turn do not reach the divisor. -/
theorem extended_lt_divisor : wordsValue o.extended 0 (o.offset + o.divisor.len2) < o.divisor.value := by
  have hFirst : o.extended 0 = o.from1.buf o.buf1 := h.tmp1_zero
  have hTail : wordsValue o.extended 1 o.divisor.len2 < (10 ^ 9) ^ o.divisor.len2 :=
    wordsValue_lt fun i _ => h.extended_lt _
  unfold offset
  split_ifs with hLess
  · rw [add_comm, wordsValue, hFirst]
    calc o.from1.buf o.buf1 * (10 ^ 9) ^ o.divisor.len2 + wordsValue o.extended (0 + 1) o.divisor.len2
        < (o.from1.buf o.buf1 + 1) * (10 ^ 9) ^ o.divisor.len2 := by
          rw [add_mul, one_mul]
          exact Nat.add_lt_add_left hTail _
      _ ≤ o.from2.buf o.buf2 * (10 ^ 9) ^ o.divisor.len2 := mul_le_mul_right _ hLess
      _ ≤ o.divisor.value := Nat.le_add_right ..
  · rw [zero_add]
    exact (wordsValue_lt fun i _ => h.extended_lt _).trans_le h.divisor_valid.le_value

omit h in
theorem start_tmp1 : (o.start scratch).tmp1 = o.tmp1 scratch := by
  unfold start
  split_ifs <;> rfl

theorem start_start1 : (o.start scratch).start1 = o.offset := by
  unfold start offset
  rw [h.tmp1_zero]
  split_ifs <;> rfl

theorem start_dcarry_lt : (o.start scratch).dcarry < 10 ^ 9 := by
  unfold start
  split_ifs
  · dsimp only
    rw [h.tmp1_zero]
    exact h.words1 0 (by rw [roundUp_pos (pos_of_ne_zero h.pos1)]; omega)
  · exact Nat.pow_pos (by decide)

theorem start_rest : (o.start scratch).rest o.divisor =
    wordsValue (o.tmp1 scratch) 0 (o.offset + o.divisor.len2) := by
  unfold start offset DivState.rest
  rw [h.tmp1_zero]
  split_ifs
  · rw [add_comm 1, wordsValue, h.tmp1_zero]
  · rw [zero_mul, zero_add, zero_add]

theorem start_dividend {m : Nat} (hm : o.offset + o.divisor.len2 + m ≤ o.len1) :
    (o.start scratch).dividend o.divisor m = wordsValue o.extended 0 (o.offset + o.divisor.len2 + m) := by
  have hSplit := wordsValue_add (o.tmp1 scratch) 0 (o.offset + o.divisor.len2) m
  rw [zero_add] at hSplit
  rw [DivState.dividend, h.start_rest, start_tmp1, h.start_start1, ← hSplit]
  exact wordsValue_congr fun i hi => tmp1_eq (by omega)

/-- The main loop for `m` words, the last of which is still in the copy of the dividend -/
theorem loop_spec (scratch : Nat → Nat) (div : Bool) {m : Nat} (buf0 : Nat) (mem : Nat → Nat)
    (hRoom : 0 < m → o.offset + o.divisor.len2 + m < o.len1) :
    ∃ s' mem', divLoop o.divisor div m buf0 (o.start scratch) mem = (s', mem') ∧
      (0 < m → Divided o.divisor o.len1 m (o.start scratch) s') ∧
      (div = true → Wrote mem mem' buf0 m
        (wordsValue o.extended 0 (o.offset + o.divisor.len2 + m) / o.divisor.value)) := by
  rcases Nat.eq_zero_or_pos m with rfl | hm
  · refine ⟨_, _, rfl, fun hPos => absurd hPos (lt_irrefl 0), fun _ => ?_⟩
    rw [add_zero, Nat.div_eq_of_lt h.extended_lt_divisor]
    exact Wrote.nil mem buf0
  · have hRoom' := hRoom hm
    have hRest : (o.start scratch).rest o.divisor = wordsValue o.extended 0 (o.offset + o.divisor.len2) := by
      rw [h.start_rest]
      exact wordsValue_congr fun i hi => tmp1_eq (by omega)
    have hTmp : ∀ i < o.len1, (o.start scratch).tmp1 i < 10 ^ 9 := fun i hi => by
      rw [start_tmp1, tmp1_eq hi]
      exact h.extended_lt i
    obtain ⟨s', mem', hLoop, hDivided, hWrote⟩ := divLoop_spec h.divisor_valid div buf0 mem h.start_dcarry_lt hTmp
      (fun _ => by rw [h.start_start1]; exact hRoom') (hRest ▸ h.extended_lt_divisor)
    rw [h.start_dividend hRoom'.le] at hWrote
    exact ⟨s', mem', hLoop, fun _ => hDivided, hWrote⟩

theorem turns_value_of_le {k : Nat} (hMore : o.zeros ≤ o.intg0 + k) :
    wordsValue o.extended 0 (o.offset + o.divisor.len2 + (o.intg0 + k - o.zeros)) / o.divisor.value =
      o.from1.mantissa * (10 ^ 9) ^ (roundUp o.from2.frac + k) /
        (o.from2.mantissa * (10 ^ 9) ^ roundUp o.from1.frac) := by
  obtain ⟨z, hz, hValue⟩ := h.divisor_value
  have hTurns := h.intg0_zeros
  have hPlace : o.offset + o.divisor.len2 + (o.intg0 + k - o.zeros) + (z + roundUp o.from1.frac) =
      roundUp o.from2.frac + k + roundUp o.prec1 := by omega
  rw [hValue, h.extended_value, Nat.div_div_eq_div_mul, ← Nat.mul_div_mul_right _ _
      (by positivity : 0 < (10 ^ 9) ^ (z + roundUp o.from1.frac)),
    ← Nat.mul_div_mul_right (o.from1.mantissa * _) _ (by positivity : 0 < (10 ^ 9) ^ roundUp o.prec1),
    mul_assoc, ← pow_add, hPlace, mul_assoc o.from1.mantissa, ← pow_add]
  congr 1
  rw [pow_add]
  ring

/-- With `k` words after the decimal point the loop finds the quotient rounded down. -/
theorem turns_value (k : Nat) :
    wordsValue o.extended 0 (o.offset + o.divisor.len2 + (o.intg0 + k - o.zeros)) / o.divisor.value =
      o.from1.mantissa * (10 ^ 9) ^ (roundUp o.from2.frac + k) /
        (o.from2.mantissa * (10 ^ 9) ^ roundUp o.from1.frac) := by
  by_cases hMore : o.zeros ≤ o.intg0 + k
  · exact h.turns_value_of_le hMore
  · -- with all the zero words the quotient is still zero
    have hZero := h.turns_value_of_le (by omega : o.zeros ≤ o.intg0 + (o.zeros - o.intg0))
    have hNone (j : Nat) (hj : o.intg0 + j ≤ o.zeros) : wordsValue o.extended 0
        (o.offset + o.divisor.len2 + (o.intg0 + j - o.zeros)) / o.divisor.value = 0 := by
      rw [Nat.sub_eq_zero_of_le hj, add_zero, div_eq_of_lt h.extended_lt_divisor]
    rw [hNone _ (by omega)] at hZero ⊢
    refine (le_zero.mp (hZero ▸ Nat.div_le_div_right (mul_le_mul_left _ ?_))).symm
    exact Nat.pow_le_pow_right (by decide) (by omega)

omit h in
theorem frac0_eq : o.frac0 = roundUp o.from1.frac + roundUp o.from2.frac + roundUp o.scaleIncr := by
  unfold frac0 roundUp
  omega

theorem quotient_spec (scratch : Nat → Nat) {target : Decimal} (hFits : o.intg0 + o.frac0 ≤ target.len)
    (hZeros : o.zeros ≤ target.len) :
    ∃ result, o.quotient scratch target = .ok (result, .ok) ∧ result.WellFormed ∧
      result.val = signOf (o.from1.sign ≠ o.from2.sign) *
        ((o.from1.mantissa * (10 ^ 9) ^ (roundUp o.from2.frac + o.frac0) /
          (o.from2.mantissa * (10 ^ 9) ^ roundUp o.from1.frac) : Nat) / (10 ^ 9) ^ o.frac0) := by
  obtain ⟨m, hm⟩ : ∃ m, m = o.intg0 + o.frac0 - o.zeros := ⟨_, rfl⟩
  have hRoom : 0 < m → o.offset + o.divisor.len2 + m < o.len1 := by
    intro hPos
    obtain ⟨z, hz, -⟩ := h.divisor_value
    have hTurns := h.intg0_zeros
    have hFrac := frac0_eq (o := o)
    have hRound : roundUp o.scaleIncr ≤ roundUp (o.scaleIncr + 1) := Nat.div_le_div_right (by omega)
    have hLen : roundUp o.prec1 + (2 * roundUp o.from2.frac + roundUp (o.scaleIncr + 1)) + 1 ≤ o.len1 := by
      unfold len1 roundUp
      omega
    omega
  obtain ⟨s', mem', hLoop, -, hWrote⟩ := h.loop_spec scratch true o.zeros
    (copyWords (fun _ => 0) 0 0 o.zeros target.buf) hRoom
  have hQuotient := hWrote rfl
  rw [hm, h.turns_value o.frac0, ← hm] at hQuotient
  generalize o.from1.mantissa * (10 ^ 9) ^ (roundUp o.from2.frac + o.frac0) /
    (o.from2.mantissa * (10 ^ 9) ^ roundUp o.from1.frac) = q at *
  have hAll := (zeros_wrote target.buf 0 o.zeros).extend (by simpa using hQuotient)
  rw [zero_mul, zero_add] at hAll
  have hWords : (∀ i < o.intg0 + o.frac0, mem' i < 10 ^ 9) ∧ wordsValue mem' 0 (o.intg0 + o.frac0) = q := by
    have hWord : ∀ i < o.zeros + m, mem' i < 10 ^ 9 := by simpa using hAll.word
    have hValue := hAll.value
    rcases Nat.le_total o.zeros (o.intg0 + o.frac0) with hLe | hGe
    · rw [show o.zeros + m = o.intg0 + o.frac0 by omega] at hWord hValue
      exact ⟨hWord, hValue⟩
    · obtain ⟨k, hk⟩ := Nat.exists_eq_add_of_le hGe
      obtain rfl : m = 0 := by omega
      obtain rfl : q = 0 := hQuotient.value.symm
      refine ⟨fun i hi => hWord i (by omega), ?_⟩
      rw [add_zero, hk] at hValue
      have hRest : ∀ i < k, mem' (0 + (o.intg0 + o.frac0) + i) < 10 ^ 9 := fun i hi => hWord _ (by omega)
      rw [← wordsValue_div hRest, hValue, Nat.zero_div]
  have hFix : fixIntgFracError target.len o.intg0 o.frac0 = (o.intg0, o.frac0, .ok) := by
    rw [fixIntgFracError, if_neg (by omega)]
  rw [quotient, hFix]
  dsimp only
  rw [if_neg (not_lt.mpr hZeros), ← hm, hLoop]
  have hFrac : roundUp (o.frac0 * 9) = o.frac0 := roundUp_mul_nine o.frac0
  refine ⟨_, rfl, wellFormed_of_words rfl ?_ rfl ?_, ?_⟩
  · rw [hFrac]
    exact hWords.1
  · rw [hFrac, mul_comm, Nat.sub_self, pow_zero]
    exact one_dvd _
  · rw [val_of_words rfl rfl, hFrac, hWords.2]

end Valid

end DivOperands

section Leading

variable {d : Decimal} {i j pos k : Nat}

/-- Word `i` is the first one that is not zero. -/
def Decimal.Leads (d : Decimal) (i : Nat) : Prop :=
  i < roundUp d.intg + roundUp d.frac ∧ d.buf i ≠ 0 ∧ ∀ j < i, d.buf j = 0

theorem Decimal.Leads.unique (hi : d.Leads i) (hj : d.Leads j) : i = j := by
  rcases lt_trichotomy i j with hLess | hEq | hLess
  · exact absurd (hj.2.2 i hLess) hi.2.1
  · exact hEq
  · exact absurd (hi.2.2 j hLess) hj.2.1

theorem Significant.leads (h : Significant d.whole pos k) (hd : d.WellFormed) (hk : k ≠ 0) : d.Leads pos := by
  have hEnd := h.words
  have hWords : roundUp d.whole.intg = roundUp d.intg + roundUp d.frac := by
    simp [Decimal.whole, roundUp_add_mul]
  have hSome := roundUp_pos (pos_of_ne_zero hk)
  have hFirst := (h.lead_word hk fun i hi => hd.word _ (by omega)).1
  refine ⟨by omega, ((Nat.pow_pos (by decide)).trans_le hFirst).ne', fun j hj => ?_⟩
  -- the words from `pos` on have the whole value
  have hFront : wordsValue d.buf 0 pos = 0 := by
    have hSplit := wordsValue_add d.buf 0 pos (roundUp k)
    have hValue : wordsValue d.buf (0 + pos) (roundUp k) = wordsValue d.buf 0 (pos + roundUp k) := by
      rw [zero_add, hEnd]
      exact h.value
    rw [hValue] at hSplit
    have hUnit : 0 < (10 ^ 9) ^ roundUp k := by positivity
    exact (Nat.mul_eq_zero.mp (by omega)).resolve_right hUnit.ne'
  by_contra hNonzero
  exact wordsValue_ne_zero hj (by rwa [zero_add]) hFront

/-- The zero words of the quotient of two numbers with the leading words `i` and `j` between the decimal
point and its own first word, or less than zero if that stands in front of the point -/
def leadingZeros (from1 from2 : Decimal) (i j : Nat) : Int :=
  ((roundUp from2.intg : Int) - j) - (roundUp from1.intg - i) - if from2.buf j ≤ from1.buf i then 1 else 0

theorem DivOperands.Valid.zeros_le_iff {o : DivOperands} (h : o.Valid) (len : Nat) :
    o.zeros ≤ len ↔ leadingZeros o.from1 o.from2 o.buf1 o.buf2 ≤ len := by
  have hTurns := h.intg0_zeros
  have hEnd1 := h.significant1.words
  have hEnd2 := h.significant2.words
  simp only [Decimal.whole, roundUp_add_mul] at hEnd1 hEnd2
  have hOne : o.intg0 = 0 ∨ o.zeros = 0 := by
    unfold intg0 zeros roundUp
    omega
  unfold leadingZeros
  unfold offset at hTurns
  split_ifs at hTurns ⊢ <;> omega

end Leading

section Division

variable {from1 from2 : Decimal}

theorem Significant.eq_zero_iff {d : Decimal} {pos k : Nat} (h : Significant d.whole pos k) : k = 0 ↔ d.val = 0 := by
  rw [Decimal.val_eq_zero, ← Decimal.whole_integerPart]
  constructor
  · rintro rfl
    exact lt_one_iff.mp h.lt
  · intro hZero
    by_contra hk
    have hLe := h.le hk
    rw [hZero] at hLe
    exact absurd hLe (by simp)

/-- The search for the first words of the operands -/
theorem divOperands_spec (hFrom1 : from1.WellFormed) (hFrom2 : from2.WellFormed) (scaleIncr : Nat) :
    ((divOperands from1 from2 scaleIncr).prec1 = 0 ↔ from1.val = 0) ∧
      ((divOperands from1 from2 scaleIncr).prec2 = 0 ↔ from2.val = 0) ∧
      (from1.val ≠ 0 → from2.val ≠ 0 → (divOperands from1 from2 scaleIncr).Valid) := by
  obtain ⟨buf1, prec1, hFind1, h1⟩ := removeLeadingZeroes_spec hFrom1.whole
  obtain ⟨buf2, prec2, hFind2, h2⟩ := removeLeadingZeroes_spec hFrom2.whole
  rw [divOperands, hFind1, hFind2]
  exact ⟨h1.eq_zero_iff, h2.eq_zero_iff, fun hNe1 hNe2 =>
    ⟨hFrom1, hFrom2, h1, h2, fun hZero => hNe1 (h1.eq_zero_iff.mp hZero),
      fun hZero => hNe2 (h2.eq_zero_iff.mp hZero)⟩⟩

/-- The quotient of the numbers as a quotient of all their words -/
theorem floor_quotient (from1 from2 : Decimal) (k : Nat) :
    ⌊|from1.val / from2.val| * (10 ^ 9) ^ k⌋₊ =
      from1.mantissa * (10 ^ 9) ^ (roundUp from2.frac + k) / (from2.mantissa * (10 ^ 9) ^ roundUp from1.frac) := by
  rw [abs_div, Decimal.abs_val, Decimal.abs_val, ← floor_div_eq_div (K := ℚ)]
  congr 1
  rw [cast_mul, cast_mul, cast_base_pow, cast_base_pow, div_div_div_eq, pow_add]
  ring

/-- `decimal_div` finds no result exactly for a divisor that is zero. Otherwise it finds the quotient
rounded towards zero to `frac0` words after the decimal point just when all zero words in front of the
quotient's first one have room in the target. -/
theorem decimalDiv_truncates_iff (hFrom1 : from1.WellFormed) (hFrom2 : from2.WellFormed) (scratch : Nat → Nat)
    (target : Decimal) (scaleIncr : Nat) :
    (decimalDiv scratch from1 from2 target scaleIncr = .ok none ↔ from2.val = 0) ∧ (from2.val ≠ 0 →
        ∀ o, o = divOperands from1 from2 scaleIncr → (from1.val ≠ 0 → o.intg0 + o.frac0 ≤ target.len) →
          ((∃ result, decimalDiv scratch from1 from2 target scaleIncr = .ok (some (result, .ok)) ∧
              result.WellFormed ∧
              result.val = signOf from1.sign * signOf from2.sign *
                (⌊|from1.val / from2.val| * (10 ^ 9) ^ o.frac0⌋₊ / (10 ^ 9) ^ o.frac0)) ↔
            ∀ i j, from1.Leads i → from2.Leads j → leadingZeros from1 from2 i j ≤ target.len)) := by
  obtain ⟨hZero1, hZero2, hValid⟩ := divOperands_spec hFrom1 hFrom2 scaleIncr
  unfold decimalDiv doDivMod
  constructor
  · rw [← hZero2]
    constructor
    · intro hNone
      by_contra hNe
      rw [if_neg hNe] at hNone
      split_ifs at hNone
      · cases hNone
      · cases hQuotient : DivOperands.quotient (divOperands from1 from2 scaleIncr) scratch target <;>
          rw [hQuotient] at hNone <;> cases hNone
    · intro hNone
      rw [if_pos hNone]
  · rintro hNe2 o rfl hFits
    rw [if_neg fun hNone => hNe2 (hZero2.mp hNone)]
    by_cases hNe1 : from1.val = 0
    · rw [if_pos (hZero1.mpr hNe1), hNe1]
      refine ⟨fun _ i j hi => absurd ?_ hi.2.1, fun _ => ⟨_, rfl, makeZero_wellFormed target, by simp [makeZero_val]⟩⟩
      by_contra hNonzero
      refine absurd (Decimal.val_eq_zero.mp hNe1) (wordsValue_ne_zero hi.1 ?_)
      rwa [zero_add]
    · have h := hValid hNe1 hNe2
      have hLead1 := h.significant1.leads hFrom1 h.pos1
      have hLead2 := h.significant2.leads hFrom2 h.pos2
      rw [if_neg fun hNone => hNe1 (hZero1.mp hNone)]
      constructor
      · rintro ⟨result, hRun, -⟩ i j hi hj
        rw [hi.unique hLead1, hj.unique hLead2]
        refine (h.zeros_le_iff target.len).mp (not_lt.mp fun hFar => ?_)
        have hOutside : (divOperands from1 from2 scaleIncr).quotient scratch target = .error .outside := if_pos hFar
        rw [hOutside] at hRun
        cases hRun
      · intro hAll
        obtain ⟨result, hResult, hForm, hValue⟩ := h.quotient_spec scratch (hFits hNe1)
          ((h.zeros_le_iff target.len).mpr (hAll _ _ hLead1 hLead2))
        rw [hResult]
        refine ⟨result, rfl, hForm, ?_⟩
        rw [hValue, signOf_ne, floor_quotient]
        rfl

/-- One third with four more digits after the decimal point than the operands have -/
theorem decimalDiv_truncates_iff_third :
    ∃ result, decimalDiv (fun _ => 0) ⟨1, 0, 1, false, fun _ => 1⟩ ⟨1, 0, 1, true, fun _ => 3⟩
        ⟨0, 0, 2, false, fun _ => 9⟩ 4 = .ok (some (result, .ok)) ∧ result.WellFormed ∧
      result.val = signOf false * signOf true *
        (⌊|Decimal.val ⟨1, 0, 1, false, fun _ => 1⟩ / Decimal.val ⟨1, 0, 1, true, fun _ => 3⟩| * (10 ^ 9) ^ 1⌋₊ /
          (10 ^ 9) ^ 1) := by
  have hFrac0 : (divOperands ⟨1, 0, 1, false, fun _ => 1⟩ ⟨1, 0, 1, true, fun _ => 3⟩ 4).frac0 = 1 := by decide
  have hDiv := (@decimalDiv_truncates_iff ⟨1, 0, 1, false, fun _ => 1⟩ ⟨1, 0, 1, true, fun _ => 3⟩
    ⟨by decide, by decide, by decide⟩ ⟨by decide, by decide, by decide⟩ (fun _ => 0)
    ⟨0, 0, 2, false, fun _ => 9⟩ 4).2 (Decimal.val_eq_zero.not.mpr (by decide)) _ rfl (fun _ => by decide)
  rw [hFrac0] at hDiv
  refine hDiv.mpr fun i j hi hj => ?_
  obtain ⟨rfl, rfl⟩ : i = 0 ∧ j = 0 := ⟨Nat.lt_one_iff.mp hi.1, Nat.lt_one_iff.mp hj.1⟩
  decide

/-- `10^-30` divided by `10^72` with room for nine words: four of them would do, but eleven zero words
are written. -/
theorem decimalDiv_writesOutside :
    let from1 : Decimal := ⟨0, 30, 9, false, fun i => if i = 3 then 1000000 else 0⟩
    let from2 : Decimal := ⟨73, 0, 9, false, fun i => if i = 0 then 1 else 0⟩
    from1.WellFormed ∧ from2.WellFormed ∧
      (divOperands from1 from2 4).intg0 + (divOperands from1 from2 4).frac0 = 4 ∧
      decimalDiv (fun _ => 0) from1 from2 ⟨0, 0, 9, false, fun _ => 0⟩ 4 = .error .outside :=
  ⟨⟨by decide, by decide, by decide⟩, ⟨by decide, by decide, by decide⟩, by decide, rfl⟩

end Division

end MySQL.Decimals
