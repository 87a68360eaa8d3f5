import MySQL.Strings.Decimal.Aligned

/-! The end of `decimal_round`: the last word that stays has been rounded, and its carry goes to the
words in front of it. -/
namespace MySQL.Decimals
open Function

section
variable {buf : Nat → Nat} {pos n : Nat}

theorem wordsValue_snoc (buf : Nat → Nat) (n : Nat) :
    wordsValue buf 0 (n + 1) = wordsValue buf 0 n * 10 ^ 9 + buf n := by
  rw [wordsValue_concat, zero_add]

structure Carried (buf buf' : Nat → Nat) (pos last : Nat) (carry : Bool) : Prop where
  value : wordsValue buf' 0 pos + (if carry then (10 ^ 9) ^ pos else 0) = wordsValue buf 0 pos + 1
  word : ∀ i < pos, buf' i < 10 ^ 9
  behind : ∀ i, pos ≤ i → buf' i = buf i
  front : carry = false → last < pos ∧ ∀ i < last, buf' i = buf i
  bound : ∀ i, buf' i ≤ buf i + 1

theorem carryUp_spec (h : ∀ i < pos, buf i < 10 ^ 9) {last : Nat} {buf' : Nat → Nat} {carry : Bool}
    (hCarry : carryUp pos buf = (last, buf', carry)) : Carried buf buf' pos last carry := by
  induction pos generalizing buf with
  | zero =>
    obtain ⟨rfl, rfl, rfl⟩ : last = 0 ∧ buf' = buf ∧ carry = true := by
      simpa [carryUp, eq_comm] using hCarry
    exact ⟨rfl, fun i hi => absurd hi (Nat.not_lt_zero i), fun _ _ => rfl, by simp,
      fun i => Nat.le_succ _⟩
  | succ pos ih =>
    have hWord : buf pos < 10 ^ 9 := h pos (Nat.lt_succ_self pos)
    rw [carryUp] at hCarry
    split_ifs at hCarry with hFull
    · have hZero : buf pos + 1 - 10 ^ 9 = 0 := by omega
      rw [hZero] at hCarry
      have hFront : ∀ i < pos, update buf pos 0 i < 10 ^ 9 := by
        intro i hi
        rw [update_of_ne (ne_of_lt hi)]
        exact h i (Nat.lt_succ_of_lt hi)
      have hSame : wordsValue (update buf pos 0) 0 pos = wordsValue buf 0 pos :=
        wordsValue_congr fun i hi => by
          rw [zero_add, update_of_ne (ne_of_lt hi)]
      obtain ⟨hValue, hWords, hBehind, hLast, hBound⟩ := ih hFront hCarry
      have hAtPos : buf' pos = 0 := by
        rw [hBehind pos (le_refl pos), update_self]
      refine ⟨?_, ?_, ?_, ?_, ?_⟩
      · rw [wordsValue_snoc, wordsValue_snoc, hAtPos]
        rw [hSame] at hValue
        have hTop : buf pos + 1 = 10 ^ 9 := by omega
        calc wordsValue buf' 0 pos * 10 ^ 9 + 0 + (if carry then (10 ^ 9) ^ (pos + 1) else 0)
            = (wordsValue buf' 0 pos + (if carry then (10 ^ 9) ^ pos else 0)) * 10 ^ 9 := by
              cases carry with
              | false => simp
              | true =>
                simp only [if_true]
                ring
          _ = wordsValue buf 0 pos * 10 ^ 9 + buf pos + 1 := by
              rw [hValue, add_assoc, hTop]
              ring
      · intro i hi
        rcases Nat.lt_succ_iff_lt_or_eq.mp hi with hi | rfl
        · exact hWords i hi
        · rw [hAtPos]
          decide
      · intro i hi
        rw [hBehind i (by omega), update_of_ne (by omega)]
      · intro hNone
        obtain ⟨hLt, hSameFront⟩ := hLast hNone
        refine ⟨Nat.lt_succ_of_lt hLt, fun i hi => ?_⟩
        rw [hSameFront i hi, update_of_ne (by omega)]
      · intro i
        by_cases hi : i = pos
        · rw [hi, hAtPos]
          exact Nat.zero_le _
        · have hLe := hBound i
          rwa [update_of_ne hi] at hLe
    · obtain ⟨rfl, rfl, rfl⟩ : pos = last ∧ update buf pos (buf pos + 1) = buf' ∧
          false = carry := by
        simpa using hCarry
      refine ⟨?_, ?_, ?_, ?_, ?_⟩
      · have hSame : wordsValue (update buf pos (buf pos + 1)) 0 pos = wordsValue buf 0 pos :=
          wordsValue_congr fun i hi => by
            rw [zero_add, update_of_ne (ne_of_lt hi)]
        rw [wordsValue_snoc, wordsValue_snoc, hSame, update_self]
        simp [add_assoc]
      · intro i hi
        by_cases hEq : i = pos
        · rw [hEq, update_self]
          omega
        · rw [update_of_ne hEq]
          exact h i hi
      · intro i hi
        rw [update_of_ne (by omega)]
      · exact fun _ => ⟨Nat.lt_succ_self _, fun i hi => update_of_ne (by omega) ..⟩
      · intro i
        by_cases hEq : i = pos
        · rw [hEq, update_self]
        · rw [update_of_ne hEq]
          exact Nat.le_succ _

theorem lastNonzero_some (h : lastNonzero buf pos = some n) : n ≤ pos ∧ buf n ≠ 0 := by
  induction pos with
  | zero =>
    rw [lastNonzero] at h
    split_ifs at h with hWord
    obtain rfl : 0 = n := by simpa using h
    exact ⟨le_refl 0, hWord⟩
  | succ pos ih =>
    rw [lastNonzero] at h
    split_ifs at h with hWord
    · obtain rfl : pos + 1 = n := by simpa using h
      exact ⟨le_refl _, hWord⟩
    · exact ⟨(ih h).1.trans (Nat.le_succ pos), (ih h).2⟩

theorem lastNonzero_none (h : lastNonzero buf pos = none) : ∀ i ≤ pos, buf i = 0 := by
  induction pos with
  | zero =>
    rw [lastNonzero] at h
    intro i hi
    split_ifs at h with hWord
    rw [Nat.le_zero.mp hi]
    exact not_not.mp hWord
  | succ pos ih =>
    rw [lastNonzero] at h
    intro i hi
    split_ifs at h with hWord
    rcases Nat.le_succ_iff.mp hi with hi | rfl
    · exact ih h i hi
    · exact not_not.mp hWord

theorem copyUp_one (buf : Nat → Nat) (n i : Nat) :
    copyUp none 1 n buf i = if 0 < i ∧ i ≤ n then buf (i - 1) else buf i := by
  induction n generalizing buf with
  | zero =>
    have hNot : ¬(0 < i ∧ i ≤ 0) := by omega
    rw [copyUp, if_neg hNot]
  | succ n ih =>
    rw [copyUp, ih, Option.getD_none]
    by_cases hi : i = n + 1
    · subst hi
      simp
    · rw [update_of_ne hi]
      by_cases hIn : 0 < i ∧ i ≤ n
      · rw [if_pos hIn, if_pos (by omega), update_of_ne (by omega)]
      · rw [if_neg hIn, if_neg (by omega)]

end

def below (scale : Int) : Nat := (9 * (roundUp scale.toNat : Int) - scale).toNat

structure Rounded (r : Decimal) (sign : Bool) (scale : Int) (m : Nat) : Prop where
  wellFormed : r.WellFormed
  frac : r.frac = scale.toNat
  value : r.mantissa = m * 10 ^ below scale
  sign : r.sign = (sign && m ≠ 0)

section
variable {d : Decimal} {pos m : Nat} {scale : Int}

/-- What is left to do when the words are right: `intg` follows the first word. -/
theorem finishRound_rounded (hWord : ∀ i < roundUp d.intg + roundUp scale.toNat, d.buf i < 10 ^ 9)
    (hLead : d.intg % 9 ≠ 0 → d.buf 0 < 10 ^ (d.intg % 9) ∨ pos = 0 ∧ d.buf 0 ≤ 10 ^ (d.intg % 9))
    (hTrail : scale.toNat % 9 ≠ 0 →
      10 ^ (9 - scale.toNat % 9) ∣ d.buf (roundUp d.intg + roundUp scale.toNat - 1))
    (hValue : wordsValue d.buf 0 (roundUp d.intg + roundUp scale.toNat) = m * 10 ^ below scale) (hSome : m ≠ 0) :
    Rounded (finishRound d pos scale) d.sign scale m := by
  have hRound : roundUp (finishRound d pos scale).intg = roundUp d.intg := by
    unfold finishRound roundUp
    dsimp only
    split_ifs <;> omega
  have hFrac : (finishRound d pos scale).frac = scale.toNat := rfl
  refine ⟨⟨?_, ?_, ?_⟩, hFrac, ?_, ?_⟩
  · rw [hRound, hFrac]
    exact hWord
  · change _ % 9 ≠ 0 → d.buf 0 < _
    unfold finishRound
    dsimp only
    split_ifs with hMore
    · intro hFirst
      have hPow : 10 ^ ((d.intg + 1) % 9) = 10 ^ (d.intg % 9) * 10 := by
        rw [← pow_succ]
        congr 1
        omega
      have hPos : 0 < 10 ^ (d.intg % 9) := by positivity
      rcases hLead hMore.1 with h | h <;> omega
    · intro hFirst
      rcases hLead hFirst with h | ⟨rfl, h⟩
      · exact h
      · push Not at hMore
        exact hMore hFirst
  · rw [hRound, hFrac]
    exact hTrail
  · rw [Decimal.mantissa, hRound, hFrac]
    exact hValue
  · simp [finishRound, hSome]

/-- The words after the last one that stays has been rounded, which may have made it `10 ^ 9`. Those
behind it are zero. -/
structure LastRounded (d : Decimal) (pos : Nat) (scale : Int) (m : Nat) : Prop where
  pos_lt : pos < roundUp d.intg + roundUp scale.toNat
  word : ∀ i < pos, d.buf i < 10 ^ 9
  last : d.buf pos ≤ 10 ^ 9
  behind : ∀ i, pos < i → i < roundUp d.intg + roundUp scale.toNat → d.buf i = 0
  lead : d.intg % 9 ≠ 0 → d.buf 0 < 10 ^ (d.intg % 9) ∨ pos = 0 ∧ d.buf 0 ≤ 10 ^ (d.intg % 9)
  trail : scale.toNat % 9 ≠ 0 → 10 ^ (9 - scale.toNat % 9) ∣ d.buf pos
  value : wordsValue d.buf 0 (roundUp d.intg + roundUp scale.toNat) = m * 10 ^ below scale
  room : (10 ^ 9) ^ (roundUp d.intg + roundUp scale.toNat) ≤
      wordsValue d.buf 0 (roundUp d.intg + roundUp scale.toNat) →
    d.intg % 9 = 0 ∧ roundUp d.intg + roundUp scale.toNat < d.len

/-- A carry is added to the words in front of the last one. -/
private theorem carried_value (hFull : d.buf pos = 10 ^ 9) {last : Nat} {buf : Nat → Nat} {carry : Bool}
    (hCarried : Carried (update d.buf pos 0) buf pos last carry) {n : Nat} (hn : pos < n) :
    wordsValue buf 0 n + (if carry then (10 ^ 9) ^ n else 0) = wordsValue d.buf 0 n := by
  obtain ⟨k, rfl⟩ := Nat.exists_eq_add_of_lt hn
  have hSame : wordsValue (update d.buf pos 0) 0 pos = wordsValue d.buf 0 pos :=
    wordsValue_congr fun i hi => by rw [zero_add, update_of_ne (ne_of_lt hi)]
  have hLast : buf pos = 0 := by
    rw [hCarried.behind pos (le_refl pos), update_self]
  have hBehind : wordsValue buf (0 + (pos + 1)) k = wordsValue d.buf (0 + (pos + 1)) k :=
    wordsValue_congr fun i _ => by rw [hCarried.behind _ (by omega), update_of_ne (by omega)]
  have hValue := hCarried.value
  rw [hSame] at hValue
  have hFirst : wordsValue buf 0 (pos + 1) + (if carry then (10 ^ 9) ^ (pos + 1) else 0) =
      wordsValue d.buf 0 (pos + 1) := by
    rw [wordsValue_snoc, wordsValue_snoc, hLast, hFull, pow_succ]
    cases carry with
    | false =>
      simp only [Bool.false_eq_true, if_false] at hValue ⊢
      linear_combination (10 ^ 9) * hValue
    | true =>
      simp only [if_true] at hValue ⊢
      linear_combination (10 ^ 9) * hValue
  rw [show pos + k + 1 = pos + 1 + k by omega, wordsValue_add buf 0 (pos + 1), wordsValue_add d.buf 0 (pos + 1),
    hBehind, ← hFirst, pow_add]
  cases carry <;> simp only [Bool.false_eq_true, if_false, if_true] <;> ring

namespace LastRounded

variable (h : LastRounded d pos scale m)

include h

private theorem ne_zero {i : Nat} (hi : i ≤ pos) (hWord : d.buf i ≠ 0) : m ≠ 0 := by
  have hPos := h.pos_lt
  have hValue := wordsValue_ne_zero (by omega : i < roundUp d.intg + roundUp scale.toNat) (by rwa [zero_add])
  rw [h.value] at hValue
  exact left_ne_zero_of_mul hValue

variable {last : Nat} {buf : Nat → Nat}

private theorem carried_word (hFull : d.buf pos = 10 ^ 9) {carry : Bool}
    (hCarried : Carried (update d.buf pos 0) buf pos last carry) :
    ∀ i < roundUp d.intg + roundUp scale.toNat, buf i < 10 ^ 9 ∧ (pos ≤ i → buf i = 0) := by
  intro i hi
  rcases lt_trichotomy i pos with hLess | rfl | hMore
  · exact ⟨hCarried.word i hLess, fun hLe => absurd hLe (by omega)⟩
  · have hZero : buf i = 0 := by rw [hCarried.behind i (le_refl i), update_self]
    exact ⟨by rw [hZero]; decide, fun _ => hZero⟩
  · have hZero : buf i = 0 := by
      rw [hCarried.behind i hMore.le, update_of_ne (by omega), h.behind i hMore hi]
    exact ⟨by rw [hZero]; decide, fun _ => hZero⟩

/-- The carry stops within the words. -/
private theorem carried_rounded (hFull : d.buf pos = 10 ^ 9)
    (hCarried : Carried (update d.buf pos 0) buf pos last false) :
    Rounded (finishRound { d with buf } last scale) d.sign scale m := by
  have hPos := h.pos_lt
  obtain ⟨hLt, hFront⟩ := hCarried.front rfl
  have hZeroth : update d.buf pos 0 0 = d.buf 0 := update_of_ne (by omega) ..
  have hWord := h.carried_word hFull hCarried
  have hValue := carried_value hFull hCarried hPos
  rw [if_neg Bool.false_ne_true, add_zero, h.value] at hValue
  refine finishRound_rounded (fun i hi => (hWord i hi).1) (fun hFirst => ?_) (fun _ => ?_) hValue
    (h.ne_zero (le_refl pos) (by rw [hFull]; decide))
  · change buf 0 < 10 ^ (d.intg % 9) ∨ last = 0 ∧ buf 0 ≤ 10 ^ (d.intg % 9)
    have hOld : d.buf 0 < 10 ^ (d.intg % 9) := (h.lead hFirst).resolve_right (by omega)
    rcases Nat.eq_zero_or_pos last with hZero | hSome
    · have hBound := hCarried.bound 0
      rw [hZeroth] at hBound
      exact .inr ⟨hZero, by omega⟩
    · rw [hFront 0 hSome, hZeroth]
      exact .inl hOld
  · change _ ∣ buf (roundUp d.intg + roundUp scale.toNat - 1)
    rw [(hWord _ (by omega)).2 (by omega)]
    exact Nat.dvd_zero _

/-- The carry leaves the first word: the words move to make room for a one. -/
private theorem carriedOut_rounded (hFull : d.buf pos = 10 ^ 9)
    (hCarried : Carried (update d.buf pos 0) buf pos last true) (hIntg : d.intg % 9 = 0) : Rounded
      (finishRound { d with
          buf := update (copyUp none 1 (roundUp d.intg + roundUp scale.toNat) buf) 0 1
          intg := d.intg + 1 } 0 scale) d.sign scale m := by
  have hPos := h.pos_lt
  have hWord := h.carried_word hFull hCarried
  have hValue := carried_value hFull hCarried hPos
  have hWords : roundUp (d.intg + 1) + roundUp scale.toNat = roundUp d.intg + roundUp scale.toNat + 1 := by
    unfold roundUp
    omega
  generalize hEnd : roundUp d.intg + roundUp scale.toNat = n at *
  set buf' := update (copyUp none 1 n buf) 0 1 with hBuf'
  have hOne : buf' 0 = 1 := update_self ..
  have hMoved (i : Nat) (hi : i < n) : buf' (i + 1) = buf i := by
    rw [hBuf', update_of_ne (Nat.succ_ne_zero i), copyUp_one, if_pos (by omega)]
    rfl
  have hFirst : (d.intg + 1) % 9 = 1 := by omega
  have hAll : wordsValue buf' 0 (n + 1) = m * 10 ^ below scale := by
    have hTail : wordsValue buf' 1 n = wordsValue buf 0 n := by
      rw [← wordsValue_shift buf' 1 0]
      refine wordsValue_congr fun i hi => ?_
      rw [zero_add, add_comm]
      exact hMoved i hi
    rw [wordsValue, hOne, one_mul, hTail, add_comm, ← h.value, hEnd, ← hValue, if_pos rfl]
  refine finishRound_rounded ?_ (fun _ => .inl ?_) (fun _ => ?_) (by rw [← hAll, ← hWords])
    (h.ne_zero (le_refl pos) (by rw [hFull]; decide))
  · change ∀ i < roundUp (d.intg + 1) + roundUp scale.toNat, buf' i < 10 ^ 9
    rw [hWords]
    intro i hi
    cases i with
    | zero =>
      rw [hOne]
      decide
    | succ i =>
      rw [hMoved i (by omega)]
      exact (hWord i (by omega)).1
  · change buf' 0 < 10 ^ ((d.intg + 1) % 9)
    rw [hOne, hFirst]
    decide
  · change _ ∣ buf' (roundUp (d.intg + 1) + roundUp scale.toNat - 1)
    rw [show roundUp (d.intg + 1) + roundUp scale.toNat - 1 = n - 1 + 1 by omega, hMoved _ (by omega),
      (hWord _ (by omega)).2 (by omega)]
    exact Nat.dvd_zero _

/-- All words have become zero. -/
private theorem zero_rounded (hZero : ∀ i ≤ pos, d.buf i = 0) {n : Nat}
    (hn : roundUp scale.toNat < n ∨ roundUp scale.toNat = 0) :
    Rounded { d with
        intg := 1
        frac := scale.toNat
        sign := false
        buf := zeroWords 0 n d.buf } d.sign scale m := by
  have hNone : m = 0 := by
    have hValue : wordsValue d.buf 0 (roundUp d.intg + roundUp scale.toNat) = 0 :=
      wordsValue_eq_zero fun i hi => by
        rw [zero_add]
        rcases lt_or_ge pos i with hMore | hLe
        · exact h.behind i hMore hi
        · exact hZero i hLe
    rw [h.value] at hValue
    exact (Nat.mul_eq_zero.mp hValue).resolve_right (by positivity)
  have hOne : roundUp 1 = 1 := rfl
  have hWord (i : Nat) (hi : i < roundUp 1 + roundUp scale.toNat) : zeroWords 0 n d.buf i = 0 := by
    rw [zeroWords_apply]
    split_ifs
    · rfl
    · exact hZero i (by omega)
  refine ⟨⟨fun i hi => ?_, fun _ => ?_, fun _ => ?_⟩, rfl, ?_, by simp [hNone]⟩
  · change zeroWords 0 n d.buf i < 10 ^ 9
    rw [hWord i hi]
    decide
  · change zeroWords 0 n d.buf 0 < 10 ^ 1
    rw [hWord 0 (by omega)]
    decide
  · change _ ∣ zeroWords 0 n d.buf (roundUp 1 + roundUp scale.toNat - 1)
    rw [hWord _ (by omega)]
    exact Nat.dvd_zero _
  · rw [hNone, zero_mul]
    exact wordsValue_eq_zero fun i hi => by
      rw [zero_add]
      exact hWord i hi

theorem settleRound_rounded {frac0 : Int} (hFrac0 : max frac0 0 = roundUp scale.toNat) :
    ∃ r, settleRound d pos (roundUp d.intg) frac0 scale .ok = (r, .ok) ∧ Rounded r d.sign scale m := by
  have hPos := h.pos_lt
  have hKept : ((roundUp d.intg : Int) + max frac0 0).toNat = roundUp d.intg + roundUp scale.toNat := by omega
  unfold settleRound
  split_ifs with hFull
  · have hFull : d.buf pos = 10 ^ 9 := le_antisymm h.last hFull
    rw [hFull, Nat.sub_self]
    rcases hCarry : carryUp pos _ with ⟨last, buf, carry⟩
    have hFront : ∀ i < pos, update d.buf pos 0 i < 10 ^ 9 := by
      intro i hi
      rw [update_of_ne (ne_of_lt hi)]
      exact h.word i hi
    have hCarried := carryUp_spec hFront hCarry
    cases carry with
    | false => exact ⟨_, rfl, h.carried_rounded hFull hCarried⟩
    | true =>
      have hValue := carried_value hFull hCarried hPos
      obtain ⟨hIntg, hLen⟩ := h.room (by
        rw [← hValue, if_pos rfl]
        exact Nat.le_add_left ..)
      have hRoom : ¬((d.len : Int) ≤ frac0 + (roundUp d.intg : Int)) := by omega
      simp only [hRoom, decide_false, Bool.false_eq_true, if_false, hKept, if_true]
      exact ⟨_, rfl, h.carriedOut_rounded hFull hCarried hIntg⟩
  · cases hLast : lastNonzero d.buf pos with
    | some last =>
      obtain ⟨hLe, hWord⟩ := lastNonzero_some hLast
      refine ⟨_, rfl, finishRound_rounded (fun i hi => ?_) (fun hFirst => ?_) (fun hPart => ?_) h.value
        (h.ne_zero hLe hWord)⟩
      · rcases lt_trichotomy i pos with hLess | rfl | hMore
        · exact h.word i hLess
        · exact Nat.lt_of_not_le hFull
        · rw [h.behind i hMore hi]
          decide
      · rcases h.lead hFirst with hLead | ⟨hZero, hLead⟩
        · exact .inl hLead
        · exact .inr ⟨by omega, hLead⟩
      · rcases Nat.lt_or_eq_of_le (by omega : pos ≤ roundUp d.intg + roundUp scale.toNat - 1) with hMore | hEnd
        · rw [h.behind _ hMore (by omega)]
          exact Nat.dvd_zero _
        · rw [← hEnd]
          exact h.trail hPart
    | none => exact ⟨_, rfl, h.zero_rounded (lastNonzero_none hLast) (by omega)⟩

end LastRounded

end

end MySQL.Decimals
