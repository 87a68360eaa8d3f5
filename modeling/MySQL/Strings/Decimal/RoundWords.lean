import MySQL.Strings.Decimal.RoundSettle

/-! `decimal_round` once the words are in place: which digit decides, and what it does to the last
word that stays. -/
namespace MySQL.Decimals
open Function Nat

def fracWords (scale : Int) : Int := if 0 < scale then roundUp scale.toNat else scale.tdiv 9

def roundedUnits (mode : RoundMode) (sign : Bool) (n u : Nat) : Nat :=
  match mode with
  | .truncate => n / u
  | .halfUp => (2 * n + u) / (2 * u)
  | .halfEven => if u < 2 * (n % u) ∨ u = 2 * (n % u) ∧ n / u % 2 = 1 then n / u + 1 else n / u
  | .ceiling => if sign then n / u else (n + u - 1) / u
  | .floor => if sign then (n + u - 1) / u else n / u

theorem fracWords_spec (scale : Int) :
    scale ≤ 9 * fracWords scale ∧ 9 * fracWords scale < scale + 9 ∧ max (fracWords scale) 0 = roundUp scale.toNat := by
  unfold fracWords
  split_ifs with hPos
  · unfold roundUp
    omega
  · have hNeg : scale.tdiv 9 = -((-scale) / 9) := by
      rw [← Int.tdiv_eq_ediv_of_nonneg (by omega : 0 ≤ -scale), Int.neg_tdiv, neg_neg]
    have hZero : scale.toNat = 0 := by omega
    have hNone : roundUp 0 = 0 := rfl
    rw [hZero]
    omega

section AtWord

variable {buf : Nat → Nat} {kept dropped n u w rest : Nat}

theorem half_units (hu : 0 < u) (hn : n = w * u + rest) (hRest : rest < u) :
    (2 * n + u) / (2 * u) = w + if u ≤ 2 * rest then 1 else 0 := by
  have hSplit : 2 * n + u = 2 * rest + u + w * (2 * u) := by
    rw [hn]
    ring
  rw [hSplit, add_mul_div_right _ _ (by omega), add_comm]
  congr 1
  split_ifs with hUp
  · exact Nat.div_eq_of_lt_le (by omega) (by omega)
  · exact div_eq_of_lt (by omega)

theorem next_units (hu : 0 < u) (hn : n = w * u + rest) (hRest : rest < u) :
    (n + u - 1) / u = w + if rest = 0 then 0 else 1 := by
  have hSplit : n + u - 1 = rest + u - 1 + w * u := by omega
  rw [hSplit, add_mul_div_right _ _ hu, add_comm]
  congr 1
  split_ifs with hZero
  · exact div_eq_of_lt (by omega)
  · exact Nat.div_eq_of_lt_le (by omega) (by omega)

/-- The words with one more unit in the last word that stays, or a whole word if none stays -/
def advance (buf : Nat → Nat) (kept inc : Nat) : Option (Nat × (Nat → Nat)) :=
  if 0 < kept then some (kept - 1, Function.update buf (kept - 1) (buf (kept - 1) + inc))
  else if inc = 1 then some (0, Function.update buf 0 (10 ^ 9))
  else none

private theorem advance_eq (inc : Bool) : advance buf kept inc.toNat =
      if inc then
        if 0 < kept then some (kept - 1, update buf (kept - 1) (buf (kept - 1) + 1))
        else some (0, update buf 0 (10 ^ 9))
      else if kept = 0 then none
      else some (kept - 1, buf) := by
  unfold advance
  rcases Nat.eq_zero_or_pos kept with rfl | hPos
  · cases inc <;> simp
  · have hNe : kept ≠ 0 := by omega
    cases inc <;> simp [hPos, hNe]

/-- Half a unit or more is left if the first digit after the words that stay is five or more. -/
private theorem half_le_iff (hDropped : 0 < dropped) (hWord : ∀ i < dropped, buf (kept + i) < 10 ^ 9) :
    (10 ^ 9) ^ dropped ≤ 2 * wordsValue buf kept dropped ↔ 5 ≤ buf kept / 10 ^ 8 := by
  obtain ⟨k, rfl⟩ : ∃ k, dropped = k + 1 := ⟨dropped - 1, by omega⟩
  have hTail := wordsValue_lt (words_lt_tail hWord)
  rw [wordsValue, pow_succ, le_div_iff_mul_le (by decide)]
  generalize wordsValue buf _ k = tail at *
  generalize (10 ^ 9) ^ k = unit at *
  constructor
  · intro hHalf
    by_contra hLess
    have hScaled := mul_le_mul_right unit (by omega : buf kept + 1 ≤ 5 * 10 ^ 8)
    linarith
  · intro hFive
    have hScaled := mul_le_mul_right unit hFive
    linarith

private theorem rest_zero_iff : wordsValue buf kept dropped = 0 ↔ ∀ i < dropped, buf (kept + i) = 0 := by
  refine ⟨fun hZero i hi => ?_, wordsValue_eq_zero⟩
  by_contra hNe
  exact wordsValue_ne_zero hi hNe hZero

/-- Rounded at the end of a word, the words are the units of the scale. -/
theorem roundAtWord_spec {mode : RoundMode} (sign : Bool) (hMode : mode ≠ .halfEven) (hDropped : 0 < dropped)
    (hWord : ∀ i < dropped, buf (kept + i) < 10 ^ 9) :
    ∃ inc ≤ 1, roundAtWord mode (roundDigit mode sign) buf kept dropped = advance buf kept inc ∧
      roundedUnits mode sign (wordsValue buf 0 (kept + dropped)) ((10 ^ 9) ^ dropped) =
        wordsValue buf 0 kept + inc := by
  have hSplit : wordsValue buf 0 (kept + dropped) =
      wordsValue buf 0 kept * (10 ^ 9) ^ dropped + wordsValue buf kept dropped := by
    rw [wordsValue_add, zero_add]
  have hRest := wordsValue_lt hWord
  have hUnit : 0 < (10 ^ 9) ^ dropped := by positivity
  have hDown : wordsValue buf 0 (kept + dropped) / (10 ^ 9) ^ dropped = wordsValue buf 0 kept :=
    wordsValue_div (by simpa using hWord)
  have hUp := next_units hUnit hSplit hRest
  have hStay : roundAtWord mode 10 buf kept dropped = advance buf kept 0 := (advance_eq false).symm
  have hNext : roundAtWord mode 0 buf kept dropped =
      advance buf kept (if wordsValue buf kept dropped = 0 then 0 else 1) := by
    have hInc : (if wordsValue buf kept dropped = 0 then 0 else 1) =
        (decide (∃ k < dropped, buf (kept + k) ≠ 0)).toNat := by
      by_cases hZero : wordsValue buf kept dropped = 0
      · have hAll := rest_zero_iff.mp hZero
        rw [if_pos hZero, decide_eq_false (by push Not; exact hAll), Bool.toNat_false]
      · have hSome : ∃ k < dropped, buf (kept + k) ≠ 0 := by
          by_contra hNone
          push Not at hNone
          exact hZero (rest_zero_iff.mpr hNone)
        rw [if_neg hZero, decide_eq_true hSome, Bool.toNat_true]
    rw [hInc]
    exact (advance_eq _).symm
  have hOne : (if wordsValue buf kept dropped = 0 then 0 else 1) ≤ 1 := by split_ifs <;> decide
  cases mode with
  | truncate => exact ⟨0, zero_le 1, hStay, hDown⟩
  | halfEven => exact absurd rfl hMode
  | halfUp =>
    refine ⟨if 5 ≤ buf kept / 10 ^ 8 then 1 else 0, by split_ifs <;> decide, ?_, ?_⟩
    · have hInc : (if 5 ≤ buf kept / 10 ^ 8 then 1 else 0) = (decide (5 < buf kept / 10 ^ 8 ∨
          buf kept / 10 ^ 8 = 5 ∧
            (RoundMode.halfUp = .halfUp ∨ 0 < kept ∧ buf (kept - 1) % 2 = 1))).toNat := by
        split_ifs with hFive
        · rw [decide_eq_true (by simp only [true_or, and_true]; omega), Bool.toNat_true]
        · rw [decide_eq_false (by simp only [true_or, and_true]; omega), Bool.toNat_false]
      rw [hInc]
      exact (advance_eq _).symm
    · rw [roundedUnits, half_units hUnit hSplit hRest]
      simp only [half_le_iff hDropped hWord]
  | ceiling =>
    cases sign with
    | true => exact ⟨0, zero_le 1, hStay, hDown⟩
    | false => exact ⟨_, hOne, hNext, hUp⟩
  | floor =>
    cases sign with
    | true => exact ⟨_, hOne, hNext, hUp⟩
    | false => exact ⟨0, zero_le 1, hStay, hDown⟩

end AtWord

section InWord

variable {buf : Nat → Nat} {pos dropped place : Nat}

theorem roundInWord_halfUp (word place : Nat) :
    roundInWord .halfUp 5 word place = 10 ^ (place + 1) * ((word / 10 ^ place + 5) / 10) := by
  unfold roundInWord
  dsimp only
  rw [pow_succ, mul_assoc]
  congr 1
  generalize word / 10 ^ place = x
  split_ifs with hUp
  all_goals
    simp only [true_and, true_or, and_true] at hUp
    omega

theorem roundInWord_truncate (word place : Nat) :
    roundInWord .truncate 10 word place = 10 ^ (place + 1) * (word / 10 ^ place / 10) := by
  unfold roundInWord
  dsimp only
  rw [pow_succ, mul_assoc]
  congr 1
  generalize word / 10 ^ place = x
  split_ifs <;> omega

/-- The digit of a place in all the words -/
private theorem wordsValue_place (hPlace : place < 9) (hWord : ∀ i < dropped, buf (pos + 1 + i) < 10 ^ 9) :
    wordsValue buf 0 (pos + 1 + dropped) / (10 ^ place * (10 ^ 9) ^ dropped) =
      wordsValue buf 0 pos * 10 ^ (8 - place) * 10 + buf pos / 10 ^ place := by
  have hUnit : 10 ^ 9 = 10 ^ (8 - place) * 10 * 10 ^ place := by
    rw [← pow_succ, ← pow_add]
    congr 1
    omega
  rw [mul_comm, ← Nat.div_div_eq_div_mul, wordsValue_div (by simpa using hWord), wordsValue_snoc,
    add_comm, hUnit, ← mul_assoc, add_mul_div_right _ _ (by positivity), add_comm, mul_assoc]

/-- Rounded within a word, the words are units of the scale. -/
theorem roundInWord_spec {mode : RoundMode} (sign : Bool) (hMode : mode = .halfUp ∨ mode = .truncate)
    (hPlace : place < 8) (hWord : ∀ i < dropped, buf (pos + 1 + i) < 10 ^ 9) :
    ∃ word, roundInWord mode (roundDigit mode sign) (buf pos) place = word ∧ 10 ^ (place + 1) ∣ word ∧
      wordsValue buf 0 pos * 10 ^ 9 + word =
        roundedUnits mode sign (wordsValue buf 0 (pos + 1 + dropped)) (10 ^ (place + 1) * (10 ^ 9) ^ dropped) *
          10 ^ (place + 1) ∧
      ∀ t, place < t → buf pos < 10 ^ t → word ≤ 10 ^ t := by
  have hDigit := wordsValue_place (by omega : place < 9) hWord
  have hUnit : 10 ^ 9 = 10 ^ (8 - place) * 10 ^ (place + 1) := by
    rw [← pow_add]
    congr 1
    omega
  have hTen : 10 ^ (place + 1) * (10 ^ 9) ^ dropped = 10 ^ place * (10 ^ 9) ^ dropped * 10 := by ring
  have hWhole (c : Nat) : wordsValue buf 0 pos * 10 ^ 9 + 10 ^ (place + 1) * c =
      (wordsValue buf 0 pos * 10 ^ (8 - place) + c) * 10 ^ (place + 1) := by
    rw [hUnit]
    ring
  have hBound (c : Nat) (hc : c ≤ (buf pos / 10 ^ place + 5) / 10) (t : Nat) (ht : place < t)
      (hLess : buf pos < 10 ^ t) : 10 ^ (place + 1) * c ≤ 10 ^ t := by
    have hPow : 10 ^ t = 10 ^ (place + 1) * 10 ^ (t - place - 1) := by
      rw [← pow_add]
      congr 1
      omega
    have hDigits : buf pos / 10 ^ place < 10 ^ (t - place - 1) * 10 := by
      refine Nat.div_lt_of_lt_mul (hLess.trans_eq ?_)
      rw [hPow]
      ring
    rw [hPow]
    exact mul_le_mul_left _ (by omega)
  have hPos : 0 < 10 ^ place * (10 ^ 9) ^ dropped := by positivity
  generalize wordsValue buf 0 _ = n at *
  generalize hy : 10 ^ place * (10 ^ 9) ^ dropped = y at *
  rcases hMode with rfl | rfl
  · have hUnits : (2 * n + y * 10) / (2 * (y * 10)) =
        wordsValue buf 0 pos * 10 ^ (8 - place) + (buf pos / 10 ^ place + 5) / 10 := by
      rw [show 2 * n + y * 10 = 2 * (n + 5 * y) by ring, Nat.mul_div_mul_left _ _ (by decide),
        ← Nat.div_div_eq_div_mul, add_mul_div_right _ _ hPos]
      omega
    refine ⟨_, roundInWord_halfUp .., dvd_mul_right .., ?_, hBound _ (le_refl _)⟩
    rw [hWhole, hTen, roundedUnits, hUnits]
  · have hUnits : n / (y * 10) = wordsValue buf 0 pos * 10 ^ (8 - place) + buf pos / 10 ^ place / 10 := by
      rw [← Nat.div_div_eq_div_mul]
      omega
    refine ⟨_, roundInWord_truncate .., dvd_mul_right .., ?_, hBound _ (by omega)⟩
    rw [hWhole, hTen, roundedUnits, hUnits]

end InWord

structure Roundable (d : Decimal) (scale frac0 : Int) : Prop where
  wellFormed : d.WellFormed
  scale_lt : scale < d.frac
  intg : 0 ≤ scale + d.intg
  le : scale ≤ 9 * frac0
  lt : 9 * frac0 < scale + 9
  words : max frac0 0 = roundUp scale.toNat
  first : 0 < roundUp d.intg + frac0 → d.buf 0 ≠ 10 ^ 9 - 1
  room : roundUp d.intg + frac0 ≤ 1 → roundUp d.intg + roundUp scale.toNat < d.len

section

variable {d : Decimal} {scale frac0 : Int} {pos r m : Nat}

private theorem wordsValue_succ_lt {buf : Nat → Nat} {n : Nat} (hFirst : buf 0 + 1 < 10 ^ 9)
    (hWord : ∀ i < n + 1, buf i < 10 ^ 9) : wordsValue buf 0 (n + 1) + 1 < (10 ^ 9) ^ (n + 1) := by
  have hTail : wordsValue buf 1 n < (10 ^ 9) ^ n :=
    wordsValue_lt fun i hi => hWord _ (by omega)
  have hPos : 0 < (10 ^ 9) ^ n := by positivity
  calc wordsValue buf 0 (n + 1) + 1 ≤ buf 0 * (10 ^ 9) ^ n + (10 ^ 9) ^ n := by
        exact Nat.add_le_add_left hTail _
    _ = (buf 0 + 1) * (10 ^ 9) ^ n := by ring
    _ < 10 ^ 9 * (10 ^ 9) ^ n := mul_lt_mul_of_pos_right hFirst hPos
    _ = (10 ^ 9) ^ (n + 1) := by ring

namespace Roundable

variable (h : Roundable d scale frac0)

include h

/-- The words that stay and those that do not -/
theorem words_le : 0 ≤ roundUp d.intg + frac0 ∧ frac0 ≤ roundUp d.frac := by
  obtain ⟨-, hScale, hIntg, hLe, hLt, -, -, -⟩ := h
  unfold roundUp
  omega

theorem word_lt {i : Nat} (hi : (i : Int) < roundUp d.intg + frac0) : d.buf i < 10 ^ 9 := by
  have hWords := h.words_le
  exact h.wellFormed.word i (by omega)

section
variable {word : Nat} {buf : Nat → Nat} (hPos : (roundUp d.intg : Int) + frac0 = pos + 1)
  (hr : 9 * frac0 = scale + r) (hLe : word ≤ 10 ^ 9) (hDvd : 10 ^ r ∣ word)
  (hValue : wordsValue d.buf 0 pos * 10 ^ 9 + word = m * 10 ^ r)
  (hLead : pos = 0 → d.intg % 9 ≠ 0 → word ≤ 10 ^ (d.intg % 9))
include hPos hr hLe hDvd hValue hLead

/-- The last word that stays has been rounded to `r` zero digits at its end. -/
theorem lastRounded (hFront : ∀ i < pos, buf i = d.buf i) (hLast : buf pos = word)
    (hBehind : ∀ i, pos < i → i < roundUp d.intg + roundUp scale.toNat → buf i = 0) :
    LastRounded { d with buf } pos scale m := by
  have hWords := h.words
  obtain ⟨z, hz⟩ : ∃ z, roundUp d.intg + roundUp scale.toNat = pos + 1 + z :=
    ⟨roundUp d.intg + roundUp scale.toNat - (pos + 1), by omega⟩
  have hBelow : below scale = r + 9 * z := by
    unfold below
    omega
  have hFirst : wordsValue buf 0 (pos + 1) = m * 10 ^ r := by
    rw [wordsValue_snoc, hLast, ← hValue, wordsValue_congr fun i hi => by rw [zero_add, hFront i hi]]
  have hAll : wordsValue buf 0 (roundUp d.intg + roundUp scale.toNat) = m * 10 ^ r * (10 ^ 9) ^ z := by
    rw [hz, wordsValue_add, hFirst, wordsValue_eq_zero fun i hi => hBehind _ (by omega) (by omega), add_zero]
  have hWord : ∀ i < pos, d.buf i < 10 ^ 9 := fun i hi => h.word_lt (by omega)
  have hEnd : pos < roundUp d.intg + roundUp scale.toNat := by omega
  refine ⟨hEnd, fun i hi => ?_, ?_, hBehind, fun hPart => ?_, fun hPart => ?_, ?_, fun hOut => ?_⟩
  · change buf i < 10 ^ 9
    rw [hFront i hi]
    exact hWord i hi
  · change buf pos ≤ 10 ^ 9
    rw [hLast]
    exact hLe
  · change buf 0 < _ ∨ pos = 0 ∧ buf 0 ≤ _
    rcases Nat.eq_zero_or_pos pos with rfl | hSome
    · rw [hLast]
      exact .inr ⟨rfl, hLead rfl hPart⟩
    · rw [hFront 0 hSome]
      exact .inl (h.wellFormed.lead hPart)
  · change _ ∣ buf pos
    rw [hLast]
    have hDigits : 9 - scale.toNat % 9 = r := by
      unfold roundUp at hWords
      omega
    rwa [hDigits]
  · change wordsValue buf 0 _ = _
    rw [hAll, hBelow, pow_add, pow_mul, mul_assoc]
  · change (10 ^ 9) ^ (roundUp d.intg + roundUp scale.toNat) ≤
      wordsValue buf 0 _ at hOut
    rw [hAll, ← hValue, hz, pow_add _ (pos + 1)] at hOut
    have hFull : (10 ^ 9) ^ (pos + 1) ≤ wordsValue d.buf 0 pos * 10 ^ 9 + word :=
      le_of_mul_le_mul_right hOut (by positivity)
    have hNotMax := h.first (by omega)
    have hZeroth := h.word_lt (i := 0) (by omega)
    rcases Nat.eq_zero_or_pos pos with rfl | hSome
    · refine ⟨by_contra fun hPart => ?_, h.room (by omega)⟩
      have hSmall := hLead rfl hPart
      have hPow : 10 ^ (d.intg % 9) < 10 ^ 9 := Nat.pow_lt_pow_right (by decide) (mod_lt _ (by decide))
      rw [wordsValue, zero_mul, zero_add, zero_add, pow_one] at hFull
      omega
    · exfalso
      obtain ⟨n, rfl⟩ := Nat.exists_eq_add_of_lt hSome
      have hLess := wordsValue_succ_lt (by omega) hWord
      generalize wordsValue d.buf 0 (n + 1) = w at *
      generalize (10 ^ 9) ^ (n + 1) = unit at *
      omega

/-- What `decimal_round` does once the last word that stays has been rounded -/
theorem settleRound_after (hBuf : buf = update d.buf pos word) : ∃ result, settleRound
        { d with buf := if frac0 < 0 then zeroWords (pos + 1) (roundUp d.intg - (pos + 1)) buf else buf } pos
        (roundUp d.intg) frac0 scale .ok = (result, .ok) ∧ Rounded result d.sign scale m := by
  have hWords := h.words
  have hSame : ∀ i ≤ pos, (if frac0 < 0 then zeroWords (pos + 1) (roundUp d.intg - (pos + 1)) buf else buf) i =
      buf i := by
    intro i hi
    split_ifs
    · rw [zeroWords_apply, if_neg (by omega)]
    · rfl
  have hBehind : ∀ i, pos < i → i < roundUp d.intg + roundUp scale.toNat →
      (if frac0 < 0 then zeroWords (pos + 1) (roundUp d.intg - (pos + 1)) buf else buf) i = 0 := by
    intro i hi hEnd
    rw [if_pos (by omega), zeroWords_apply, if_pos (by omega)]
  have hLast := h.lastRounded hPos hr hLe hDvd hValue hLead
    (fun i hi => by rw [hSame i hi.le, hBuf, update_of_ne hi.ne]) (by rw [hSame pos (le_refl _), hBuf, update_self])
    hBehind
  exact hLast.settleRound_rounded hWords

end

/-- No word stays, but half a unit or more is left. -/
theorem settleRound_whole (hNone : (roundUp d.intg : Int) + frac0 = 0) {buf : Nat → Nat}
    (hBuf : buf = update d.buf 0 (10 ^ 9)) :
    ∃ result, settleRound
        { d with buf := if frac0 < 0 then zeroWords 1 (roundUp d.intg - 1) buf else buf } 0
        (roundUp d.intg) frac0 scale .ok = (result, .ok) ∧ Rounded result d.sign scale 1 := by
  obtain ⟨-, -, hIntg, hLe, hLt, hWords, -, hRoom⟩ := h
  have hFull : d.intg = 9 * roundUp d.intg := by
    unfold roundUp at *
    omega
  have hScale : scale = -(9 * roundUp d.intg : Nat) := by omega
  have hFrac : roundUp scale.toNat = 0 := by omega
  have hLen := hRoom (by omega)
  rcases Nat.eq_zero_or_pos (roundUp d.intg) with hZero | hSome
  · obtain rfl : frac0 = 0 := by omega
    obtain rfl : scale = 0 := by omega
    have hNoDigits : d.intg = 0 := by omega
    have hWord : d.len ≠ 0 := by omega
    refine ⟨finishRound { d with buf := update d.buf 0 1, intg := 1 } 0 0, ?_, ?_⟩
    · have hNoWords : roundUp 0 = 0 := rfl
      simp [settleRound, carryUp, copyUp, hBuf, hWord, hNoDigits, hNoWords]
    · have hOne : roundUp 1 + roundUp (0 : Int).toNat = 1 := rfl
      refine finishRound_rounded ?_ (by simp) (by simp) ?_ one_ne_zero
      · change ∀ i < roundUp 1 + roundUp (0 : Int).toNat, _
        intro i hi
        obtain rfl := lt_one_iff.mp hi
        simp
      · change wordsValue _ 0 (roundUp 1 + roundUp (0 : Int).toNat) = _
        simp [wordsValue, below, roundUp]
  · have hBelow : below scale = 9 * roundUp d.intg := by
      unfold below
      omega
    have hBehind : ∀ i, 0 < i → i < roundUp d.intg + roundUp scale.toNat →
        (if frac0 < 0 then zeroWords 1 (roundUp d.intg - 1) buf else buf) i = 0 := by
      intro i hi hEnd
      rw [if_pos (by omega), zeroWords_apply, if_pos (by omega)]
    have hFirst : (if frac0 < 0 then zeroWords 1 (roundUp d.intg - 1) buf else buf) 0 = 10 ^ 9 := by
      rw [if_pos (by omega), zeroWords_apply, if_neg (by omega), hBuf, update_self]
    generalize (if frac0 < 0 then zeroWords 1 _ buf else buf) = buf' at *
    have hLast : LastRounded { d with buf := buf' } 0 scale 1 := by
      refine ⟨?_, fun i hi => absurd hi (not_lt_zero i), hFirst.le, hBehind, fun hPart => absurd hPart ?_,
        fun hPart => absurd hPart ?_, ?_, fun _ => ⟨?_, hLen⟩⟩
      · change 0 < roundUp d.intg + roundUp scale.toNat
        omega
      · change ¬d.intg % 9 ≠ 0
        omega
      · omega
      · change wordsValue buf' 0 (roundUp d.intg + roundUp scale.toNat) = _
        obtain ⟨n, hn⟩ : ∃ n, roundUp d.intg + roundUp scale.toNat = n + 1 := ⟨roundUp d.intg - 1, by omega⟩
        rw [hn, wordsValue, hFirst, wordsValue_eq_zero fun i hi => hBehind _ (by omega) (by omega), hBelow,
          show roundUp d.intg = n + 1 by omega, pow_mul]
        ring
      · change d.intg % 9 = 0
        omega
    exact hLast.settleRound_rounded hWords

theorem makeZero_rounded (hNone : (roundUp d.intg : Int) + frac0 = 0) : Rounded (makeZero d) d.sign scale 0 := by
  have hLt := h.lt
  have hLe := h.le
  refine ⟨makeZero_wellFormed d, ?_, ?_, by simp [makeZero]⟩
  · change 0 = scale.toNat
    omega
  · rw [zero_mul]
    simp [makeZero, Decimal.mantissa, roundUp, wordsValue]

theorem roundWords_rounded {mode : RoundMode}
    (hMode : mode = .halfUp ∨ mode = .truncate ∨ (mode = .ceiling ∨ mode = .floor) ∧ scale = 0) :
    ∃ result, roundWords d mode (roundDigit mode d.sign) (roundUp d.intg) (roundUp d.frac) frac0 scale .ok =
        (result, .ok) ∧
      Rounded result d.sign scale
        (roundedUnits mode d.sign d.mantissa (10 ^ (9 * (roundUp d.frac : Int) - scale).toNat)) := by
  have hLt := h.lt
  have hLe := h.le
  have hScale := h.scale_lt
  obtain ⟨hNonneg, hFew⟩ := h.words_le
  obtain ⟨kept, hKept⟩ : ∃ kept : Nat, (kept : Int) = roundUp d.intg + frac0 :=
    ⟨((roundUp d.intg) + frac0).toNat, by omega⟩
  obtain ⟨dropped, hDropped⟩ : ∃ dropped : Nat, (dropped : Int) = roundUp d.frac - frac0 :=
    ⟨((roundUp d.frac) - frac0).toNat, by omega⟩
  obtain ⟨r, hr⟩ : ∃ r : Nat, 9 * frac0 = scale + r := ⟨(9 * frac0 - scale).toNat, by omega⟩
  have hAll : d.mantissa = wordsValue d.buf 0 (kept + dropped) := by
    rw [Decimal.mantissa, show roundUp d.intg + roundUp d.frac = kept + dropped by omega]
  have hUnit : 10 ^ (9 * (roundUp d.frac : Int) - scale).toNat = 10 ^ r * (10 ^ 9) ^ dropped := by
    rw [← pow_mul, ← pow_add]
    congr 1
    omega
  have hWord : ∀ i < dropped, d.buf (kept + i) < 10 ^ 9 := fun i hi => h.wellFormed.word _ (by omega)
  have hCount : ((roundUp d.intg : Int) + frac0).toNat = kept := by omega
  have hCount' : ((roundUp d.frac : Int) - frac0).toNat = dropped := by omega
  rw [hAll, hUnit, roundWords]
  rw [hCount, hCount']
  by_cases hFull : scale = frac0 * 9
  · obtain rfl : r = 0 := by omega
    have hSome : 0 < dropped := by
      unfold roundUp at hDropped
      omega
    obtain ⟨inc, hInc, hStep, hUnits⟩ := roundAtWord_spec d.sign
      (by rintro rfl; simp at hMode : mode ≠ .halfEven) hSome hWord
    rw [if_pos hFull, hStep, pow_zero, one_mul, hUnits]
    cases kept with
    | zero =>
      rcases le_one_iff_eq_zero_or_eq_one.mp hInc with rfl | rfl
      · exact ⟨_, rfl, h.makeZero_rounded (by omega)⟩
      · exact h.settleRound_whole (by omega) rfl
    | succ pos =>
      have hLast := h.word_lt (i := pos) (by omega)
      refine h.settleRound_after (by omega) hr (by omega : d.buf pos + inc ≤ 10 ^ 9) (by simp) ?_
        (fun hZero hPart => ?_) rfl
      · rw [wordsValue_snoc, pow_zero, mul_one, add_assoc, Nat.add_sub_cancel]
      · have hLead := h.wellFormed.lead hPart
        subst hZero
        omega
  · have hMode' : mode = .halfUp ∨ mode = .truncate := by
      rcases hMode with hHalf | hTruncate | ⟨-, rfl⟩
      · exact .inl hHalf
      · exact .inr hTruncate
      · omega
    have hIntg := h.intg
    obtain ⟨pos, rfl⟩ : ∃ pos, kept = pos + 1 := by
      refine ⟨kept - 1, ?_⟩
      unfold roundUp at *
      omega
    obtain ⟨place, rfl⟩ : ∃ place, r = place + 1 := ⟨r - 1, by omega⟩
    obtain ⟨word, hStep, hDvd, hValue, hBound⟩ := roundInWord_spec d.sign hMode' (by omega : place < 8) hWord
    have hPlace : (frac0 * 9 - scale - 1).toNat = place := by omega
    have hLast := h.word_lt (i := pos) (by omega)
    rw [if_neg hFull, hPlace, Nat.add_sub_cancel, hStep]
    refine h.settleRound_after (by omega) hr (hBound 9 (by omega) hLast) hDvd hValue (fun hZero hPart => ?_) rfl
    subst hZero
    refine hBound _ ?_ (h.wellFormed.lead hPart)
    unfold roundUp at *
    omega

end Roundable

end

end MySQL.Decimals
