import MySQL.Strings.Decimal.RoundModes

/-! How far `decimal_round` writes. Its loops go by the digits and the scale and take no notice of the
number of words that the target has. -/
namespace MySQL.Decimals
open Function

/-- No word from this one on is written. The copy and the zeroes behind it end `max(frac1, frac0)` words
behind the point, and a carry out of the first word needs one more word than the number had. -/
def roundEnd (source : Decimal) (target : Option Decimal) (scale : Int) : Int :=
  let frac0 := min (fracWords scale) ((target.getD source).len - roundUp source.intg)
  max (movedIntg source scale + max (roundUp source.frac : Int) frac0) (roundUp source.intg + roundUp source.frac + 1)

/-- `decimal_round` on a target of `len` words -/
def decimalRoundWithin (source : Decimal) (target : Option Decimal) (scale : Int) (mode : RoundMode) :
    Except Fault (Decimal × DecError) :=
  if (target.getD source).len < roundEnd source target scale then .error .outside
  else .ok (decimalRound source target scale mode)

section

variable {i pos : Nat}

theorem copyUp_behind (source : Option (Nat → Nat)) {shift n : Nat} (buf : Nat → Nat) (hi : n + shift ≤ i) :
    copyUp source shift n buf i = buf i := by
  induction n generalizing buf with
  | zero => rfl
  | succ n ih => rw [copyUp, ih _ (by omega), update_of_ne (by omega)]

theorem carryUp_behind (buf : Nat → Nat) (hi : pos ≤ i) : (carryUp pos buf).2.1 i = buf i := by
  induction pos generalizing buf with
  | zero => rfl
  | succ pos ih =>
    rw [carryUp]
    split_ifs
    · rw [ih _ (by omega), update_of_ne (by omega)]
    · exact update_of_ne (by omega) ..

/-- A carry ends at the latest at a first word that is small. -/
theorem carryUp_stops (buf : Nat → Nat) (hPos : 0 < pos) (hFirst : buf 0 = 0) : (carryUp pos buf).2.2 = false := by
  induction pos generalizing buf with
  | zero => exact absurd hPos (lt_irrefl 0)
  | succ pos ih =>
    rw [carryUp]
    split_ifs with hMore
    · rcases Nat.eq_zero_or_pos pos with rfl | hPos'
      · omega
      · exact ih _ hPos' (by rwa [update_of_ne (by omega)])
    · rfl

theorem settleRound_behind (d : Decimal) (intg0 : Nat) (frac0 scale : Int) (error : DecError) (hPos : pos < i)
    (hCarry : 0 < pos ∧ d.buf 0 = 0 ∨ intg0 + max frac0 0 < i) (hZero : frac0 < i) :
    (settleRound d pos intg0 frac0 scale error).1.buf i = d.buf i := by
  unfold settleRound
  split_ifs with hFull
  · obtain ⟨last, buf, carry, hUp⟩ : ∃ last buf carry, carryUp pos (update d.buf pos (d.buf pos - 10 ^ 9)) =
        (last, buf, carry) := ⟨_, _, _, rfl⟩
    have hBehind : buf i = d.buf i := by
      have hSame := carryUp_behind (update d.buf pos (d.buf pos - 10 ^ 9)) hPos.le
      rwa [hUp, update_of_ne (by omega)] at hSame
    rw [hUp]
    cases carry with
    | false => exact hBehind
    | true =>
      have hRoom : intg0 + max frac0 0 < i := by
        refine hCarry.resolve_left ?_
        rintro ⟨hSome, hFirst⟩
        have hStops := carryUp_stops (update d.buf pos (d.buf pos - 10 ^ 9)) hSome (by rwa [update_of_ne (by omega)])
        rw [hUp] at hStops
        cases hStops
      show update (copyUp none 1 _ buf) 0 1 i = _
      rw [update_of_ne (by omega), copyUp_behind _ _ (by split_ifs <;> omega), hBehind]
  · cases lastNonzero d.buf pos with
    | some pos => rfl
    | none =>
      show zeroWords 0 _ d.buf i = _
      rw [zeroWords_apply, if_neg (by omega)]

private theorem roundAtWord_behind {mode : RoundMode} {digit kept dropped : Nat} {buf buf' : Nat → Nat}
    (h : roundAtWord mode digit buf kept dropped = some (pos, buf')) :
    pos = kept - 1 ∧ ∀ i, i ≠ pos → buf' i = buf i := by
  unfold roundAtWord at h
  dsimp only at h
  split_ifs at h with hInc hSome hNone
  · obtain ⟨rfl, rfl⟩ := Prod.mk.inj (Option.some.inj h)
    exact ⟨rfl, fun i hi => update_of_ne hi ..⟩
  · obtain ⟨rfl, rfl⟩ := Prod.mk.inj (Option.some.inj h)
    exact ⟨by omega, fun i hi => update_of_ne hi ..⟩
  · obtain ⟨rfl, rfl⟩ := Prod.mk.inj (Option.some.inj h)
    exact ⟨rfl, fun i hi => rfl⟩

theorem roundWords_behind (d : Decimal) (mode : RoundMode) (digit : Nat) {intg0 frac1 : Nat} {frac0 : Int}
    (scale : Int) (error : DecError) (hFew : frac0 ≤ frac1) (hSome : 0 < i) (hi : intg0 + frac1 ≤ i)
    (hCarry : 0 < intg0 ∧ 1 < intg0 + frac0 ∧ d.buf 0 = 0 ∨ intg0 + frac1 < i) :
    (roundWords d mode digit intg0 frac1 frac0 scale error).1.buf i = d.buf i := by
  unfold roundWords
  obtain ⟨rounded, hRounded⟩ : ∃ rounded, rounded =
      if scale = frac0 * 9 then roundAtWord mode digit d.buf (intg0 + frac0).toNat (frac1 - frac0).toNat
      else some ((intg0 + frac0).toNat - 1, update d.buf ((intg0 + frac0).toNat - 1)
        (roundInWord mode digit (d.buf ((intg0 + frac0).toNat - 1)) (frac0 * 9 - scale - 1).toNat)) := ⟨_, rfl⟩
  dsimp only
  rw [← hRounded]
  cases rounded with
  | none => exact update_of_ne (by omega) ..
  | some result =>
    obtain ⟨pos, buf⟩ := result
    obtain ⟨hPos, hSame⟩ : pos = (intg0 + frac0).toNat - 1 ∧ ∀ i, i ≠ pos → buf i = d.buf i := by
      split_ifs at hRounded
      · exact roundAtWord_behind hRounded.symm
      · obtain ⟨rfl, rfl⟩ := Prod.mk.inj (Option.some.inj hRounded)
        exact ⟨rfl, fun i hi => update_of_ne hi ..⟩
    have hZeroed : ∀ j, (j = 0 ∧ 0 < pos ∨ j = i) →
        (if frac0 < 0 then zeroWords (pos + 1) (intg0 - (pos + 1)) buf else buf) j = d.buf j := by
      intro j hj
      split_ifs
      · rw [zeroWords_apply, if_neg (by omega)]
        exact hSame j (by omega)
      · exact hSame j (by omega)
    have hSettled := @settleRound_behind i pos
      { d with buf := if frac0 < 0 then zeroWords (pos + 1) (intg0 - (pos + 1)) buf else buf } intg0 frac0 scale
      error (by omega) ?_ (by omega)
    · exact hSettled.trans (hZeroed i (.inr rfl))
    · refine hCarry.imp ?_ (by omega)
      rintro ⟨-, hMany, hFirst⟩
      have hPos' : 0 < pos := by omega
      exact ⟨hPos', (hZeroed 0 (.inl ⟨rfl, hPos'⟩)).trans hFirst⟩

variable {source : Decimal} {target : Option Decimal} {scale : Int}

theorem moveWords_behind {frac0 : Int} (hSome : 0 < i)
    (hi : movedIntg source scale + max (roundUp source.frac : Int) frac0 ≤ i) :
    (moveWords source target scale frac0).buf i = (target.getD source).buf i := by
  have hLe : roundUp source.intg ≤ movedIntg source scale := Nat.le_add_right ..
  unfold moveWords
  dsimp only
  split_ifs
  · exact (copyUp_behind _ _ (by omega)).trans (update_of_ne (by omega) ..)
  · rfl

theorem roundMoved_behind (h : source.WellFormed) (mode : RoundMode) {frac0 : Int} (scale' : Int) (error : DecError)
    (hFits : movedIntg source scale ≤ (target.getD source).len)
    (hKept : NeedsRoom source scale → 0 < roundUp source.intg + frac0)
    (hi : movedIntg source scale + max (roundUp source.frac : Int) frac0 ≤ i)
    (hMore : roundUp source.intg + roundUp source.frac < i) :
    (roundMoved source target mode scale frac0 scale' error).1.buf i = (target.getD source).buf i := by
  have hMoved : (moveWords source target scale frac0).buf i = (target.getD source).buf i :=
    moveWords_behind (by omega) hi
  unfold roundMoved
  dsimp only
  split_ifs
  · exact ((zeroWords_apply ..).trans (if_neg (by omega))).trans hMoved
  · exact hMoved
  · refine (roundWords_behind _ _ _ _ _ (by omega) (by omega) (by omega) ?_).trans hMoved
    by_cases hNeeds : NeedsRoom source scale
    · have hFront := (moveWords_moved h frac0 hFits).front 0 (by rw [if_pos hNeeds]; exact one_pos)
      have hOne : movedIntg source scale = roundUp source.intg + 1 := by rw [movedIntg, if_pos hNeeds]
      have := hKept hNeeds
      exact .inl ⟨by omega, by omega, hFront⟩
    · rw [movedIntg, if_neg hNeeds]
      exact .inr hMore

/-- What is said of `roundEnd` is so. -/
theorem decimalRound_behind (h : source.WellFormed) (mode : RoundMode)
    (hLen : roundUp source.intg + roundUp source.frac < (target.getD source).len)
    (hi : roundEnd source target scale ≤ i) :
    (decimalRound source target scale mode).1.buf i = (target.getD source).buf i := by
  obtain ⟨hLe, hLt, hWords⟩ := fracWords_spec scale
  have hFits : movedIntg source scale ≤ (target.getD source).len := by
    unfold movedIntg
    split_ifs <;> omega
  unfold roundEnd at hi
  dsimp only at hi
  rcases Int.lt_or_le (scale + source.intg) 0 with hSmall | hSome
  · rw [decimalRound_small (by omega) hSmall]
    exact update_of_ne (by omega) ..
  rcases Int.lt_or_le (target.getD source).len (fracWords scale + roundUp source.intg) with hShort | hEnough
  · rw [decimalRound_short hShort (by omega)]
    exact roundMoved_behind h mode _ _ hFits (fun _ => by omega) (by omega) (by omega)
  · rw [decimalRound_eq hEnough hSome]
    exact roundMoved_behind h mode _ _ hFits (fun hNeeds => hNeeds.2.2) (by omega) (by omega)

/-- With a word to spare for a carry, only a number that has to be moved is written outside of the target,
and only if the scale asks for all words. -/
theorem roundEnd_le_iff (hLen : roundUp source.intg + roundUp source.frac < (target.getD source).len) :
    roundEnd source target scale ≤ (target.getD source).len ↔
      ¬(NeedsRoom source scale ∧ (target.getD source).len ≤ roundUp source.intg + fracWords scale) := by
  unfold roundEnd movedIntg
  split_ifs with hNeeds
  · simp only [hNeeds, true_and]
    omega
  · simp only [hNeeds, false_and, not_false_eq_true, iff_true]
    omega

end

end MySQL.Decimals
