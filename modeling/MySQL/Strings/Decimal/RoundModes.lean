import MySQL.Strings.Decimal.BinaryDecode
import MySQL.Strings.Decimal.RoundWords

/-! The whole of `decimal_round`: the words are moved to the target, perhaps by one place, and rounded
there. -/
namespace MySQL.Decimals
open Function Option Nat

/-- Before it rounds, `decimal_round` moves the words of such a decimal by one place to make room for a
carry. In place, it overwrites the first word before it copies it. -/
def NeedsRoom (d : Decimal) (scale : Int) : Prop :=
  d.intg % 9 = 0 ∧ d.buf 0 = 10 ^ 9 - 1 ∧ 0 < (roundUp d.intg : Int) + fracWords scale

instance (d : Decimal) (scale : Int) : Decidable (NeedsRoom d scale) :=
  inferInstanceAs (Decidable (_ ∧ _ ∧ _))

def movedIntg (source : Decimal) (scale : Int) : Nat := roundUp source.intg + if NeedsRoom source scale then 1 else 0

def moveWords (source : Decimal) (target : Option Decimal) (scale frac0 : Int) : Decimal :=
  let result := target.getD source
  if target.isSome ∨ NeedsRoom source scale then
    { result with
      buf := copyUp (target.map fun _ => source.buf) (movedIntg source scale - roundUp source.intg)
        (roundUp source.intg + max (roundUp source.frac : Int) frac0).toNat (Function.update result.buf 0 0)
      sign := source.sign
      intg := min (movedIntg source scale) result.len * 9 }
  else result

section

variable {source : Decimal} {target : Option Decimal} {scale : Int} {mode : RoundMode}

private theorem roundUp_first (source : Decimal) (scale : Int) : roundUp (source.intg +
        if 0 < (roundUp source.intg : Int) + fracWords scale ∧ source.buf 0 = 10 ^ 9 - 1 then 1 else 0) =
      movedIntg source scale := by
  unfold movedIntg
  by_cases hMax : 0 < (roundUp source.intg : Int) + fracWords scale ∧ source.buf 0 = 10 ^ 9 - 1
  · rw [if_pos hMax]
    by_cases hMod : source.intg % 9 = 0
    · rw [if_pos ⟨hMod, hMax.2, hMax.1⟩]
      unfold roundUp
      omega
    · rw [if_neg fun hNeeds => hMod hNeeds.1]
      unfold roundUp
      omega
  · rw [if_neg hMax, if_neg fun hNeeds => hMax ⟨hNeeds.2.2, hNeeds.2.1⟩, add_zero, add_zero]

def roundMoved (source : Decimal) (target : Option Decimal) (mode : RoundMode) (scale frac0 scale' : Int)
    (error : DecError) : Decimal × DecError :=
  let result := moveWords source target scale frac0
  if roundUp source.frac < frac0 then
    ({ result with
        buf := zeroWords (movedIntg source scale + roundUp source.frac) (frac0 - roundUp source.frac).toNat result.buf
        frac := scale'.toNat }, error)
  else if source.frac ≤ scale' then ({ result with frac := scale'.toNat }, error)
  else
    roundWords result mode (roundDigit mode source.sign) (movedIntg source scale) (roundUp source.frac) frac0 scale'
      error

private theorem fracWords_eq (scale : Int) :
    (if 0 < scale then (roundUp scale.toNat : Int) else scale.tdiv 9) = fracWords scale := by
  rw [fracWords]

theorem roundUp_lt_movedIntg :
    roundUp source.intg < movedIntg source scale ↔ NeedsRoom source scale := by
  unfold movedIntg
  split_ifs with hNeeds <;> simp [hNeeds]

private theorem movedIntg_of_moved :
    (if target.isSome ∨ NeedsRoom source scale then movedIntg source scale else roundUp source.intg) =
      movedIntg source scale := by
  split_ifs with hEither
  · rfl
  · rw [movedIntg, if_neg fun hNeeds => hEither (.inr hNeeds), add_zero]

theorem decimalRound_eq (hFits : fracWords scale + roundUp source.intg ≤ (target.getD source).len)
    (hSome : 0 ≤ scale + source.intg) :
    decimalRound source target scale mode = roundMoved source target mode scale (fracWords scale) scale .ok := by
  have hShort : ¬((target.getD source).len < fracWords scale + (roundUp source.intg : Int)) := by omega
  have hNot : ¬scale + (source.intg : Int) < 0 := by omega
  simp only [decimalRound, roundMoved, moveWords, fracWords_eq, roundUp_first, hShort, decide_false, Bool.false_eq_true,
    if_false, hNot, roundUp_lt_movedIntg, decide_eq_true_eq, movedIntg_of_moved]

/-- All digits are less than a tenth of the scale. -/
theorem decimalRound_small (hFits : roundUp source.intg ≤ (target.getD source).len) (hSmall : scale + source.intg < 0) :
    decimalRound source target scale mode = (makeZero (target.getD source), .ok) := by
  have hShort : ¬((target.getD source).len < fracWords scale + (roundUp source.intg : Int)) := by
    obtain ⟨hLe, hLt, -⟩ := fracWords_spec scale
    omega
  simp only [decimalRound, fracWords_eq, hShort, decide_false, Bool.false_eq_true, if_false, hSmall, if_true]

/-- The target has no words for the scale. -/
theorem decimalRound_short (hShort : (target.getD source).len < fracWords scale + roundUp source.intg)
    (hFits : roundUp source.intg ≤ (target.getD source).len) :
    decimalRound source target scale mode =
      roundMoved source target mode scale ((target.getD source).len - roundUp source.intg)
        (((target.getD source).len - roundUp source.intg) * 9) .truncated := by
  have hNot : ¬((((target.getD source).len : Int) - roundUp source.intg) * 9 + source.intg < 0) := by omega
  simp only [decimalRound, roundMoved, moveWords, fracWords_eq, roundUp_first, hShort, decide_true, if_true, hNot,
    if_false, roundUp_lt_movedIntg, decide_eq_true_eq, movedIntg_of_moved]

end

def withoutFirst (d : Decimal) : Decimal :=
  { d with buf := Function.update d.buf 0 0 }

/-- What reaches the target: in place, the first word is lost when the words are moved. -/
def arriving (source : Decimal) (target : Option Decimal) (scale : Int) : Decimal :=
  if target.isNone ∧ NeedsRoom source scale then withoutFirst source else source

section
variable (source : Decimal) (target : Option Decimal) (scale : Int)
include source target scale

@[simp] theorem arriving_intg : (arriving source target scale).intg = source.intg := by
  unfold arriving
  split_ifs <;> rfl

@[simp] theorem arriving_frac : (arriving source target scale).frac = source.frac := by
  unfold arriving
  split_ifs <;> rfl

@[simp] theorem arriving_sign : (arriving source target scale).sign = source.sign := by
  unfold arriving
  split_ifs <;> rfl

end

structure Moved (source d : Decimal) (shift : Nat) : Prop where
  sign : d.sign = source.sign
  intg : roundUp d.intg = roundUp source.intg + shift
  intg_le : source.intg ≤ d.intg
  lead : d.intg % 9 ≠ 0 → d.buf 0 < 10 ^ (d.intg % 9)
  front : ∀ i < shift, d.buf i = 0
  word : ∀ i < roundUp source.intg + roundUp source.frac, d.buf (shift + i) = source.buf i

theorem copyUp_some (source buf : Nat → Nat) (shift n i : Nat) :
    copyUp (some source) shift n buf i = if shift ≤ i ∧ i < shift + n then source (i - shift) else buf i := by
  induction n generalizing buf with
  | zero => rw [copyUp, if_neg (by omega)]
  | succ n ih =>
    rw [copyUp, ih, getD_some]
    by_cases hi : i = n + shift
    · subst hi
      rw [if_neg (by omega), if_pos (by omega), update_self, Nat.add_sub_cancel]
    · rw [update_of_ne hi]
      by_cases hIn : shift ≤ i ∧ i < shift + n
      · rw [if_pos hIn, if_pos (by omega)]
      · rw [if_neg hIn, if_neg (by omega)]

section

variable {source : Decimal} {target : Option Decimal} {scale : Int} {mode : RoundMode}

theorem moveWords_moved (h : source.WellFormed) (frac0 : Int)
    (hFits : movedIntg source scale ≤ (target.getD source).len) :
    Moved (arriving source target scale) (moveWords source target scale frac0)
      (if NeedsRoom source scale then 1 else 0) := by
  have hCount : roundUp source.intg + roundUp source.frac ≤
      (roundUp source.intg + max (roundUp source.frac : Int) frac0).toNat := by omega
  have hShift : movedIntg source scale - roundUp source.intg = if NeedsRoom source scale then 1 else 0 :=
    Nat.add_sub_cancel_left ..
  have hIntg : roundUp (movedIntg source scale * 9) = roundUp source.intg + if NeedsRoom source scale then 1 else 0 :=
    roundUp_mul_nine _
  have hLe : source.intg ≤ movedIntg source scale * 9 := by
    unfold movedIntg roundUp
    omega
  cases target with
  | some t =>
    have hEither : (some t).isSome ∨ NeedsRoom source scale := .inl rfl
    rw [getD_some] at hFits
    rw [moveWords, getD_some, min_eq_left hFits, hShift, arriving, if_neg (by simp)]
    refine ⟨rfl, hIntg, hLe, fun hPart => absurd hPart (by simp), fun i hi => ?_, fun i hi => ?_⟩
    · obtain rfl : i = 0 := by split_ifs at hi <;> omega
      change copyUp (some source.buf) _ _ _ 0 = 0
      rw [copyUp_some, if_neg (by omega), update_self]
    · change copyUp (some source.buf) _ _ _ _ = _
      rw [copyUp_some, if_pos (by omega), Nat.add_sub_cancel_left]
  | none =>
    by_cases hNeeds : NeedsRoom source scale
    · rw [moveWords, if_pos (.inr hNeeds), arriving, if_pos ⟨rfl, hNeeds⟩, hShift]
      rw [min_eq_left hFits, if_pos hNeeds]
      rw [if_pos hNeeds] at hIntg
      refine ⟨rfl, hIntg, hLe, fun hPart => absurd hPart (by simp), fun i hi => ?_, fun i hi => ?_⟩
      · obtain rfl : i = 0 := by omega
        change copyUp none 1 _ _ 0 = 0
        rw [copyUp_one, if_neg (by omega), update_self]
      · change copyUp none 1 _ _ (1 + i) = _
        change i < roundUp source.intg + roundUp source.frac at hi
        rw [copyUp_one, if_pos (by omega), Nat.add_sub_cancel_left]
        rfl
    · rw [moveWords, if_neg (by simp [hNeeds]), arriving, if_neg (by simp [hNeeds]), if_neg hNeeds]
      exact ⟨rfl, rfl, le_refl _, h.lead, fun i hi => absurd hi (not_lt_zero i),
        fun i _ => by rw [zero_add]; rfl⟩

end

theorem withoutFirst_wellFormed {d : Decimal} (h : d.WellFormed) : (withoutFirst d).WellFormed := by
  have hLe (i : Nat) : (withoutFirst d).buf i = 0 ∨ (withoutFirst d).buf i = d.buf i := by
    by_cases hi : i = 0
    · exact .inl (by simp [hi, withoutFirst])
    · exact .inr (by simp [hi, withoutFirst])
  refine ⟨fun i hi => ?_, fun hPart => ?_, fun hPart => ?_⟩
  · rcases hLe i with hZero | hSame
    · rw [hZero]
      decide
    · rw [hSame]
      exact h.word i hi
  · rcases hLe 0 with hZero | hSame
    · rw [hZero]
      positivity
    · rw [hSame]
      exact h.lead hPart
  · rcases hLe _ with hZero | hSame
    · exact hZero ▸ dvd_zero _
    · exact hSame ▸ h.trail hPart

theorem arriving_wellFormed {source : Decimal} (h : source.WellFormed) (target : Option Decimal) (scale : Int) :
    (arriving source target scale).WellFormed := by
  unfold arriving
  split_ifs
  · exact withoutFirst_wellFormed h
  · exact h

namespace Moved

variable {source d : Decimal} {shift : Nat} (h : Moved source d shift)

include h

theorem mantissa_eq : wordsValue d.buf 0 (roundUp d.intg + roundUp source.frac) = source.mantissa := by
  have hWords : roundUp d.intg + roundUp source.frac = shift + (roundUp source.intg + roundUp source.frac) := by
    rw [h.intg]
    omega
  rw [hWords, wordsValue_add, wordsValue_eq_zero fun i hi => by rw [zero_add]; exact h.front i hi,
    zero_mul, zero_add, zero_add, ← add_zero shift, ← wordsValue_shift]
  exact wordsValue_congr fun i hi => by rw [zero_add]; exact h.word i hi

variable (hSource : source.WellFormed)

include hSource

theorem word_lt : ∀ i < roundUp d.intg + roundUp source.frac, d.buf i < 10 ^ 9 := by
  intro i hi
  rw [h.intg] at hi
  rcases lt_or_ge i shift with hFront | hBehind
  · rw [h.front i hFront]
    decide
  · obtain ⟨j, rfl⟩ := Nat.exists_eq_add_of_le hBehind
    rw [h.word j (by omega)]
    exact hSource.word j (by omega)

/-- More words, all zero, after the decimal point -/
theorem extended {k n frac : Nat} (hn : roundUp d.intg + roundUp source.frac = n)
    (hFrac : roundUp frac = roundUp source.frac + k) (hLe : source.frac ≤ frac) :
    Decimal.WellFormed { d with buf := zeroWords n k d.buf, frac } ∧
      Decimal.mantissa { d with buf := zeroWords n k d.buf, frac } = source.mantissa * (10 ^ 9) ^ k := by
  refine ⟨⟨fun i hi => ?_, fun hPart => ?_, fun hPart => ?_⟩, ?_⟩
  · change zeroWords _ k d.buf i < 10 ^ 9
    rw [zeroWords_apply]
    split_ifs with hZero
    · decide
    · change i < roundUp d.intg + roundUp frac at hi
      exact h.word_lt hSource i (by omega)
  · change zeroWords _ k d.buf 0 < _
    rw [zeroWords_apply]
    split_ifs
    · exact Nat.pow_pos (by decide)
    · exact h.lead hPart
  · change frac % 9 ≠ 0 at hPart
    change _ ∣ zeroWords _ k d.buf (roundUp d.intg + roundUp frac - 1)
    rw [zeroWords_apply]
    split_ifs with hZero
    · exact dvd_zero _
    · have hSame : source.frac % 9 ≠ 0 ∧ source.frac % 9 ≤ frac % 9 ∧ 0 < roundUp source.frac ∧ k = 0 := by
        unfold roundUp at *
        omega
      obtain ⟨hPart', hDigits, hSome, rfl⟩ := hSame
      rw [show roundUp d.intg + roundUp frac - 1 = shift + (roundUp source.intg + roundUp source.frac - 1) by
        rw [h.intg]; omega, h.word _ (by omega)]
      exact (pow_dvd_pow 10 (by change 9 - frac % 9 ≤ _; omega)).trans (hSource.trail hPart')
  · have hFirst : wordsValue (zeroWords n k d.buf) 0 n = source.mantissa := by
      subst hn
      rw [← h.mantissa_eq]
      exact wordsValue_congr fun i hi => by rw [zeroWords_apply, if_neg (by omega)]
    have hTail : wordsValue (zeroWords n k d.buf) (0 + n) k = 0 :=
      wordsValue_eq_zero fun i hi => by rw [zeroWords_apply, if_pos (by omega)]
    change wordsValue (zeroWords _ k d.buf) 0 (roundUp d.intg + roundUp frac) = _
    rw [hFrac, ← add_assoc, hn, wordsValue_add, hFirst, hTail, add_zero]

theorem wellFormed : Decimal.WellFormed { d with frac := source.frac } :=
  (h.extended hSource (k := 0) rfl rfl (le_refl _)).1

theorem roundable {scale : Int} (hScale : scale < source.frac) (hIntg : 0 ≤ scale + source.intg)
    (hFirst : 0 < (roundUp d.intg : Int) + fracWords scale → d.buf 0 ≠ 10 ^ 9 - 1)
    (hRoom : (roundUp d.intg : Int) + fracWords scale ≤ 1 → roundUp d.intg + roundUp scale.toNat < d.len) :
    Roundable { d with frac := source.frac } scale (fracWords scale) := by
  obtain ⟨hLe, hLt, hWords⟩ := fracWords_spec scale
  have hMore := h.intg_le
  exact ⟨h.wellFormed hSource, hScale, (by dsimp only; omega), hLe, hLt, hWords, hFirst, hRoom⟩

end Moved

theorem roundWords_frac (d : Decimal) (frac : Nat) (mode : RoundMode) (digit intg0 frac1 : Nat) (frac0 scale : Int)
    (error : DecError) :
    roundWords { d with frac } mode digit intg0 frac1 frac0 scale error =
      roundWords d mode digit intg0 frac1 frac0 scale error := rfl

section

variable {source : Decimal} {target : Option Decimal} {scale : Int} {mode : RoundMode}

section
variable (h : source.WellFormed) (hFits : movedIntg source scale ≤ (target.getD source).len)
include h hFits

/-- The scale keeps all digits. -/
theorem roundMoved_extends {frac0 scale' : Int} (hFrac0 : frac0 = roundUp scale'.toNat)
    (hScale : source.frac ≤ scale') (error : DecError) :
    ∃ r, roundMoved source target mode scale frac0 scale' error = (r, error) ∧ r.WellFormed ∧
      r.frac = scale'.toNat ∧ r.sign = source.sign ∧
      r.mantissa = (arriving source target scale).mantissa *
        (10 ^ 9) ^ (roundUp scale'.toNat - roundUp source.frac) := by
  have hMoved := moveWords_moved h frac0 hFits
  have hArrives := arriving_wellFormed h target scale
  have hIntg : roundUp (moveWords source target scale frac0).intg = movedIntg source scale := by
    rw [hMoved.intg, arriving_intg, movedIntg]
  have hMore : roundUp source.frac ≤ roundUp scale'.toNat := Nat.div_le_div_right (by omega)
  obtain ⟨k, hk⟩ := Nat.exists_eq_add_of_le hMore
  obtain ⟨hForm, hMantissa⟩ := hMoved.extended hArrives rfl (by rw [arriving_frac, hk])
    (by rw [arriving_frac]; omega)
  rw [arriving_frac, hIntg] at hForm hMantissa
  have hSign : (moveWords source target scale frac0).sign = source.sign := by rw [hMoved.sign, arriving_sign]
  rw [hk, Nat.add_sub_cancel_left]
  unfold roundMoved
  by_cases hWords : (roundUp source.frac : Int) < frac0
  · rw [if_pos hWords, show (frac0 - roundUp source.frac).toNat = k by omega]
    exact ⟨_, rfl, hForm, rfl, hSign, hMantissa⟩
  · obtain rfl : k = 0 := by omega
    rw [if_neg hWords, if_pos hScale]
    exact ⟨_, rfl, hForm, rfl, hSign, hMantissa⟩

/-- The scale drops digits. -/
theorem roundMoved_rounds
    (hMode : mode = .halfUp ∨ mode = .truncate ∨ (mode = .ceiling ∨ mode = .floor) ∧ scale = 0)
    (hScale : scale < source.frac) (hSome : 0 ≤ scale + source.intg)
    (hRoom : roundUp source.intg + fracWords scale ≤ 1 →
      roundUp source.intg + roundUp scale.toNat < (target.getD source).len) :
    ∃ r, roundMoved source target mode scale (fracWords scale) scale .ok = (r, .ok) ∧
      Rounded r source.sign scale (roundedUnits mode source.sign (arriving source target scale).mantissa
        (10 ^ (9 * (roundUp source.frac : Int) - scale).toNat)) := by
  have hMoved := moveWords_moved h (fracWords scale) hFits
  set d := moveWords source target scale _ with hd
  have hArrives := arriving_wellFormed h target scale
  obtain ⟨hLe, hLt, -⟩ := fracWords_spec scale
  have hIntg : roundUp d.intg = movedIntg source scale := by
    rw [hMoved.intg, arriving_intg, movedIntg]
  have hFew : ¬(roundUp source.frac : Int) < fracWords scale := by
    unfold roundUp
    omega
  have hFirst : 0 < (movedIntg source scale : Int) + fracWords scale → d.buf 0 ≠ 10 ^ 9 - 1 := by
    intro hKept
    by_cases hNeeds : NeedsRoom source scale
    · rw [if_pos hNeeds] at hMoved
      rw [hMoved.front 0 one_pos]
      decide
    · have hSome' : 0 < roundUp source.intg + roundUp source.frac := by
        unfold roundUp
        omega
      have hSame : arriving source target scale = source := if_neg fun hBoth => hNeeds hBoth.2
      rw [if_neg hNeeds, hSame] at hMoved
      rw [movedIntg, if_neg hNeeds] at hKept
      rw [← zero_add 0, hMoved.word 0 hSome']
      intro hMax
      have hPart : source.intg % 9 ≠ 0 := fun hFull => hNeeds ⟨hFull, hMax, by omega⟩
      have hLead := h.lead hPart
      have hPow : 10 ^ (source.intg % 9) ≤ 10 ^ 8 := Nat.pow_le_pow_right (by decide) (by omega)
      omega
  have hRoom' : (movedIntg source scale : Int) + fracWords scale ≤ 1 →
      movedIntg source scale + roundUp scale.toNat < (target.getD source).len := by
    intro hKept
    unfold movedIntg at hKept ⊢
    by_cases hNeeds : NeedsRoom source scale
    · have hPos := hNeeds.2.2
      omega
    · rw [if_neg hNeeds] at hKept ⊢
      exact hRoom (by omega)
  have hLen : d.len = (target.getD source).len := by
    rw [hd, moveWords]
    split_ifs <;> rfl
  obtain ⟨r, hRound, hRounded⟩ := (hMoved.roundable hArrives (by rwa [arriving_frac]) (by rwa [arriving_intg])
    (by rwa [hIntg]) (by rwa [hIntg, hLen])).roundWords_rounded hMode
  have hSign : d.sign = source.sign := by
    rw [hMoved.sign, arriving_sign]
  have hMantissa : Decimal.mantissa { d with frac := (arriving source target scale).frac } =
      (arriving source target scale).mantissa := hMoved.mantissa_eq
  rw [hMantissa] at hRounded
  rw [roundWords_frac, hSign, hIntg, arriving_frac] at hRound
  rw [hSign, arriving_frac] at hRounded
  refine ⟨r, ?_, hRounded⟩
  rw [roundMoved, if_neg hFew, if_neg (by omega)]
  exact hRound

end

end

/-! `decimal_round` in place, to the nearest number of a scale, with halves
rounded away from zero. -/

structure Holds (r : Decimal) (sign : Bool) (scale m : Nat) : Prop where
  wellFormed : r.WellFormed
  frac_le : r.frac ≤ scale
  value : r.mantissa * 10 ^ scale = m * (10 ^ 9) ^ roundUp r.frac
  sign : r.sign = (sign && m ≠ 0)

namespace Decimal

def roundUnits (d : Decimal) (scale : Nat) : Nat :=
  (d.scaled (scale + 1) + 5) / 10

end Decimal

/-- Before it rounds, `decimal_round` moves the words of such a decimal to make
room for a carry. In place, it overwrites the first word before it copies it. -/
def LosesFirstWord (d : Decimal) (scale : Nat) : Prop :=
  d.intg % 9 = 0 ∧ d.buf 0 = 10 ^ 9 - 1 ∧ 0 < roundUp d.intg + roundUp scale

instance (d : Decimal) (scale : Nat) : Decidable (LosesFirstWord d scale) :=
  inferInstanceAs (Decidable (_ ∧ _ ∧ _))

section

variable {d r : Decimal} {sign : Bool} {scale m : Nat}

private theorem fracWords_natCast (scale : Nat) : fracWords scale = roundUp scale := by
  have hWords := (fracWords_spec scale).2.2
  have hLe := (fracWords_spec scale).1
  rw [Int.toNat_natCast] at hWords
  omega

private theorem losesFirstWord_iff (d : Decimal) (scale : Nat) : LosesFirstWord d scale ↔ NeedsRoom d scale := by
  unfold LosesFirstWord NeedsRoom
  rw [fracWords_natCast]
  omega

private theorem Rounded.holds (h : Rounded r sign scale m) : Holds r sign scale m := by
  have hBelow : below scale + scale = 9 * roundUp scale := by
    unfold below roundUp
    omega
  refine ⟨h.wellFormed, h.frac.le, ?_, h.sign⟩
  rw [h.value, h.frac, Int.toNat_natCast, mul_assoc, ← pow_add, hBelow, pow_mul]

private theorem roundedUnits_halfUp (sign : Bool) (hScale : scale < d.frac) :
    roundedUnits .halfUp sign d.mantissa (10 ^ (9 * (roundUp d.frac : Int) - scale).toNat) = d.roundUnits scale := by
  obtain ⟨k, hk⟩ : ∃ k, 9 * roundUp d.frac = scale + 1 + k := by
    refine ⟨9 * roundUp d.frac - (scale + 1), ?_⟩
    unfold roundUp
    omega
  have hUnit : 10 ^ (9 * (roundUp d.frac : Int) - scale).toNat = 10 ^ k * 10 := by
    rw [← pow_succ]
    congr 1
    omega
  have hScaled : d.scaled (scale + 1) = d.mantissa / 10 ^ k := by
    rw [Decimal.scaled, ← pow_mul, hk, pow_add 10 (scale + 1), mul_comm d.mantissa,
      Nat.mul_div_mul_left _ _ (by positivity)]
  rw [Decimal.roundUnits, hScaled, hUnit, roundedUnits,
    show 2 * d.mantissa + 10 ^ k * 10 = 2 * (d.mantissa + 5 * 10 ^ k) by ring, Nat.mul_div_mul_left _ _ (by decide),
    ← Nat.div_div_eq_div_mul, add_mul_div_right _ _ (by positivity)]

variable (h : d.WellFormed) (hScale : scale < d.frac) (hWords : roundUp d.intg + roundUp d.frac ≤ d.len)
  (hLen : 1 < d.len)

include h hScale hWords hLen

/-- In place, the first word is lost when the words are moved. -/
theorem decimalRound_holds : ∃ r, decimalRound d none scale .halfUp = (r, .ok) ∧
      Holds r d.sign scale ((if LosesFirstWord d scale then withoutFirst d else d).roundUnits scale) := by
  have hArrives : arriving d none scale = if LosesFirstWord d scale then withoutFirst d else d :=
    if_congr (by rw [losesFirstWord_iff]; exact and_iff_right rfl) rfl rfl
  have hSome : 0 < roundUp d.frac := by
    unfold roundUp
    omega
  have hLess : roundUp scale ≤ roundUp d.frac := Nat.div_le_div_right (by omega)
  have hFits : movedIntg d scale ≤ (none.getD d).len := by
    rw [getD_none, movedIntg]
    split_ifs <;> omega
  obtain ⟨r, hRound, hRounded⟩ := roundMoved_rounds h hFits (.inl rfl) (by omega) (by omega)
    (by rw [fracWords_natCast, Int.toNat_natCast, getD_none]; omega)
  rw [← arriving_frac d none scale, roundedUnits_halfUp d.sign (by rwa [arriving_frac]), hArrives] at hRounded
  exact ⟨r, (decimalRound_eq (by rw [fracWords_natCast, getD_none]; omega) (by omega)).trans hRound,
    hRounded.holds⟩

end

end MySQL.Decimals
