import MySQL.Strings.Decimal.Add
import MySQL.Strings.Decimal.Compare

/-! The second half of `do_sub`, and `decimal_add` and `decimal_sub`. -/
namespace MySQL.Decimals
open Nat

/-- Part 3 of `do_sub`: subtract the borrow as long as there is one, then copy the other words. -/
def borrowWords (source : Nat → Nat) (p₁ p₀ : Nat) : (n carry : Nat) → (Nat → Nat) → Nat × (Nat → Nat)
  | 0, carry, mem => (carry, mem)
  | n + 1, carry, mem =>
    if carry = 0 then (0, copyWords source p₁ p₀ (n + 1) mem)
    else
      borrowWords source p₁ p₀ n (subCarry (source (p₁ + n)) 0 carry)
        (Function.update mem (p₀ + n) (subWord (source (p₁ + n)) 0 carry))

/-- Parts 1 and 2 of `do_sub`. Places are those in the target, where the words of `large` begin at 0
and those of `small` at `lead`. -/
def subTail (large small : Operand) (frac0 : Nat) (mem : Nat → Nat) : Nat × (Nat → Nat) :=
  let lead := large.intg - small.intg
  let largeEnd := large.words
  let smallEnd := lead + small.words
  if small.frac < large.frac then
    let mem := copyWords (fun _ => 0) 0 largeEnd (large.intg + frac0 - largeEnd) mem
    let mem := copyWords large.buf (large.start + smallEnd) smallEnd (largeEnd - smallEnd) mem
    subWords large.buf small.buf (large.start + lead) small.start lead small.words 0 mem
  else
    let mem := copyWords (fun _ => 0) 0 smallEnd (large.intg + frac0 - smallEnd) mem
    let (carry, mem) := subWords (fun _ => 0) small.buf 0 (small.start + (largeEnd - lead)) largeEnd
      (smallEnd - largeEnd) 0 mem
    subWords large.buf small.buf (large.start + lead) small.start lead (largeEnd - lead) carry mem

/-- The loops of `do_sub`; the last one of the source finds nothing left to do. -/
def subLoops (large small : Operand) (frac0 : Nat) (mem : Nat → Nat) : Nat → Nat :=
  let (carry, mem) := subTail large small frac0 mem
  (borrowWords large.buf large.start 0 (large.intg - small.intg) carry mem).2

/-- `set_if_smaller(frac1, frac0)` -/
def Operand.cut (o : Operand) (frac0 : Nat) : Operand := { o with frac := min o.frac frac0 }

/-- `do_sub` with a target distinct from both operands. If the words before the point do not fit,
the loops run over the ends of the arrays, and `spilled` is what they leave in the target. -/
def doSub (from1 from2 target : Decimal) (spilled : Nat → Nat) : Decimal × DecError :=
  let (part1, part2, order) := compareParts from1 from2
  if order = .eq then (makeZero target, .ok)
  else
    let (large, small) := if order = .lt then (part2, part1) else (part1, part2)
    let sign := if order = .lt then !from1.sign else from1.sign
    let (intg0, frac0, error) :=
      fixIntgFracError target.len large.intg (max (roundUp from1.frac) (roundUp from2.frac))
    let frac := max from1.frac from2.frac
    match error with
    | .overflow => ({ target with sign, intg := intg0 * 9, frac := min frac (frac0 * 9), buf := spilled }, error)
    | .truncated =>
      ({ target with
          sign
          intg := intg0 * 9
          frac := min frac (frac0 * 9)
          buf := subLoops (large.cut frac0) (small.cut frac0) frac0 target.buf }, error)
    | .ok => ({ target with sign, intg := intg0 * 9, frac, buf := subLoops large small frac0 target.buf }, error)

def decimalAdd (from1 from2 target : Decimal) (spilled : Nat → Nat) : Decimal × DecError :=
  if from1.sign = from2.sign then doAdd from1 from2 target else doSub from1 from2 target spilled

def decimalSub (from1 from2 target : Decimal) (spilled : Nat → Nat) : Decimal × DecError :=
  if from1.sign = from2.sign then doSub from1 from2 target spilled else doAdd from1 from2 target

section Loops

variable {source mem : Nat → Nat} {p₁ p₀ n carry frac0 : Nat} {large small : Operand}

theorem copyWords_eq_subWords (source mem : Nat → Nat) (p₁ p₀ n : Nat) :
    subWords source (fun _ => 0) p₁ 0 p₀ n 0 mem = (0, copyWords source p₁ p₀ n mem) := by
  induction n generalizing mem with
  | zero => rfl
  | succ n ih =>
    have hCarry : subCarry (source (p₁ + n)) 0 0 = 0 := by simp [subCarry]
    have hWord : subWord (source (p₁ + n)) 0 0 = source (p₁ + n) := by simp [subWord]
    rw [subWords, hCarry, hWord, ih, copyWords]

theorem borrowWords_eq_subWords (source mem : Nat → Nat) (p₁ p₀ n carry : Nat) :
    borrowWords source p₁ p₀ n carry mem = subWords source (fun _ => 0) p₁ 0 p₀ n carry mem := by
  induction n generalizing mem carry with
  | zero => rfl
  | succ n ih =>
    rw [borrowWords]
    split_ifs with hNone
    · rw [hNone, copyWords_eq_subWords]
    · rw [ih, subWords]

theorem borrowWords_wrote (source mem : Nat → Nat) (p₁ p₀ : Nat) (h : ∀ i < n, source (p₁ + i) < 10 ^ 9)
    (hc : carry ≤ 1) :
    ∃ v, Wrote mem (borrowWords source p₁ p₀ n carry mem).2 p₀ n v ∧
      (borrowWords source p₁ p₀ n carry mem).1 ≤ 1 ∧
      v + carry = wordsValue source p₁ n + (borrowWords source p₁ p₀ n carry mem).1 * (10 ^ 9) ^ n := by
  have hNothing : wordsValue (fun _ => 0) 0 n = 0 := wordsValue_eq_zero fun _ _ => rfl
  obtain ⟨v, hWrote, hCarry, hDiff⟩ :=
    subWords_wrote source (fun _ => 0) mem p₁ 0 p₀ h (fun _ _ => by simp) hc
  rw [borrowWords_eq_subWords]
  exact ⟨v, hWrote, hCarry, by rw [← hDiff, hNothing, add_zero]⟩

/-- What the loops need to know of the two operands: both end within `frac0` words after the point. -/
structure Aligned (large small : Operand) (frac0 : Nat) : Prop extends Reaches large small where
  largeNonneg : 0 ≤ large.intg + large.frac
  smallNonneg : 0 ≤ small.intg + small.frac
  largeFrac : large.frac ≤ frac0
  smallFrac : small.frac ≤ frac0
  largeWord : ∀ i < large.words, large.buf (large.start + i) < 10 ^ 9
  smallWord : ∀ i < small.words, small.buf (small.start + i) < 10 ^ 9

namespace Aligned

section
variable (h : Aligned large small frac0)
include h

theorem lead_le : large.intg - small.intg ≤ large.words := by
  have := h.point
  unfold Operand.words
  omega

theorem large_le : large.words ≤ large.intg + frac0 := by
  have := h.largeFrac
  unfold Operand.words
  omega

theorem small_le : large.intg - small.intg + small.words ≤ large.intg + frac0 := by
  have := h.intg
  have := h.smallFrac
  unfold Operand.words
  omega

theorem lt_iff : small.frac < large.frac ↔ large.intg - small.intg + small.words < large.words := by
  have := h.intg
  have := h.largeNonneg
  have := h.smallNonneg
  unfold Operand.words
  omega

end

end Aligned

section Tail

variable {lbuf sbuf : Nat → Nat} {ls ss lead l s wide : Nat}

private def Subtracted (lbuf sbuf : Nat → Nat) (ls ss lead l s wide : Nat) (mem : Nat → Nat)
    (out : Nat × (Nat → Nat)) : Prop :=
  ∃ v, Wrote mem out.2 lead (wide - lead) v ∧ out.1 ≤ 1 ∧
    v + wordsValue sbuf ss s * (10 ^ 9) ^ (wide - (lead + s)) =
      wordsValue lbuf (ls + lead) (l - lead) * (10 ^ 9) ^ (wide - l) + out.1 * (10 ^ 9) ^ (wide - lead)

/-- The first number has more words at its end. -/
private theorem subTail_copied (hShort : lead + s < l) (hWide : l ≤ wide) (hl : ∀ i < l, lbuf (ls + i) < 10 ^ 9)
    (hs : ∀ i < s, sbuf (ss + i) < 10 ^ 9) (mem : Nat → Nat) :
    Subtracted lbuf sbuf ls ss lead l s wide mem (subWords lbuf sbuf (ls + lead) ss lead s 0
      (copyWords lbuf (ls + (lead + s)) (lead + s) (l - (lead + s)) (copyWords (fun _ => 0) 0 l (wide - l) mem))) := by
  have hZero := zeros_wrote mem l (wide - l)
  have hCopy := copyWords_wrote lbuf (copyWords (fun _ => 0) 0 l (wide - l) mem) (ls + (lead + s)) (lead + s)
    (n := l - (lead + s)) fun i hi => by simpa [add_assoc] using hl _ (by omega)
  obtain ⟨v, hWrote, hCarry, hDiff⟩ := subWords_wrote lbuf sbuf
    (copyWords lbuf _ _ _ _)
    (ls + lead) ss lead (fun i hi => by simpa [add_assoc] using hl _ (by omega)) hs
    (zero_le 1)
  have hEnd := hZero.join hCopy (k := wide - (lead + s)) (by omega) (by omega)
  refine ⟨_, hEnd.join hWrote rfl (by omega), hCarry, ?_⟩
  have hWords : l - lead = s + (l - (lead + s)) := by omega
  have hRest : wide - (lead + s) = l - (lead + s) + (wide - l) := by omega
  have hAll : wide - lead = s + (l - (lead + s) + (wide - l)) := by omega
  rw [hWords, wordsValue_add, hRest, hAll, add_assoc ls]
  linear_combination (10 ^ 9) ^ (l - (lead + s)) * (10 ^ 9) ^ (wide - l) * hDiff

/-- The second number has as many words at its end, or more. -/
private theorem subTail_borrowed (hLong : l ≤ lead + s) (hLead : lead ≤ l) (hWide : lead + s ≤ wide)
    (hl : ∀ i < l, lbuf (ls + i) < 10 ^ 9) (hs : ∀ i < s, sbuf (ss + i) < 10 ^ 9) (mem : Nat → Nat) :
    let last := subWords (fun _ => 0) sbuf 0 (ss + (l - lead)) l (lead + s - l) 0
      (copyWords (fun _ => 0) 0 (lead + s) (wide - (lead + s)) mem)
    Subtracted lbuf sbuf ls ss lead l s wide mem
      (subWords lbuf sbuf (ls + lead) ss lead (l - lead) last.1 last.2) := by
  intro last
  have hZero := zeros_wrote mem (lead + s) (wide - (lead + s))
  obtain ⟨v, hLast, hCarry₁, hDiff₁⟩ := subWords_wrote (fun _ => 0) sbuf
    (copyWords (fun _ => 0) 0 _ _ mem) 0 (ss + (l - lead)) l (n := lead + s - l)
    (fun _ _ => by simp) (fun i hi => by simpa [add_assoc] using hs _ (by omega)) (zero_le 1)
  obtain ⟨w, hWrote, hCarry₂, hDiff₂⟩ := subWords_wrote lbuf sbuf last.2 (ls + lead) ss lead (n := l - lead)
    (fun i hi => by simpa [add_assoc] using hl _ (by omega)) (fun i hi => hs i (by omega)) hCarry₁
  have hEnd := hZero.join hLast (k := wide - l) (by omega) (by omega)
  refine ⟨_, hEnd.join hWrote (by omega) (by omega), hCarry₂, ?_⟩
  have hNothing : wordsValue (fun _ => 0) 0 (lead + s - l) = 0 := wordsValue_eq_zero fun _ _ => rfl
  have hWords : s = l - lead + (lead + s - l) := by omega
  have hRest : wide - l = lead + s - l + (wide - (lead + s)) := by omega
  have hAll : wide - lead = l - lead + (lead + s - l + (wide - (lead + s))) := by omega
  have hSplit := wordsValue_add sbuf ss (l - lead) (lead + s - l)
  rw [← hWords] at hSplit
  rw [hSplit, hRest, hAll]
  rw [hNothing] at hDiff₁
  linear_combination (10 ^ 9) ^ (wide - (lead + s)) * hDiff₁ +
    (10 ^ 9) ^ (lead + s - l) * (10 ^ 9) ^ (wide - (lead + s)) * hDiff₂

end Tail

/-- The words of `large` from the first place of `small` on, less those of `small` -/
private theorem subTail_subtracted (h : Aligned large small frac0) (mem : Nat → Nat) :
    Subtracted large.buf small.buf large.start small.start (large.intg - small.intg) large.words small.words
      (large.intg + frac0) mem (subTail large small frac0 mem) := by
  unfold subTail
  rw [if_congr h.lt_iff rfl rfl]
  split_ifs with hShort
  · exact subTail_copied hShort h.large_le h.largeWord h.smallWord mem
  · exact subTail_borrowed (not_lt.mp hShort) h.lead_le h.small_le h.largeWord h.smallWord mem

/-- The value of an operand in units of its last word, if `frac` words follow the point -/
def Operand.scaled (o : Operand) (frac : Nat) : Nat :=
  wordsValue o.buf o.start o.words * (10 ^ 9) ^ (o.intg + frac - o.words)

/-- The loops subtract the smaller number. -/
theorem subLoops_value (h : Aligned large small frac0) (mem : Nat → Nat)
    (hLe : small.scaled frac0 ≤ large.scaled frac0) :
    (∀ i < large.intg + frac0, subLoops large small frac0 mem i < 10 ^ 9) ∧
      wordsValue (subLoops large small frac0 mem) 0 (large.intg + frac0) =
        large.scaled frac0 - small.scaled frac0 := by
  have hIntg := h.intg
  have hLead := h.lead_le
  have hLarge := h.large_le
  obtain ⟨v, hWrote₁, hCarry₁, hDiff₁⟩ := subTail_subtracted h mem
  have hSmall : large.intg + frac0 - (large.intg - small.intg + small.words) =
      small.intg + frac0 - small.words := by omega
  rw [hSmall] at hDiff₁
  unfold subLoops
  generalize large.intg - small.intg = lead at *
  obtain ⟨w, hWrote₂, hCarry₂, hDiff₂⟩ := borrowWords_wrote large.buf (subTail large small frac0 mem).2 large.start 0
    (n := lead) (fun i hi => h.largeWord i (by omega)) hCarry₁
  have hWrote := hWrote₁.join hWrote₂ (k := large.intg + frac0) (by omega) (by omega)
  have hLt := wordsValue_lt hWrote.word
  rw [hWrote.value] at hLt
  have hRest : large.intg + frac0 - lead = large.words - lead + (large.intg + frac0 - large.words) := by omega
  have hDiff : w * (10 ^ 9) ^ (large.intg + frac0 - lead) + v + small.scaled frac0 =
      large.scaled frac0 + (borrowWords large.buf large.start 0 lead (subTail large small frac0 mem).1
        (subTail large small frac0 mem).2).1 * (10 ^ 9) ^ (large.intg + frac0) := by
    have hSplit := wordsValue_add large.buf large.start lead (large.words - lead)
    have hPow : (10 ^ 9) ^ (large.intg + frac0) = (10 ^ 9) ^ lead * (10 ^ 9) ^ (large.intg + frac0 - lead) := by
      rw [← pow_add, Nat.add_sub_cancel' (hLead.trans hLarge)]
    rw [Nat.add_sub_cancel' hLead] at hSplit
    rw [Operand.scaled, Operand.scaled, hSplit, hPow]
    rw [hRest] at hDiff₁ ⊢
    linear_combination hDiff₁ +
      (10 ^ 9) ^ (large.words - lead) * (10 ^ 9) ^ (large.intg + frac0 - large.words) * hDiff₂
  generalize (borrowWords large.buf large.start 0 lead _ _).1 = carry' at hDiff hCarry₂
  have hNone : carry' = 0 := by
    -- a borrow would make the result too large for its words
    by_contra hSome
    obtain rfl : carry' = 1 := by omega
    omega
  rw [hNone, zero_mul] at hDiff
  exact ⟨by simpa using hWrote.word, by rw [hWrote.value]; omega⟩

end Loops

section Cut

variable {o large small : Operand} {d : Decimal} {frac frac0 : Nat}

theorem Operand.cut_of_le (h : o.frac ≤ frac0) : o.cut frac0 = o := by
  rw [Operand.cut, min_eq_left h]

theorem Operand.Of.cut_words (h : o.Of d) (frac0 : Nat) : (o.cut frac0).words = min o.words (o.intg + frac0) := by
  have := h.nonneg
  simp only [Operand.words, Operand.cut]
  omega

/-- The words that stay when the fraction is cut to `frac0` words -/
theorem Operand.Of.cut_value (h : o.Of d) (hFrac : roundUp d.frac ≤ frac) (h₀ : frac0 ≤ frac) :
    (o.cut frac0).scaled frac0 = d.aligned frac / (10 ^ 9) ^ (frac - frac0) := by
  have hWords := h.words_le hFrac
  rw [Operand.scaled, h.cut_words, h.value frac hFrac]
  dsimp only [Operand.cut]
  rcases le_total o.words (o.intg + frac0) with hShort | hLong
  · have hSplit : o.intg + frac - o.words = o.intg + frac0 - o.words + (frac - frac0) := by omega
    rw [min_eq_left hShort, hSplit, pow_add, ← mul_assoc, Nat.mul_div_cancel _ (by positivity)]
  · have hAll : o.words = o.intg + frac0 + (o.words - (o.intg + frac0)) := by omega
    have hSplit : frac - frac0 = o.words - (o.intg + frac0) + (o.intg + frac - o.words) := by omega
    have hValue := wordsValue_div (m := o.intg + frac0) (n := o.words - (o.intg + frac0))
      fun i hi => by simpa [add_assoc] using h.word _ (by omega)
    rw [← hAll] at hValue
    rw [min_eq_right hLong, Nat.sub_self, pow_zero, mul_one, hSplit, pow_add,
      Nat.mul_div_mul_right _ _ (by positivity), hValue]

theorem Reaches.aligned {dl ds : Decimal} (h : Reaches large small) (hLarge : large.Of dl) (hSmall : small.Of ds)
    (frac0 : Nat) : Aligned (large.cut frac0) (small.cut frac0) frac0 := by
  have hNonnegLarge := hLarge.nonneg
  have hNonnegSmall := hSmall.nonneg
  have hPoint := h.point
  refine ⟨⟨h.intg, ?_⟩, ?_, ?_, min_le_right .., min_le_right .., fun i hi => hLarge.word i ?_,
    fun i hi => hSmall.word i ?_⟩
  · simp only [Operand.cut]
    omega
  · simp only [Operand.cut]
    omega
  · simp only [Operand.cut]
    omega
  · rw [hLarge.cut_words] at hi
    omega
  · rw [hSmall.cut_words] at hi
    omega

end Cut

/-- The words that `do_sub` provides for before and after the decimal point -/
def subReserved (from1 from2 : Decimal) : Nat × Nat :=
  let (part1, part2, order) := compareParts from1 from2
  match order with
  | .eq => (1, 0)
  | .lt => (part2.intg, max (roundUp from1.frac) (roundUp from2.frac))
  | .gt => (part1.intg, max (roundUp from1.frac) (roundUp from2.frac))

section Sub

variable {from1 from2 target : Decimal} {part1 part2 : Operand} {order : Ordering} {frac frac0 : Nat}
  {spilled : Nat → Nat}

theorem makeZero_settles (from1 from2 : Decimal) (hLen : 0 < target.len) :
    Settles from1 from2 target (1, 0) 0 (makeZero target, .ok) := by
  exact ⟨fun _ => ⟨rfl, makeZero_wellFormed target, makeZero_val target, fun hNe => absurd rfl hNe⟩,
    fun hFits hShort => absurd hFits (not_le.mpr hShort), fun hOver => absurd hOver (by omega),
    fun _ => ⟨rfl, by simp [makeZero, roundUp]; omega⟩, by norm_num⟩

/-- The part of `do_sub` after the comparison, for the larger and the smaller operand -/
private theorem doSub_eq (target : Decimal) (spilled : Nat → Nat) (hParts : compareParts from1 from2 = (part1, part2, order)) (hOrder : order ≠ .eq)
    {large small : Operand} (hLarge : large = if order = .lt then part2 else part1)
    (hSmall : small = if order = .lt then part1 else part2)
    (hFracLarge : large.frac ≤ frac) (hFracSmall : small.frac ≤ frac)
    (hFrac : frac = max (roundUp from1.frac) (roundUp from2.frac)) :
    (target.len < large.intg → (doSub from1 from2 target spilled).2 = .overflow) ∧
    (large.intg ≤ target.len → ∀ frac0, frac0 = min frac (target.len - large.intg) →
      doSub from1 from2 target spilled = ({ target with
            sign := if order = .lt then !from1.sign else from1.sign
            intg := large.intg * 9
            frac := min (max from1.frac from2.frac) (frac0 * 9)
            buf := subLoops (large.cut frac0) (small.cut frac0) frac0 target.buf },
          if large.intg + frac ≤ target.len then .ok else .truncated)) := by
  have hBoth : (if order = .lt then (part2, part1) else (part1, part2)) = (large, small) := by
    rw [hLarge, hSmall]
    split_ifs <;> rfl
  rw [doSub, hParts]
  dsimp only
  rw [if_neg hOrder, hBoth, ← hFrac]
  dsimp only
  refine ⟨fun hOver => ?_, fun hFits frac0 hFrac0 => ?_⟩
  · rw [fixIntgFracError, if_pos (by omega), if_pos hOver]
  · rw [fixIntgFracError]
    by_cases hAll : large.intg + frac ≤ target.len
    · have hSame : frac0 = frac := by omega
      rw [if_neg (by omega), if_pos hAll, hSame, min_eq_left (max_le_of_roundUp hFrac), Operand.cut_of_le hFracLarge,
        Operand.cut_of_le hFracSmall]
    · have hKept : target.len - large.intg = frac0 := by omega
      rw [if_pos (by omega), if_neg (by omega), if_neg hAll, hKept]

private theorem signed_sub {x y : Nat} (sign : Bool) (h : x ≤ y) (unit : ℚ) :
    signOf (!sign) * ((y - x : Nat) / unit) = signOf sign * ((x - y) / unit) := by
  rw [cast_sub h]
  cases sign <;> simp [signOf] <;> ring

section
variable {dl ds : Decimal} {large small : Operand} (hReach : Reaches large small) (hLarge : large.Of dl)
  (hSmall : small.Of ds) (hl : dl.WellFormed) (hs : ds.WellFormed) (hfl : dl.frac ≤ max from1.frac from2.frac)
  (hfs : ds.frac ≤ max from1.frac from2.frac) (hLe : ds.aligned frac ≤ dl.aligned frac)
  (hFrac : frac = max (roundUp from1.frac) (roundUp from2.frac))
include hReach hLarge hSmall hl hs hfl hfs hLe hFrac

/-- The difference of two numbers, of whose fractions the target takes `frac0` words -/
theorem settles_of_parts (sign : Bool) (hFits : large.intg ≤ target.len)
    (hFrac0 : frac0 = min frac (target.len - large.intg)) :
    Settles from1 from2 target (large.intg, frac)
      (signOf sign * ((dl.aligned frac - ds.aligned frac : Nat) / (10 ^ 9) ^ frac))
      ({ target with
          sign := sign
          intg := large.intg * 9
          frac := min (max from1.frac from2.frac) (frac0 * 9)
          buf := subLoops (large.cut frac0) (small.cut frac0) frac0 target.buf },
        if large.intg + frac ≤ target.len then .ok else .truncated) := by
  have hFracLarge := roundUp_le_of_le_max hFrac hfl
  have hFracSmall := roundUp_le_of_le_max hFrac hfs
  have hCutLarge := hLarge.cut_value hFracLarge (by omega : frac0 ≤ frac)
  have hCutSmall := hSmall.cut_value hFracSmall (by omega : frac0 ≤ frac)
  obtain ⟨hWord, hValue⟩ := subLoops_value (hReach.aligned hLarge hSmall frac0) target.buf
    (by rw [hCutLarge, hCutSmall]; exact Nat.div_le_div_right hLe)
  rw [hCutLarge, hCutSmall] at hValue
  have hUnit : 0 < (10 ^ 9) ^ (frac - frac0) := by positivity
  have hLe₁ := div_mul_le_self (dl.aligned frac) ((10 ^ 9) ^ (frac - frac0))
  have hLe₂ := div_mul_le_self (ds.aligned frac) ((10 ^ 9) ^ (frac - frac0))
  have hLt₁ := lt_div_mul_add (a := dl.aligned frac) hUnit
  have hLt₂ := lt_div_mul_add (a := ds.aligned frac) hUnit
  refine settles_of_words sign hFrac hFits hFrac0 hWord hValue (fun hAll => ?_) ?_ ?_ ?_ ?_
  · rw [hAll, Nat.sub_self, pow_zero, Nat.div_one, Nat.div_one]
  · exact dvd_sub (hl.dvd_aligned hFracLarge hfl) (hs.dvd_aligned hFracSmall hfs)
  · exact (sub_le ..).trans_lt (hLarge.lt hFracLarge)
  · rw [Nat.sub_mul]
    omega
  · rw [Nat.sub_mul]
    omega

private theorem doSub_settles_parts (hParts : compareParts from1 from2 = (part1, part2, order))
    (hOrder : order ≠ .eq) (hFirst : large = if order = .lt then part2 else part1)
    (hLast : small = if order = .lt then part1 else part2) :
    Settles from1 from2 target (large.intg, frac)
      (signOf (if order = .lt then !from1.sign else from1.sign) *
        ((dl.aligned frac - ds.aligned frac : Nat) / (10 ^ 9) ^ frac))
      (doSub from1 from2 target spilled) := by
  have hFracLarge := hLarge.frac_le
  have hFracSmall := hSmall.frac_le
  have hRoundLarge := roundUp_le_of_le_max hFrac hfl
  have hRoundSmall := roundUp_le_of_le_max hFrac hfs
  have hRun := doSub_eq target spilled hParts hOrder hFirst hLast (by omega) (by omega) hFrac
  rcases lt_or_ge target.len large.intg with hOver | hFits
  · exact settles_of_overflow hOver (hRun.1 hOver)
      (abs_signed_lt _ ((sub_le ..).trans_lt (hLarge.lt hRoundLarge)))
  · rw [hRun.2 hFits _ rfl]
    exact settles_of_parts hReach hLarge hSmall hl hs hfl hfs hLe hFrac _ hFits rfl

end

/-- `do_sub` subtracts the absolute values. -/
theorem doSub_settles (spilled : Nat → Nat) (h₁ : from1.WellFormed) (h₂ : from2.WellFormed) (hLen : 0 < target.len)
    (hFrac : frac = max (roundUp from1.frac) (roundUp from2.frac)) :
    Settles from1 from2 target (subReserved from1 from2)
      (signOf from1.sign * ((from1.aligned frac - from2.aligned frac) / (10 ^ 9) ^ frac))
      (doSub from1 from2 target spilled) := by
  obtain ⟨part1, part2, order, hParts, hOf₁, hOf₂, hOrder, hLess, hMore⟩ :=
    compareParts_spec h₁ h₂ (by omega : roundUp from1.frac ≤ frac) (by omega : roundUp from2.frac ≤ frac)
  have hDigits₁ : from1.frac ≤ max from1.frac from2.frac := le_max_left ..
  have hDigits₂ : from2.frac ≤ max from1.frac from2.frac := le_max_right ..
  cases order with
  | eq =>
    have hSame : from1.aligned frac = from2.aligned frac := compare_eq_iff_eq.mp hOrder.symm
    rw [hSame, sub_self, zero_div, mul_zero, subReserved, doSub, hParts]
    exact makeZero_settles from1 from2 hLen
  | lt =>
    have hLe : from1.aligned frac ≤ from2.aligned frac := (compare_lt_iff_lt.mp hOrder.symm).le
    rw [← signed_sub _ hLe, subReserved, hParts]
    rw [← hFrac]
    exact doSub_settles_parts (hLess rfl) hOf₂ hOf₁ h₂ h₁ hDigits₂ hDigits₁ hLe hFrac hParts (by decide) rfl rfl
  | gt =>
    have hLe : from2.aligned frac ≤ from1.aligned frac := (compare_gt_iff_gt.mp hOrder.symm).le
    rw [← cast_sub hLe, subReserved, hParts]
    rw [← hFrac]
    exact doSub_settles_parts (hMore rfl) hOf₁ hOf₂ h₁ h₂ hDigits₁ hDigits₂ hLe hFrac hParts (by decide) rfl rfl

end Sub

/-- The words that `decimal_add` and `decimal_sub` provide for: those of `do_add` if the absolute
values are added, and those of `do_sub` otherwise -/
def reserved (added : Bool) (from1 from2 : Decimal) : Nat × Nat :=
  if added then (addIntg from1 from2, max (roundUp from1.frac) (roundUp from2.frac))
  else subReserved from1 from2

/-- `decimal_result_size` for `'+'` -/
def decimalResultSize (from1 from2 : Decimal) : Nat :=
  roundUp (max from1.intg from2.intg + 1) + roundUp (max from1.frac from2.frac)

section Main

variable {from1 from2 target : Decimal} {spilled : Nat → Nat}

section
variable {frac : Nat} (hFrac : frac = max (roundUp from1.frac) (roundUp from2.frac))
include hFrac

private theorem doAdd_val :
    signOf from1.sign * ((from1.aligned frac + from2.aligned frac : Nat) / (10 ^ 9) ^ frac) =
      if from1.sign = from2.sign then from1.val + from2.val else from1.val - from2.val := by
  rw [Decimal.val_eq_aligned (by omega : roundUp from1.frac ≤ frac),
    Decimal.val_eq_aligned (by omega : roundUp from2.frac ≤ frac)]
  cases from1.sign <;> cases from2.sign <;> simp [signOf] <;> ring

private theorem doSub_val :
    signOf from1.sign * ((from1.aligned frac - from2.aligned frac) / (10 ^ 9) ^ frac) =
      if from1.sign = from2.sign then from1.val - from2.val else from1.val + from2.val := by
  rw [Decimal.val_eq_aligned (by omega : roundUp from1.frac ≤ frac),
    Decimal.val_eq_aligned (by omega : roundUp from2.frac ≤ frac)]
  cases from1.sign <;> cases from2.sign <;> simp [signOf] <;> ring

end

section
variable (spilled : Nat → Nat) (h₁ : from1.WellFormed) (h₂ : from2.WellFormed) (hLen : 0 < target.len)
include h₁ h₂ hLen

theorem decimalAdd_settles :
    Settles from1 from2 target (reserved (from1.sign = from2.sign) from1 from2) (from1.val + from2.val)
      (decimalAdd from1 from2 target spilled) := by
  have hAdd := doAdd_settles target h₁ h₂ rfl
  have hSub := doSub_settles spilled h₁ h₂ hLen rfl
  rw [doAdd_val rfl] at hAdd
  rw [doSub_val rfl] at hSub
  unfold decimalAdd reserved
  split_ifs at * <;> simp_all

theorem decimalSub_settles :
    Settles from1 from2 target (reserved (from1.sign ≠ from2.sign) from1 from2) (from1.val - from2.val)
      (decimalSub from1 from2 target spilled) := by
  have hAdd := doAdd_settles target h₁ h₂ rfl
  have hSub := doSub_settles spilled h₁ h₂ hLen rfl
  rw [doAdd_val rfl] at hAdd
  rw [doSub_val rfl] at hSub
  unfold decimalSub reserved
  split_ifs at * <;> simp_all

end

private theorem addIntg_le (h₁ : from1.WellFormed) (h₂ : from2.WellFormed) :
    addIntg from1 from2 ≤ roundUp (max from1.intg from2.intg + 1) := by
  have hPow {n : Nat} (hn : n < 9) : 10 ^ n ≤ 10 ^ 8 := Nat.pow_le_pow_right (by decide) (by omega)
  unfold addIntg
  split_ifs with hCarry
  · by_cases hFull : max from1.intg from2.intg % 9 = 0
    · unfold roundUp
      omega
    · have hLead₁ := h₁.lead
      have hLead₂ := h₂.lead
      have hPow₁ := hPow (mod_lt from1.intg (by decide : 0 < 9))
      have hPow₂ := hPow (mod_lt from2.intg (by decide : 0 < 9))
      simp only [mayCarry, decide_eq_true_eq] at hCarry
      unfold roundUp at hCarry
      split_ifs at hCarry with h₂₁ h₁₂ <;> omega
  · unfold roundUp
    omega

private theorem subReserved_le (from1 from2 : Decimal) :
    (subReserved from1 from2).1 + (subReserved from1 from2).2 ≤ decimalResultSize from1 from2 := by
  have hParts : (compareParts from1 from2).1.intg ≤ roundUp from1.intg ∧
      (compareParts from1 from2).2.1.intg ≤ roundUp from2.intg := by
    unfold compareParts
    dsimp only
    split_ifs <;> exact ⟨sub_le .., sub_le ..⟩
  unfold subReserved decimalResultSize
  generalize compareParts from1 from2 = parts at hParts ⊢
  obtain ⟨part1, part2, order⟩ := parts
  cases order <;> simp only [roundUp] at * <;> omega

/-- The words provided for are never more than `decimal_result_size` says. -/
theorem reserved_le (h₁ : from1.WellFormed) (h₂ : from2.WellFormed) (added : Bool) :
    (reserved added from1 from2).1 + (reserved added from1 from2).2 ≤ decimalResultSize from1 from2 := by
  unfold reserved
  split_ifs
  · rw [roundUp_max]
    exact Nat.add_le_add_right (addIntg_le h₁ h₂) _
  · exact subReserved_le from1 from2

end Main

end MySQL.Decimals
