import MySQL.Strings.Decimal.Binary
import MySQL.Strings.Decimal.Aligned

/-! `do_add`: the sum of the absolute values of two decimals. -/
namespace MySQL.Decimals
open Function

def fillMax (pos n : Nat) (buf : Nat → Nat) : Nat → Nat := fun i =>
  if pos ≤ i ∧ i < pos + n then 10 ^ 9 - 1 else buf i

def maxDecimal (precision frac : Nat) (d : Decimal) : Decimal :=
  let intg := precision - frac
  let first := if intg % 9 ≠ 0 then 1 else 0
  let buf := if intg % 9 ≠ 0 then update d.buf 0 (10 ^ (intg % 9) - 1) else d.buf
  let buf := fillMax first (intg / 9 + frac / 9) buf
  let buf :=
    if frac % 9 ≠ 0 then
      update buf (first + intg / 9 + frac / 9) (10 ^ 9 - 10 ^ (9 - frac % 9))
    else buf
  { d with sign := false, intg := intg, frac := frac, buf := buf }

/-- Parts 1 and 2 of `do_add`, `long` being the operand with the longer fraction: the words that
only it has are copied, then the words that both have are added. The answer is the carry, the
target and the place of its last word written. -/
def addCommon (long short : Nat → Nat) (longIntg longFrac shortIntg shortFrac buf0 : Nat)
    (mem : Nat → Nat) : Nat × (Nat → Nat) × Nat :=
  let stop2 := longIntg - shortIntg
  let buf0 := buf0 - (longFrac - shortFrac)
  let mem := copyWords long (longIntg + shortFrac) buf0 (longFrac - shortFrac) mem
  let n := longIntg + shortFrac - stop2
  let buf0 := buf0 - n
  let (carry, mem) := addWords long short stop2 (shortIntg + shortFrac - n) buf0 n 0 mem
  (carry, mem, buf0)

def addTail (from1 from2 : Nat → Nat) (intg1 frac1 intg2 frac2 buf0 : Nat) (mem : Nat → Nat) :
    Nat × (Nat → Nat) × Nat :=
  if frac2 < frac1 then addCommon from1 from2 intg1 frac1 intg2 frac2 buf0 mem
  else addCommon from2 from1 intg2 frac2 intg1 frac1 buf0 mem

/-- Part 3 of `do_add`: the words before the common ones -/
def addHead (from1 from2 : Nat → Nat) (intg1 intg2 carry buf0 : Nat) (mem : Nat → Nat) :
    Nat × (Nat → Nat) × Nat :=
  let source := if intg2 < intg1 then from1 else from2
  let n := if intg2 < intg1 then intg1 - intg2 else intg2 - intg1
  let (carry, mem) := addWords source (fun _ => 0) 0 0 (buf0 - n) n carry mem
  (carry, mem, buf0 - n)

def addLoops (from1 from2 : Nat → Nat) (intg1 frac1 intg2 frac2 intg0 frac0 : Nat) (mem : Nat → Nat) :
    Nat → Nat :=
  let (carry, mem, buf0) := addTail from1 from2 intg1 frac1 intg2 frac2 (intg0 + frac0) mem
  let (carry, mem, buf0) := addHead from1 from2 intg1 intg2 carry buf0 mem
  if carry ≠ 0 then update mem (buf0 - 1) 1 else mem

def mayCarry (from1 from2 : Decimal) : Bool :=
  let x :=
    if roundUp from2.intg < roundUp from1.intg then from1.buf 0
    else if roundUp from1.intg < roundUp from2.intg then from2.buf 0
    else from1.buf 0 + from2.buf 0
  10 ^ 9 - 1 - 1 < x

def addIntg (from1 from2 : Decimal) : Nat :=
  max (roundUp from1.intg) (roundUp from2.intg) + if mayCarry from1 from2 then 1 else 0

/-- `do_add`, the target being distinct from both operands -/
def doAdd (from1 from2 target : Decimal) : Decimal × DecError :=
  let intg1 := roundUp from1.intg
  let intg2 := roundUp from2.intg
  let frac1 := roundUp from1.frac
  let frac2 := roundUp from2.frac
  let mem := if mayCarry from1 from2 then update target.buf 0 0 else target.buf
  let (intg0, frac0, error) := fixIntgFracError target.len (addIntg from1 from2) (max frac1 frac2)
  match error with
  | .overflow => (maxDecimal (target.len * 9) 0 { target with buf := mem }, error)
  | .truncated =>
    ({ target with
        sign := from1.sign
        frac := min (max from1.frac from2.frac) (frac0 * 9)
        intg := intg0 * 9
        buf := addLoops from1.buf from2.buf (min intg1 intg0) (min frac1 frac0) (min intg2 intg0)
          (min frac2 frac0) intg0 frac0 mem }, error)
  | .ok =>
    ({ target with
        sign := from1.sign
        frac := max from1.frac from2.frac
        intg := intg0 * 9
        buf := addLoops from1.buf from2.buf intg1 frac1 intg2 frac2 intg0 frac0 mem }, error)

section Loops

variable {long short from1 from2 mem : Nat → Nat} {intg1 frac1 intg2 frac2 intg0 frac0 common top : Nat}
  (hCommon : common = min intg1 intg2)
include hCommon

/-- The common words and the fraction words that only `long` has -/
theorem addCommon_wrote (mem : Nat → Nat) (hLong : ∀ i < intg1 + frac1, long i < 10 ^ 9)
    (hShort : ∀ i < intg2 + frac2, short i < 10 ^ 9) (hFrac : frac2 ≤ frac1) (hIntg : common ≤ intg0) :
    ∃ carry mem' v, addCommon long short intg1 frac1 intg2 frac2 (intg0 + frac1) mem =
        (carry, mem', intg0 - common) ∧
      Wrote mem mem' (intg0 - common) (common + frac1) v ∧ carry ≤ 1 ∧
      v + carry * (10 ^ 9) ^ (common + frac1) = wordsValue long (intg1 - intg2) (common + frac1) +
        wordsValue short (intg2 - intg1) (common + frac2) * (10 ^ 9) ^ (frac1 - frac2) := by
  have hCopy := copyWords_wrote long mem (intg1 + frac2) (intg0 + frac2) (n := frac1 - frac2)
    fun i hi => hLong _ (by omega)
  obtain ⟨mem₁, hMem₁⟩ : ∃ m, copyWords long (intg1 + frac2) (intg0 + frac2) (frac1 - frac2) mem = m :=
    ⟨_, rfl⟩
  rw [hMem₁] at hCopy
  obtain ⟨v, hWrote, hCarry, hSum⟩ := addWords_wrote long short mem₁ (intg1 - intg2) (intg2 - intg1)
    (intg0 - common) (n := common + frac2) (fun i hi => hLong _ (by omega))
    (fun i hi => hShort _ (by omega)) (Nat.zero_le 1)
  refine ⟨_, _, _, ?_, hCopy.join hWrote (by omega) (by omega), hCarry, ?_⟩
  · have h₀ : intg0 + frac1 - (frac1 - frac2) = intg0 + frac2 := by omega
    have h₁ : intg1 + frac2 - (intg1 - intg2) = common + frac2 := by omega
    have h₂ : intg0 + frac2 - (common + frac2) = intg0 - common := by omega
    have h₃ : intg2 + frac2 - (common + frac2) = intg2 - intg1 := by omega
    simp only [addCommon, h₀, h₁, h₂, h₃, hMem₁]
  · have hSplit := wordsValue_add long (intg1 - intg2) (common + frac2) (frac1 - frac2)
    have hRest : intg1 - intg2 + (common + frac2) = intg1 + frac2 := by omega
    have hWidth : common + frac1 = common + frac2 + (frac1 - frac2) := by omega
    rw [hWidth, hSplit, hRest]
    linear_combination (10 ^ 9) ^ (frac1 - frac2) * hSum

theorem addTail_wrote (mem : Nat → Nat) (h₁ : ∀ i < intg1 + frac1, from1 i < 10 ^ 9)
    (h₂ : ∀ i < intg2 + frac2, from2 i < 10 ^ 9) (hIntg : common ≤ intg0) (hFrac0 : frac0 = max frac1 frac2) :
    ∃ carry mem' v, addTail from1 from2 intg1 frac1 intg2 frac2 (intg0 + frac0) mem =
        (carry, mem', intg0 - common) ∧
      Wrote mem mem' (intg0 - common) (common + frac0) v ∧ carry ≤ 1 ∧
      v + carry * (10 ^ 9) ^ (common + frac0) =
        wordsValue from1 (intg1 - intg2) (common + frac1) * (10 ^ 9) ^ (frac0 - frac1) +
          wordsValue from2 (intg2 - intg1) (common + frac2) * (10 ^ 9) ^ (frac0 - frac2) := by
  unfold addTail
  split_ifs with hFrac
  · rw [hFrac0, max_eq_left hFrac.le, Nat.sub_self, pow_zero, mul_one]
    exact addCommon_wrote hCommon mem h₁ h₂ hFrac.le hIntg
  · rw [not_lt] at hFrac
    rw [hFrac0, max_eq_right hFrac, Nat.sub_self, pow_zero, mul_one, add_comm (_ * _)]
    exact addCommon_wrote (min_comm intg1 intg2 ▸ hCommon) mem h₂ h₁ hFrac hIntg

theorem addHead_wrote (hTop : top = max intg1 intg2) (mem : Nat → Nat) {carry : Nat} (h₁ : ∀ i < intg1, from1 i < 10 ^ 9)
    (h₂ : ∀ i < intg2, from2 i < 10 ^ 9) (hIntg : top ≤ intg0) (hCarry : carry ≤ 1) :
    ∃ carry' mem' v, addHead from1 from2 intg1 intg2 carry (intg0 - common) mem = (carry', mem', intg0 - top) ∧
      Wrote mem mem' (intg0 - top) (top - common) v ∧ carry' ≤ 1 ∧
      v + carry' * (10 ^ 9) ^ (top - common) =
        wordsValue from1 0 (intg1 - intg2) + wordsValue from2 0 (intg2 - intg1) + carry := by
  have hNothing (n : Nat) : wordsValue (fun _ => 0) 0 n = 0 := wordsValue_eq_zero fun _ _ => rfl
  have hPlace : intg0 - common - (top - common) = intg0 - top := by omega
  have hWords : (if intg2 < intg1 then intg1 - intg2 else intg2 - intg1) = top - common := by
    split_ifs <;> omega
  obtain ⟨source, hSource, hWord, hValue⟩ : ∃ source, (if intg2 < intg1 then from1 else from2) = source ∧
      (∀ i < top - common, source i < 10 ^ 9) ∧ wordsValue source 0 (top - common) =
        wordsValue from1 0 (intg1 - intg2) + wordsValue from2 0 (intg2 - intg1) := by
    rw [← hWords]
    split_ifs with hLess
    · have hOther : intg2 - intg1 = 0 := by omega
      rw [hOther]
      exact ⟨from1, rfl, fun i hi => h₁ i (by omega), rfl⟩
    · have hOther : intg1 - intg2 = 0 := by omega
      rw [hOther]
      exact ⟨from2, rfl, fun i hi => h₂ i (by omega), (zero_add _).symm⟩
  obtain ⟨v, hWrote, hCarry', hSum⟩ := addWords_wrote source (fun _ => 0) mem 0 0 _
    (by simpa using hWord) (fun _ _ => by simp) hCarry
  refine ⟨_, _, v, ?_, hWrote, hCarry', by rw [hSum, hNothing, hValue]; rfl⟩
  simp only [addHead, hSource, hWords, hPlace]

private theorem alignedSum (hTop : top = max intg1 intg2) (hFrac : frac0 = max frac1 frac2) {carry carry' v w : Nat}
    (hTail : v + carry * (10 ^ 9) ^ (common + frac0) =
      wordsValue from1 (intg1 - intg2) (common + frac1) * (10 ^ 9) ^ (frac0 - frac1) +
        wordsValue from2 (intg2 - intg1) (common + frac2) * (10 ^ 9) ^ (frac0 - frac2))
    (hHead : w + carry' * (10 ^ 9) ^ (top - common) =
      wordsValue from1 0 (intg1 - intg2) + wordsValue from2 0 (intg2 - intg1) + carry) :
    w * (10 ^ 9) ^ (common + frac0) + v + carry' * (10 ^ 9) ^ (top + frac0) =
      wordsValue from1 0 (intg1 + frac1) * (10 ^ 9) ^ (frac0 - frac1) +
        wordsValue from2 0 (intg2 + frac2) * (10 ^ 9) ^ (frac0 - frac2) := by
  have hSplit (source : Nat → Nat) (m frac : Nat) (hLe : frac ≤ frac0) :
      wordsValue source 0 (m + (common + frac)) * (10 ^ 9) ^ (frac0 - frac) =
        wordsValue source 0 m * (10 ^ 9) ^ (common + frac0) +
          wordsValue source m (common + frac) * (10 ^ 9) ^ (frac0 - frac) := by
    have hWidth : common + frac0 = common + frac + (frac0 - frac) := by omega
    rw [wordsValue_add, hWidth, zero_add, add_mul, mul_assoc, ← pow_add]
  have hFrom1 : intg1 + frac1 = intg1 - intg2 + (common + frac1) := by omega
  have hFrom2 : intg2 + frac2 = intg2 - intg1 + (common + frac2) := by omega
  have hWidth : top + frac0 = top - common + (common + frac0) := by omega
  rw [hFrom1, hFrom2, hSplit _ _ _ (by omega), hSplit _ _ _ (by omega), hWidth]
  linear_combination hTail + (10 ^ 9) ^ (common + frac0) * hHead

omit hCommon

/-- The loops add two numbers whose points are aligned, if the target has room for the sum. -/
theorem addLoops_value (h₁ : ∀ i < intg1 + frac1, from1 i < 10 ^ 9)
    (h₂ : ∀ i < intg2 + frac2, from2 i < 10 ^ 9) (hTop : top = max intg1 intg2) (hFirst : intg0 ≤ top + 1)
    (hIntg : top ≤ intg0) (hZero : top < intg0 → mem 0 = 0) (hFrac : frac0 = max frac1 frac2)
    (hFits : wordsValue from1 0 (intg1 + frac1) * (10 ^ 9) ^ (frac0 - frac1) +
        wordsValue from2 0 (intg2 + frac2) * (10 ^ 9) ^ (frac0 - frac2) < (10 ^ 9) ^ (intg0 + frac0)) :
    (∀ i < intg0 + frac0, addLoops from1 from2 intg1 frac1 intg2 frac2 intg0 frac0 mem i < 10 ^ 9) ∧
    wordsValue (addLoops from1 from2 intg1 frac1 intg2 frac2 intg0 frac0 mem) 0 (intg0 + frac0) =
      wordsValue from1 0 (intg1 + frac1) * (10 ^ 9) ^ (frac0 - frac1) +
        wordsValue from2 0 (intg2 + frac2) * (10 ^ 9) ^ (frac0 - frac2) := by
  obtain ⟨common, hCommon⟩ : ∃ common, common = min intg1 intg2 := ⟨_, rfl⟩
  obtain ⟨carry, mem₁, v, hTail, hWrote₁, hCarry₁, hSum₁⟩ :=
    addTail_wrote hCommon mem h₁ h₂ (by omega : common ≤ intg0) hFrac
  obtain ⟨carry', mem₂, w, hHead, hWrote₂, hCarry₂, hSum₂⟩ :=
    addHead_wrote hCommon hTop mem₁ (fun i hi => h₁ i (by omega)) (fun i hi => h₂ i (by omega)) hIntg hCarry₁
  have hWrote := hWrote₁.join hWrote₂ (k := top + frac0) (by omega) (by omega)
  have hSum := alignedSum hCommon hTop hFrac hSum₁ hSum₂
  set total := w * (10 ^ 9) ^ (common + frac0) + v
  rw [← hSum] at hFits ⊢
  rw [addLoops, hTail]
  dsimp only
  rw [hHead]
  rcases lt_or_ge top intg0 with hRoom | hNone
  · have hFirstWord : mem₂ 0 = 0 := by rw [hWrote.else_same 0 (.inl (by omega)), hZero hRoom]
    have hOne : intg0 - top = 1 := by omega
    have hOut : (if carry' ≠ 0 then update mem₂ (1 - 1) 1 else mem₂) = update mem₂ 0 carry' := by
      split_ifs with hLast
      · obtain rfl : carry' = 1 := by omega
        rfl
      · obtain rfl : carry' = mem₂ 0 := by omega
        rw [update_eq_self]
    rw [hOne] at hWrote ⊢
    rw [hOut]
    have hAll := hWrote.join (Wrote.singleton (x := carry') (by omega)) (k := intg0 + frac0) rfl (by omega)
    exact ⟨by simpa using hAll.word, by rw [← add_comm (carry' * _)]; exact hAll.value⟩
  · obtain rfl : intg0 = top := by omega
    obtain rfl : carry' = 0 := by
      by_contra hLast
      obtain rfl : carry' = 1 := by omega
      omega
    exact ⟨by simpa using hWrote.word, by simpa using hWrote.value⟩

end Loops

variable {from1 from2 target : Decimal}

private theorem wordsValue_lt_first {buf : Nat → Nat} {n : Nat} (h : ∀ i < n, buf i < 10 ^ 9) {m : Nat}
    (hn : n ≤ m + 1) : wordsValue buf 0 n * (10 ^ 9) ^ (m + 1 - n) < (buf 0 + 1) * (10 ^ 9) ^ m := by
  cases n with
  | zero =>
    rw [wordsValue, zero_mul]
    positivity
  | succ n =>
    have hRest : wordsValue buf 1 n < (10 ^ 9) ^ n :=
      wordsValue_lt fun i hi => by
        rw [add_comm]
        exact h (i + 1) (by omega)
    have hWords : m = n + (m + 1 - (n + 1)) := by omega
    calc wordsValue buf 0 (n + 1) * (10 ^ 9) ^ (m + 1 - (n + 1))
        < (buf 0 + 1) * (10 ^ 9) ^ n * (10 ^ 9) ^ (m + 1 - (n + 1)) := by
          refine Nat.mul_lt_mul_of_pos_right ?_ (by positivity)
          rw [add_mul, one_mul]
          exact Nat.add_lt_add_left hRest _
      _ = (buf 0 + 1) * (10 ^ 9) ^ m := by rw [mul_assoc, ← pow_add, ← hWords]

/-- A number whose first word stands in front of `m` others is below that word's successor. -/
private theorem aligned_lt_first {d : Decimal} (h : d.WellFormed) {frac top m : Nat} (hFrac : roundUp d.frac ≤ frac)
    (hTop : roundUp d.intg ≤ top) (hm : top + frac = m + 1) :
    d.aligned frac < (if roundUp d.intg = top then d.buf 0 + 1 else 1) * (10 ^ 9) ^ m := by
  split_ifs with hFirst
  · have hWords : frac - roundUp d.frac = m + 1 - (roundUp d.intg + roundUp d.frac) := by omega
    rw [Decimal.aligned, hWords]
    exact wordsValue_lt_first h.word (by omega)
  · rw [one_mul]
    exact (h.aligned_lt hFrac).trans_le (Nat.pow_le_pow_right (by decide) (by omega))

/-- `do_add` provides for a carry whenever the sum has one. -/
theorem aligned_add_lt (h₁ : from1.WellFormed) (h₂ : from2.WellFormed) {frac : Nat}
    (hFrac₁ : roundUp from1.frac ≤ frac) (hFrac₂ : roundUp from2.frac ≤ frac) :
    from1.aligned frac + from2.aligned frac < (10 ^ 9) ^ (addIntg from1 from2 + frac) := by
  have hLt₁ := h₁.aligned_lt hFrac₁
  have hLt₂ := h₂.aligned_lt hFrac₂
  unfold addIntg
  obtain ⟨top, hTop⟩ : ∃ top, top = max (roundUp from1.intg) (roundUp from2.intg) := ⟨_, rfl⟩
  rw [← hTop]
  split_ifs with hCarry
  · have hMono {m : Nat} (h : m ≤ top + frac) : (10 ^ 9) ^ m ≤ (10 ^ 9) ^ (top + frac) :=
      Nat.pow_le_pow_right (by decide) h
    have hLe₁ := hMono (by omega : roundUp from1.intg + frac ≤ top + frac)
    have hLe₂ := hMono (by omega : roundUp from2.intg + frac ≤ top + frac)
    rw [add_right_comm]
    omega
  · rw [add_zero]
    cases hm : top + frac with
    | zero =>
      rw [show roundUp from1.intg + frac = 0 by omega] at hLt₁
      rw [show roundUp from2.intg + frac = 0 by omega] at hLt₂
      omega
    | succ m =>
      have hFirst₁ := aligned_lt_first h₁ hFrac₁ (by omega) hm
      have hFirst₂ := aligned_lt_first h₂ hFrac₂ (by omega) hm
      simp only [mayCarry, decide_eq_true_eq, not_lt] at hCarry
      have hRoom : (if roundUp from1.intg = top then from1.buf 0 + 1 else 1) +
          (if roundUp from2.intg = top then from2.buf 0 + 1 else 1) ≤ 10 ^ 9 := by
        split_ifs at hCarry ⊢ <;> omega
      refine (Nat.add_lt_add hFirst₁ hFirst₂).trans_le ?_
      rw [← add_mul, pow_succ' (10 ^ 9)]
      exact Nat.mul_le_mul_right _ hRoom

/-- The words of the sum when the fraction is cut to `frac0` words -/
private theorem addLoops_aligned (h₁ : from1.WellFormed) (h₂ : from2.WellFormed) {frac0 : Nat}
    (h₀ : frac0 ≤ max (roundUp from1.frac) (roundUp from2.frac)) {mem : Nat → Nat}
    (hZero : mayCarry from1 from2 → mem 0 = 0) :
    let frac := max (roundUp from1.frac) (roundUp from2.frac)
    let buf := addLoops from1.buf from2.buf (roundUp from1.intg) (min (roundUp from1.frac) frac0)
      (roundUp from2.intg) (min (roundUp from2.frac) frac0) (addIntg from1 from2) frac0 mem
    (∀ i < addIntg from1 from2 + frac0, buf i < 10 ^ 9) ∧
      wordsValue buf 0 (addIntg from1 from2 + frac0) =
        from1.aligned frac / (10 ^ 9) ^ (frac - frac0) + from2.aligned frac / (10 ^ 9) ^ (frac - frac0) := by
  intro frac buf
  have hDiv₁ := h₁.aligned_div (le_max_left _ _ : roundUp from1.frac ≤ frac) h₀
  have hDiv₂ := h₂.aligned_div (le_max_right _ _ : roundUp from2.frac ≤ frac) h₀
  have hSum := aligned_add_lt h₁ h₂ (le_max_left _ _ : roundUp from1.frac ≤ frac) (le_max_right _ _)
  have hCut : from1.aligned frac / (10 ^ 9) ^ (frac - frac0) + from2.aligned frac / (10 ^ 9) ^ (frac - frac0) <
      (10 ^ 9) ^ (addIntg from1 from2 + frac0) := by
    refine Nat.div_add_div_le_add_div.trans_lt ?_
    rw [Nat.div_lt_iff_lt_mul (by positivity), ← pow_add]
    rwa [show addIntg from1 from2 + frac0 + (frac - frac0) = addIntg from1 from2 + frac by omega]
  have hMax : max (min (roundUp from1.frac) frac0) (min (roundUp from2.frac) frac0) = frac0 := by omega
  have hFirst : addIntg from1 from2 ≤ max (roundUp from1.intg) (roundUp from2.intg) + 1 := by
    unfold addIntg
    split <;> omega
  rw [hDiv₁, hDiv₂] at hCut ⊢
  exact addLoops_value (fun i hi => h₁.word i (by omega)) (fun i hi => h₂.word i (by omega)) rfl hFirst
    (Nat.le_add_right ..) (fun hRoom => hZero (by by_contra hNone; simp [addIntg, hNone] at hRoom))
    hMax.symm hCut

private theorem doAdd_overflow (h : target.len < addIntg from1 from2) :
    (doAdd from1 from2 target).2 = .overflow := by
  rw [doAdd, fixIntgFracError, if_pos (by omega), if_pos h]

private theorem doAdd_fits (h : addIntg from1 from2 ≤ target.len) {frac frac0 : Nat}
    (hFrac : frac = max (roundUp from1.frac) (roundUp from2.frac))
    (hFrac0 : frac0 = min frac (target.len - addIntg from1 from2)) :
    ∃ mem, (mayCarry from1 from2 → mem 0 = 0) ∧ doAdd from1 from2 target = ({ target with
            sign := from1.sign
            intg := addIntg from1 from2 * 9
            frac := min (max from1.frac from2.frac) (frac0 * 9)
            buf := addLoops from1.buf from2.buf (roundUp from1.intg) (min (roundUp from1.frac) frac0)
              (roundUp from2.intg) (min (roundUp from2.frac) frac0) (addIntg from1 from2) frac0 mem },
          if addIntg from1 from2 + frac ≤ target.len then .ok else .truncated) := by
  obtain ⟨mem, hMem⟩ : ∃ m, (if mayCarry from1 from2 then update target.buf 0 0 else target.buf) = m :=
    ⟨_, rfl⟩
  refine ⟨mem, fun hCarry => by simp [← hMem, hCarry], ?_⟩
  have hIntg : max (roundUp from1.intg) (roundUp from2.intg) ≤ addIntg from1 from2 := Nat.le_add_right ..
  rw [doAdd, hMem, ← hFrac, fixIntgFracError]
  by_cases hAll : addIntg from1 from2 + frac ≤ target.len
  · have hSame : frac0 = frac := by omega
    rw [if_neg (by omega), if_pos hAll, hSame, min_eq_left (max_le_of_roundUp hFrac),
      min_eq_left (by omega), min_eq_left (by omega)]
  · have hKept : target.len - addIntg from1 from2 = frac0 := by omega
    rw [if_pos (by omega), if_neg (by omega), if_neg hAll, hKept]
    dsimp only
    rw [min_eq_left (by omega : roundUp from1.intg ≤ _), min_eq_left (by omega : roundUp from2.intg ≤ _)]

/-- `do_add` adds the absolute values. -/
theorem doAdd_settles (target : Decimal) (h₁ : from1.WellFormed) (h₂ : from2.WellFormed) {frac : Nat}
    (hFrac : frac = max (roundUp from1.frac) (roundUp from2.frac)) :
    Settles from1 from2 target (addIntg from1 from2, frac)
      (signOf from1.sign * ((from1.aligned frac + from2.aligned frac : Nat) / (10 ^ 9) ^ frac))
      (doAdd from1 from2 target) := by
  have hSum := aligned_add_lt h₁ h₂ (by omega : roundUp from1.frac ≤ frac) (by omega : roundUp from2.frac ≤ frac)
  rcases lt_or_ge target.len _ with hOver | hFits
  · exact settles_of_overflow hOver (doAdd_overflow hOver) (abs_signed_lt _ hSum)
  · set frac0 := min frac _ with hFrac0
    obtain ⟨mem, hZero, hEq⟩ := doAdd_fits hFits hFrac hFrac0
    obtain ⟨hWord, hValue⟩ := addLoops_aligned h₁ h₂ (hFrac ▸ (by omega : frac0 ≤ frac)) hZero
    rw [← hFrac] at hValue
    have hUnit : 0 < (10 ^ 9) ^ (frac - frac0) := by positivity
    have hLe₁ := Nat.div_mul_le_self (from1.aligned frac) ((10 ^ 9) ^ (frac - frac0))
    have hLe₂ := Nat.div_mul_le_self (from2.aligned frac) ((10 ^ 9) ^ (frac - frac0))
    have hLt₁ := Nat.lt_div_mul_add (a := from1.aligned frac) hUnit
    have hLt₂ := Nat.lt_div_mul_add (a := from2.aligned frac) hUnit
    rw [hEq]
    refine settles_of_words _ hFrac hFits hFrac0 hWord hValue (fun hAll => ?_) ?_ hSum ?_ ?_
    · rw [hAll, Nat.sub_self, pow_zero, Nat.div_one, Nat.div_one]
    · exact Nat.dvd_add (h₁.dvd_aligned (by omega) (le_max_left ..)) (h₂.dvd_aligned (by omega) (le_max_right ..))
    · linarith only [hUnit, hLe₁, hLe₂]
    · linarith only [hLt₁, hLt₂]

end MySQL.Decimals
