import MySQL.Strings.Decimal.Binary

/-! What `decimal2bin` writes. The digits of a decimal are those of one number
of `precision` digits, stored group by group; padding, the sharing of byte
counts between digit counts and the sign mask all agree with this. -/
namespace MySQL.Decimals
open List Library DigitGroup Nat

/-! ### The format -/

variable {k : Nat}

theorem dig2bytes_eq (h : k < 9) : dig2bytes k = (k + 1) / 2 := by
  interval_cases k <;> rfl

theorem binBytes_eq (n : Nat) : binBytes n = n / 9 * 4 + (n % 9 + 1) / 2 := by
  have hMod : n - n / 9 * 9 = n % 9 := by omega
  rw [binBytes, hMod, dig2bytes_eq (mod_lt n (by decide))]

def digitGroup (digits : Nat) : DigitGroup where
  base := 10 ^ min digits 9
  width := dig2bytes (min digits 9)
  pos := Nat.pow_pos (by decide)
  fits := by
    have h : min digits 9 ≤ 9 := Nat.min_le_right ..
    generalize min digits 9 = k at h ⊢
    interval_cases k <;> decide

theorem digitGroup_base (h : k ≤ 9) : (digitGroup k).base = 10 ^ k := by
  simp [digitGroup, h]

theorem digitGroup_width (h : k ≤ 9) : (digitGroup k).width = dig2bytes k := by
  simp [digitGroup, h]

def fullGroups (n : Nat) : List DigitGroup :=
  List.replicate n (digitGroup 9)

def intgLayout (digits : Nat) : List DigitGroup :=
  digitGroup (digits % 9) :: fullGroups (digits / 9)

def fracLayout (digits : Nat) : List DigitGroup :=
  fullGroups (digits / 9) ++ [digitGroup (digits % 9)]

def layout (precision scale : Nat) : List DigitGroup :=
  intgLayout (precision - scale) ++ fracLayout scale

section
variable (n : Nat)
include n

theorem fullGroups_succ : fullGroups (n + 1) = digitGroup 9 :: fullGroups n := rfl

theorem capacity_fullGroups : capacity (fullGroups n) = (10 ^ 9) ^ n := by
  rw [fullGroups, capacity_replicate, digitGroup_base (le_refl 9)]

theorem size_fullGroups : size (fullGroups n) = n * 4 := by
  simp [fullGroups, DigitGroup.size, digitGroup_width _, dig2bytes]

private theorem mod_nine_le : n % 9 ≤ 9 :=
  le_of_lt (mod_lt n (by decide))

theorem pow_mod_mul_pow_div : 10 ^ (n % 9) * (10 ^ 9) ^ (n / 9) = 10 ^ n := by
  rw [← pow_mul, ← pow_add, mod_add_div]

theorem capacity_intgLayout : capacity (intgLayout n) = 10 ^ n := by
  rw [intgLayout, capacity_cons, capacity_fullGroups, digitGroup_base (mod_nine_le n),
    pow_mod_mul_pow_div]

theorem capacity_fracLayout : capacity (fracLayout n) = 10 ^ n := by
  rw [fracLayout, capacity_append, capacity_fullGroups, capacity_cons,
    capacity_nil, mul_one, digitGroup_base (mod_nine_le n), mul_comm,
    pow_mod_mul_pow_div]

theorem size_intgLayout : size (intgLayout n) = binBytes n := by
  have hSize := size_fullGroups (n / 9)
  unfold DigitGroup.size at hSize ⊢
  rw [intgLayout, map_cons, sum_cons, hSize, digitGroup_width (mod_nine_le n),
    dig2bytes_eq (mod_lt n (by decide)), binBytes_eq, add_comm]

theorem size_fracLayout : size (fracLayout n) = binBytes n := by
  have hSize := size_fullGroups (n / 9)
  unfold DigitGroup.size at hSize ⊢
  rw [fracLayout, map_append, List.sum_append_nat, hSize, map_singleton, sum_singleton,
    digitGroup_width (mod_nine_le n), dig2bytes_eq (mod_lt n (by decide)), binBytes_eq]

end

variable {scale : Nat}

theorem capacity_layout {precision : Nat} (h : scale ≤ precision) :
    capacity (layout precision scale) = 10 ^ precision := by
  rw [layout, capacity_append, capacity_intgLayout, capacity_fracLayout, ← pow_add,
    Nat.sub_add_cancel h]

theorem size_layout (precision scale : Nat) :
    size (layout precision scale) = decimalBinSize precision scale := by
  have hIntg := size_intgLayout (precision - scale)
  have hFrac := size_fracLayout scale
  unfold DigitGroup.size at hIntg hFrac ⊢
  rw [layout, map_append, List.sum_append_nat, hIntg, hFrac, decimalBinSize]

/-! ### Bytes under the mask -/

def flipByte (mask : Bool) (b : Nat) : Nat :=
  if mask then 255 - b else b

theorem miStore_succ (n : Nat) (x : Int) :
    miStore (n + 1) x = (x / 256 ^ n % 256).toNat :: miStore n x := by
  simp [miStore, range_succ]

theorem miStore_masked (mask : Bool) (n x : Nat) :
    miStore n (masked mask x) = (toBytes n x).map (flipByte mask) := by
  induction n with
  | zero => rfl
  | succ n ih =>
    rw [miStore_succ, toBytes]
    congr 1
    cases mask with
    | false =>
      exact congrArg Int.toNat (by norm_cast)
    | true =>
      have hNeg : -(x : Int) - 1 = Int.negSucc x := by omega
      have hPos : (0 : Int) < 256 ^ n := by positivity
      simp only [masked, flipByte, if_true, hNeg]
      rw [Int.negSucc_ediv _ hPos]
      have hCast : (x : Int).ediv (256 ^ n) = ((x / 256 ^ n : Nat) : Int) := by
        rfl
      omega

theorem replicate_maskByte (mask : Bool) (n : Nat) :
    List.replicate n (maskByte mask) = (List.replicate n 0).map (flipByte mask) := by
  rw [map_replicate]
  cases mask <;> rfl

/-! ### The integer part -/

variable {n m : Nat}

/-- A number that needs fewer digits begins with zero bytes. -/
private theorem encode_intgLayout_succ (h : m < 10 ^ n) : encode (intgLayout (n + 1)) m =
      List.replicate (binBytes (n + 1) - binBytes n) 0 ++ encode (intgLayout n) m := by
  have hHigh : m / (10 ^ 9) ^ (n / 9) < 10 ^ (n % 9) := by
    apply Nat.div_lt_of_lt_mul
    rwa [mul_comm, pow_mod_mul_pow_div]
  simp only [binBytes_eq]
  by_cases hFull : n % 9 = 8
  · have hDiv : (n + 1) / 9 = n / 9 + 1 := by omega
    have hMod : (n + 1) % 9 = 0 := by omega
    have hSmall : m < (10 ^ 9) ^ (n / 9 + 1) := by
      refine h.trans_le ?_
      rw [← pow_mul]
      exact Nat.pow_le_pow_right (by decide) (by omega)
    have hSame : (n / 9 + 1) * 4 + (0 + 1) / 2 - (n / 9 * 4 + (8 + 1) / 2) = 0 := by omega
    rw [intgLayout, intgLayout, hDiv, hMod, hFull, hSame, replicate_zero,
      encode, capacity_fullGroups, mod_eq_of_lt hSmall, fullGroups_succ,
      encode, encode]
    simp [digitGroup, dig2bytes, toBytes]
  · have hDiv : (n + 1) / 9 = n / 9 := by omega
    have hMod : (n + 1) % 9 = n % 9 + 1 := by omega
    have hLe : n % 9 + 1 ≤ 9 := by omega
    have hWidth : dig2bytes (n % 9 + 1) =
        ((n % 9 + 1 + 1) / 2 - (n % 9 + 1) / 2) + dig2bytes (n % 9) := by
      rw [dig2bytes_eq (by omega), dig2bytes_eq (by omega)]
      omega
    have hPad : n / 9 * 4 + (n % 9 + 1 + 1) / 2 - (n / 9 * 4 + (n % 9 + 1) / 2) =
        (n % 9 + 1 + 1) / 2 - (n % 9 + 1) / 2 := by omega
    have hFits : m / (10 ^ 9) ^ (n / 9) < 256 ^ dig2bytes (n % 9) := by
      have hBase := (digitGroup (n % 9)).fits
      rw [digitGroup_base (mod_nine_le n), digitGroup_width (mod_nine_le n)] at hBase
      exact hHigh.trans_le hBase
    rw [intgLayout, intgLayout, hDiv, hMod, hPad, encode, encode,
      capacity_fullGroups, digitGroup_width hLe, digitGroup_width (mod_nine_le n), hWidth,
      toBytes_pad hFits, append_assoc]

theorem binBytes_mono (h : m ≤ n) : binBytes m ≤ binBytes n := by
  simp only [binBytes_eq]
  omega

theorem encode_intgLayout_pad (hk : k ≤ n) (h : m < 10 ^ k) : encode (intgLayout n) m =
      List.replicate (binBytes n - binBytes k) 0 ++ encode (intgLayout k) m := by
  induction n, hk using le_induction with
  | base => simp
  | succ n hk ih =>
    have hSmall : m < 10 ^ n := h.trans_le (Nat.pow_le_pow_right (by decide) hk)
    have hStep := binBytes_mono (le_add_right n 1)
    have hMono := binBytes_mono hk
    rw [encode_intgLayout_succ hSmall, ih, ← append_assoc, ← replicate_add]
    congr 2
    omega

section
variable {mask : Bool} {buf : Nat → Nat} {pos n : Nat}

theorem storeWords_succ (mask : Bool) (buf : Nat → Nat) (pos n : Nat) :
    storeWords mask buf pos (n + 1) =
      miStore 4 (masked mask (buf pos)) ++ storeWords mask buf (pos + 1) n := by
  simp [storeWords, range_succ_eq_map, flatMap_map, add_assoc, add_comm 1]

theorem storeWords_add (mask : Bool) (buf : Nat → Nat) (pos m n : Nat) :
    storeWords mask buf pos (m + n) =
      storeWords mask buf pos m ++ storeWords mask buf (pos + m) n := by
  induction m generalizing pos with
  | zero => simp [storeWords]
  | succ m ih =>
    rw [succ_add, storeWords_succ, storeWords_succ, ih, append_assoc,
      add_assoc pos 1 m, add_comm 1 m]

/-- Full words are stored as they are. -/
theorem storeWords_eq_encode (h : ∀ i < n, buf (pos + i) < 10 ^ 9) : storeWords mask buf pos n =
      (encode (fullGroups n) (wordsValue buf pos n)).map (flipByte mask) := by
  induction n generalizing pos with
  | zero => rfl
  | succ n ih =>
    have hTail := words_lt_tail h
    have hRest := wordsValue_lt hTail
    rw [storeWords_succ, ih hTail, miStore_masked, fullGroups_succ, encode,
      capacity_fullGroups, wordsValue_succ_div hRest, wordsValue_succ_mod hRest]
    rfl

theorem storeWords_length : (storeWords mask buf pos n).length = n * 4 := by
  induction n generalizing pos with
  | zero => rfl
  | succ n ih => simp [storeWords_succ, ih, miStore, succ_mul, add_comm]

end

variable {pos : Nat} {mask : Bool}

/-- The integer part is stored in the words in use. -/
theorem encode_significant {d : Decimal} (h : d.WellFormed) (hDigits : Significant d pos k) :
    storeLead mask (d.buf pos) (k % 9) ++
        storeWords mask d.buf (pos + if k % 9 ≠ 0 then 1 else 0) (k / 9) =
      (encode (intgLayout k) d.integerPart).map (flipByte mask) := by
  have hWord : ∀ i < roundUp k, d.buf (pos + i) < 10 ^ 9 := by
    intro i hi
    apply h.word
    have hWords := hDigits.words
    omega
  rw [intgLayout, encode, capacity_fullGroups, digitGroup_width (mod_nine_le k), map_append]
  by_cases hFull : k % 9 = 0
  · have hWords : roundUp k = k / 9 := by
      unfold roundUp
      omega
    have hValue := hDigits.value
    rw [hWords] at hValue hWord
    have hSmall : d.integerPart < (10 ^ 9) ^ (k / 9) := hValue ▸ wordsValue_lt hWord
    rw [storeWords_eq_encode (by simpa [hFull] using hWord), mod_eq_of_lt hSmall]
    simp [storeLead, hFull, hValue, dig2bytes, toBytes]
  · have hWords : roundUp k = k / 9 + 1 := by
      unfold roundUp
      omega
    have hValue := hDigits.value
    rw [hWords] at hValue hWord
    have hTail := words_lt_tail hWord
    have hRest := wordsValue_lt hTail
    have hDiv : d.integerPart / (10 ^ 9) ^ (k / 9) = d.buf pos := by
      rw [← hValue, wordsValue_succ_div hRest]
    have hMod : d.integerPart % (10 ^ 9) ^ (k / 9) = wordsValue d.buf (pos + 1) (k / 9) := by
      rw [← hValue, wordsValue_succ_mod hRest]
    have hLead : d.buf pos < 10 ^ (k % 9) := by
      rw [← hDiv]
      apply Nat.div_lt_of_lt_mul
      rw [mul_comm, pow_mod_mul_pow_div]
      exact hDigits.lt
    rw [if_pos hFull, storeWords_eq_encode hTail, hMod, storeLead, if_pos hFull, hDiv,
      mod_eq_of_lt hLead, miStore_masked]

/-! ### The fraction -/

/-- The first `9 * q + x` digits of the fraction whose words begin at `pos`. -/
def fractionDigits (buf : Nat → Nat) (pos : Nat) : (q x : Nat) → Nat
  | 0, x => buf pos / 10 ^ (9 - x)
  | q + 1, x => buf pos * 10 ^ (9 * q + x) + fractionDigits buf (pos + 1) q x

section
variable {mask : Bool} {buf : Nat → Nat} {pos n q x : Nat}

theorem fractionDigits_lt (h : ∀ i, buf (pos + i) < 10 ^ 9) (hx : x ≤ 9) :
    fractionDigits buf pos q x < 10 ^ (9 * q + x) := by
  induction q generalizing pos with
  | zero =>
    apply Nat.div_lt_of_lt_mul
    rw [← pow_add, mul_zero, zero_add, Nat.sub_add_cancel hx]
    exact h 0
  | succ q ih =>
    have hTail : fractionDigits buf (pos + 1) q x < 10 ^ (9 * q + x) :=
      ih fun i => by
        rw [add_assoc]
        exact h (1 + i)
    have hHead : buf pos + 1 ≤ 10 ^ 9 := h 0
    calc fractionDigits buf pos (q + 1) x
        < buf pos * 10 ^ (9 * q + x) + 10 ^ (9 * q + x) := Nat.add_lt_add_left hTail _
      _ = (buf pos + 1) * 10 ^ (9 * q + x) := by ring
      _ ≤ 10 ^ 9 * 10 ^ (9 * q + x) := mul_le_mul_right _ hHead
      _ = 10 ^ (9 * (q + 1) + x) := by
          rw [← pow_add]
          congr 1
          omega

private theorem add_mul_div {a p f c : Nat} (hp : 0 < p) :
    (a * p + f) * c / p = a * c + f * c / p := by
  rw [add_mul, mul_right_comm, add_comm, add_mul_div_right _ _ hp, add_comm]

/-- The digits are those of the words read as one number. -/
theorem fractionDigits_eq (h : ∀ i, buf (pos + i) < 10 ^ 9) (hZero : ∀ i, n ≤ i → buf (pos + i) = 0)
    (hx : x ≤ 9) :
    fractionDigits buf pos q x = wordsValue buf pos n * 10 ^ (9 * q + x) / (10 ^ 9) ^ n := by
  have hPos (k : Nat) : 0 < (10 ^ 9) ^ k := by positivity
  induction q generalizing pos n with
  | zero =>
    cases n with
    | zero => simp [fractionDigits, wordsValue, show buf pos = 0 from hZero 0 (le_refl 0)]
    | succ n =>
      have hRest : wordsValue buf (pos + 1) n < (10 ^ 9) ^ n :=
        wordsValue_lt (words_lt_tail fun i _ => h i)
      have hSmall : wordsValue buf (pos + 1) n * 10 ^ x / (10 ^ 9) ^ n < 10 ^ x :=
        Nat.div_lt_of_lt_mul (mul_lt_mul_of_pos_right hRest (by positivity))
      symm
      calc (buf pos * (10 ^ 9) ^ n + wordsValue buf (pos + 1) n) * 10 ^ (9 * 0 + x) /
            (10 ^ 9) ^ (n + 1)
          = (buf pos * 10 ^ x + wordsValue buf (pos + 1) n * 10 ^ x / (10 ^ 9) ^ n) / 10 ^ 9 := by
            rw [pow_succ (10 ^ 9) n, ← Nat.div_div_eq_div_mul, mul_zero, zero_add,
              add_mul_div (hPos n)]
        _ = (buf pos * 10 ^ x + wordsValue buf (pos + 1) n * 10 ^ x / (10 ^ 9) ^ n) /
              10 ^ x / 10 ^ (9 - x) := by
            rw [Nat.div_div_eq_div_mul, ← pow_add, Nat.add_sub_cancel' hx]
        _ = buf pos / 10 ^ (9 - x) := by
            rw [add_comm, add_mul_div_right _ _ (by positivity),
              div_eq_of_lt hSmall, zero_add]
  | succ q ih =>
    cases n with
    | zero =>
      have hNext := @ih (pos + 1) 0 (fun i => by rw [add_assoc]; exact h _)
        (fun i _ => by rw [add_assoc]; exact hZero _ (zero_le _))
      simp only [wordsValue, zero_mul] at hNext ⊢
      rw [fractionDigits, hNext, show buf pos = 0 from hZero 0 (le_refl 0)]
      simp
    | succ n =>
      have hNext := @ih (pos + 1) n (fun i => by rw [add_assoc]; exact h _)
        (fun i hi => by rw [add_assoc]; exact hZero _ (by omega))
      have hPow : (10 : Nat) ^ (9 * (q + 1) + x) = 10 ^ (9 * q + x) * 10 ^ 9 := by
        rw [← pow_add]
        congr 1
        omega
      rw [fractionDigits, hNext, wordsValue, hPow, pow_succ (10 ^ 9) n, ← mul_assoc,
        Nat.mul_div_mul_right _ _ (by decide), add_mul_div (hPos n)]

theorem encode_fractionDigits (h : ∀ i, buf (pos + i) < 10 ^ 9) (hx : x ≤ 9) :
    (encode (fullGroups q ++ [digitGroup x]) (fractionDigits buf pos q x)).map
        (flipByte mask) =
      storeWords mask buf pos q ++
        miStore (dig2bytes x) (masked mask (buf (pos + q) / 10 ^ (9 - x) : Nat)) := by
  induction q generalizing pos with
  | zero =>
    rw [miStore_masked]
    simp [fullGroups, encode, storeWords, fractionDigits, digitGroup_width hx]
  | succ q ih =>
    have hTail (i : Nat) : buf (pos + 1 + i) < 10 ^ 9 := by
      rw [add_assoc]
      exact h (1 + i)
    have hLt := fractionDigits_lt (q := q) hTail hx
    have hCapacity : capacity (fullGroups q ++ [digitGroup x]) = 10 ^ (9 * q + x) := by
      rw [capacity_append, capacity_fullGroups, capacity_cons,
        capacity_nil, mul_one, digitGroup_base hx, ← pow_mul, ← pow_add]
    rw [fullGroups_succ, cons_append, encode, hCapacity, fractionDigits,
      add_comm _, add_mul_div_right _ _ (by positivity),
      div_eq_of_lt hLt, zero_add, add_mul_mod_self_right, mod_eq_of_lt hLt,
      map_append, ih hTail, storeWords_succ, miStore_masked mask 4,
      add_assoc pos 1 q, add_comm 1 q]
    rfl

end

inductive FracFit (scale frac : Nat) : FracPart → Prop
  | cut (hFewer : binBytes scale < binBytes frac) :
      FracFit scale frac ⟨scale / 9, scale % 9, binBytes scale, true⟩
  | same (hDiv : frac / 9 = scale / 9) (hLe : frac % 9 ≤ scale % 9)
      (hBytes : (frac % 9 + 1) / 2 = (scale % 9 + 1) / 2) :
      FracFit scale frac ⟨scale / 9, frac % 9, binBytes scale, false⟩
  | full (hDiv : scale / 9 = frac / 9 + 1) (hMod : scale % 9 = 0) (hLe : 7 ≤ frac % 9) :
      FracFit scale frac ⟨frac / 9, frac % 9, binBytes scale, false⟩
  | widened (hDiv : frac / 9 = scale / 9) (hLt : frac % 9 < scale % 9) (hPos : 0 < frac % 9) :
      FracFit scale frac ⟨scale / 9, scale % 9, binBytes frac, false⟩
  | padded (hLe : roundUp frac ≤ scale / 9) (hFewer : binBytes frac < binBytes scale) :
      FracFit scale frac ⟨roundUp frac, 0, binBytes scale, false⟩

theorem fitFrac_fit {frac : Nat} (h : frac ≤ scale ∨ binBytes scale < binBytes frac) :
    FracFit scale frac (fitFrac scale frac) := by
  have hScale : scale - scale / 9 * 9 = scale % 9 := by omega
  have hFrac : frac - frac / 9 * 9 = frac % 9 := by omega
  have hScaleBytes := binBytes_eq scale
  have hFracBytes := binBytes_eq frac
  unfold fitFrac
  dsimp only
  rw [hScale, hFrac]
  split_ifs with hFewer hMore hDiv
  · exact .cut hFewer
  · rw [← hDiv]
    exact .widened hDiv.symm (by omega) (by omega)
  · have hRound : frac / 9 + 1 = roundUp frac := by
      unfold roundUp
      omega
    rw [hRound]
    refine .padded ?_ hMore.1
    omega
  · have hLe : frac ≤ scale := h.resolve_right hFewer
    by_cases hMore' : binBytes frac < binBytes scale
    · have hZero : frac % 9 = 0 := by
        by_contra hNe
        exact hMore ⟨hMore', hNe⟩
      have hRound : frac / 9 = roundUp frac := by
        unfold roundUp
        omega
      rw [hZero, hRound]
      refine .padded ?_ hMore'
      omega
    · by_cases hDiv : frac / 9 = scale / 9
      · rw [hDiv]
        exact .same hDiv (by omega) (by omega)
      · exact .full (by omega) (by omega) (by omega)

variable {digits : Nat}

private theorem widenDigits_eq {lim bytes fuel : Nat} (hLe : digits ≤ lim)
    (hFuel : lim ≤ digits + fuel) (hBytes : ∀ k, digits ≤ k → k < lim → dig2bytes k = bytes) :
    widenDigits lim bytes fuel digits = lim := by
  induction fuel generalizing digits with
  | zero => exact le_antisymm hLe hFuel
  | succ fuel ih =>
    rw [widenDigits]
    split_ifs with hMore
    · exact ih hMore.1 (by omega) fun k hk hLt => hBytes k (by omega) hLt
    · by_contra hNe
      have hLt : digits < lim := by omega
      exact hMore ⟨hLt, hBytes digits (le_refl _) hLt⟩

theorem storeTail_eq {word lim : Nat} (hLe : digits ≤ lim) (hLim : lim < 9)
    (hBytes : (digits + 1) / 2 = (lim + 1) / 2) : storeTail mask word digits lim =
      miStore (dig2bytes lim) (masked mask (word / 10 ^ (9 - lim) : Nat)) := by
  unfold storeTail
  split_ifs with hSome
  · have hSame : dig2bytes digits = dig2bytes lim := by
      rw [dig2bytes_eq (by omega), dig2bytes_eq hLim]
      exact hBytes
    rw [widenDigits_eq hLe (by omega), hSame]
    intro k hk hLt
    rw [dig2bytes_eq (by omega), dig2bytes_eq (by omega)]
    omega
  · have hZero : lim = 0 := by omega
    rw [hZero]
    rfl

theorem storeTail_full {word : Nat} (hLe : 7 ≤ digits) (hLt : digits < 9) :
    storeTail mask word digits 9 = miStore 4 (masked mask word) := by
  have hFour (k : Nat) (hk : 7 ≤ k) (hk9 : k < 9) : dig2bytes k = 4 := by
    rw [dig2bytes_eq hk9]
    omega
  unfold storeTail
  rw [if_pos (by omega)]
  rw [hFour digits hLe hLt, widenDigits_eq (le_of_lt hLt) (by omega)]
  · simp
  · intro k hk hLt'
    exact hFour k (by omega) hLt'

theorem storeWords_congr {buf buf' : Nat → Nat} {pos' : Nat}
    (h : ∀ i < n, buf' (pos' + i) = buf (pos + i)) :
    storeWords mask buf' pos' n = storeWords mask buf pos n := by
  simp only [storeWords, flatMap]
  congr 1
  apply map_congr_left
  intro i hi
  rw [h i (mem_range.mp hi)]

theorem miStore_zero (mask : Bool) (n : Nat) :
    miStore n (masked mask (0 : Nat)) = List.replicate n (maskByte mask) := by
  rw [miStore_masked, toBytes_zero, replicate_maskByte]

theorem storeWords_zero {buf : Nat → Nat} (h : ∀ i < n, buf (pos + i) = 0) :
    storeWords mask buf pos n = List.replicate (n * 4) (maskByte mask) := by
  induction n generalizing pos with
  | zero => simp [storeWords]
  | succ n ih =>
    have hTail : ∀ i < n, buf (pos + 1 + i) = 0 := by
      intro i hi
      rw [add_assoc, add_comm 1 i]
      exact h (i + 1) (succ_lt_succ hi)
    have hHead : buf pos = 0 := h 0 n.succ_pos
    rw [storeWords_succ, ih hTail, hHead, miStore_zero, ← replicate_add, succ_mul, add_comm]

namespace Decimal
variable (d : Decimal)

def fracWord (j : Nat) : Nat :=
  if j < roundUp d.frac then d.buf (roundUp d.intg + j) else 0

/-- The decimal as a number of units of the last stored digit, the digits
after that one cut off. -/
def scaled (scale : Nat) : Nat :=
  d.mantissa * 10 ^ scale / (10 ^ 9) ^ roundUp d.frac

variable {d}

theorem WellFormed.fracWord_lt (h : d.WellFormed) (j : Nat) : d.fracWord j < 10 ^ 9 := by
  unfold fracWord
  split_ifs with hj
  · exact h.word _ (by omega)
  · decide

theorem scaled_eq (h : d.WellFormed) (scale : Nat) : d.scaled scale =
      d.integerPart * 10 ^ scale + fractionDigits d.fracWord 0 (scale / 9) (scale % 9) := by
  have hFrac : wordsValue d.buf (roundUp d.intg) (roundUp d.frac) =
      wordsValue d.fracWord 0 (roundUp d.frac) := by
    have hShift : wordsValue (fun j => d.buf (roundUp d.intg + j)) 0 (roundUp d.frac) =
        wordsValue d.fracWord 0 (roundUp d.frac) := by
      apply wordsValue_congr
      intro i hi
      simp [fracWord, hi]
    rw [← hShift]
    exact (wordsValue_shift d.buf _ 0 _).symm
  rw [fractionDigits_eq (n := roundUp d.frac) (by simpa using h.fracWord_lt)
      (fun i hi => by simp [fracWord, not_lt.mpr hi]) (mod_nine_le scale), div_add_mod,
    scaled, mantissa, wordsValue_add, zero_add, hFrac, add_mul_div (by positivity)]
  rfl

end Decimal

/-- What `decimal2bin` writes for the fraction. -/
theorem encode_fraction {d : Decimal} (mask : Bool) (h : d.WellFormed)
    (hFits : d.frac ≤ scale ∨ binBytes scale < binBytes d.frac) {f : FracPart}
    (hf : f = fitFrac scale d.frac) {tail : List Nat}
    (hTail : tail = storeTail mask (d.buf (roundUp d.intg + f.frac1)) f.frac1x
      (if f.frac1 < scale / 9 then 9 else scale % 9)) :
    storeWords mask d.buf (roundUp d.intg) f.frac1 ++ tail ++ List.replicate
          (if binBytes d.frac < f.fsize0 then
            min (f.fsize0 - binBytes d.frac) (binBytes scale - (f.frac1 * 4 + tail.length))
          else 0) (maskByte mask) =
      (encode (fracLayout scale)
        (fractionDigits d.fracWord 0 (scale / 9) (scale % 9))).map (flipByte mask) := by
  have hMod : scale % 9 < 9 := mod_lt _ (by decide)
  have hFracMod : d.frac % 9 < 9 := mod_lt _ (by decide)
  have hScaleBytes := binBytes_eq scale
  have hFracBytes := binBytes_eq d.frac
  have hWord (j : Nat) (hj : j < roundUp d.frac) : d.fracWord j = d.buf (roundUp d.intg + j) := by
    simp [Decimal.fracWord, hj]
  have hWords (n : Nat) (hn : n ≤ roundUp d.frac) :
      storeWords mask d.buf (roundUp d.intg) n = storeWords mask d.fracWord 0 n := by
    apply storeWords_congr
    intro i hi
    rw [zero_add, hWord i (by omega)]
  have hRound : roundUp d.frac = (d.frac + 8) / 9 := rfl
  rw [fracLayout, encode_fractionDigits (by simpa using h.fracWord_lt) (mod_nine_le scale), zero_add]
  have hLast (hSome : scale % 9 ≠ 0 → scale / 9 < roundUp d.frac) : miStore (dig2bytes (scale % 9))
          (masked mask (d.buf (roundUp d.intg + scale / 9) / 10 ^ (9 - scale % 9) : Nat)) =
        miStore (dig2bytes (scale % 9))
          (masked mask (d.fracWord (scale / 9) / 10 ^ (9 - scale % 9) : Nat)) := by
    by_cases hZero : scale % 9 = 0
    · rw [hZero]
      rfl
    · rw [hWord _ (hSome hZero)]
  have hFit := fitFrac_fit hFits
  rw [← hf] at hFit
  cases hFit with
  | cut hFewer =>
    dsimp only at hTail ⊢
    rw [if_neg (lt_irrefl _), storeTail_eq (le_refl _) hMod rfl] at hTail
    rw [if_neg (by omega), replicate_zero, append_nil, hTail, hLast (by omega), hWords _ (by omega)]
  | same hDiv hLe hBytes =>
    dsimp only at hTail ⊢
    rw [if_neg (lt_irrefl _), storeTail_eq hLe hMod hBytes] at hTail
    rw [if_neg (by omega), replicate_zero, append_nil, hTail, hLast (by omega), hWords _ (by omega)]
  | full hDiv hScale hLe =>
    dsimp only at hTail ⊢
    have hSome : d.frac / 9 < roundUp d.frac := by
      omega
    rw [if_pos (by omega), storeTail_full hLe hFracMod, ← hWord _ hSome] at hTail
    rw [if_neg (by omega), replicate_zero, hTail, hScale, hDiv,
      hWords _ (le_of_lt hSome), storeWords_add]
    simp [storeWords, dig2bytes, miStore]
  | widened hDiv hLt hPos =>
    dsimp only at hTail ⊢
    rw [if_neg (lt_irrefl _), storeTail_eq (le_refl _) hMod rfl] at hTail
    rw [if_neg (lt_irrefl _), replicate_zero, append_nil, hTail,
      hLast (by omega), hWords _ (by omega)]
  | padded hLe hFewer =>
    have hNone : tail = [] := by rw [hTail]; rfl
    have hZero (j : Nat) (hj : roundUp d.frac ≤ j) : d.fracWord j = 0 := by
      simp [Decimal.fracWord, not_lt.mpr hj]
    obtain ⟨k, hk⟩ := Nat.exists_eq_add_of_le hLe
    have hFill : min (binBytes scale - binBytes d.frac)
        (binBytes scale - (roundUp d.frac * 4 + 0)) = k * 4 + dig2bytes (scale % 9) := by
      rw [dig2bytes_eq hMod]
      omega
    have hRest : storeWords mask d.fracWord (roundUp d.frac) k =
        replicate (k * 4) (maskByte mask) :=
      storeWords_zero fun i _ => hZero _ (Nat.le_add_right ..)
    rw [if_pos hFewer, hNone, append_nil, length_nil, hFill, hWords _ (le_refl _),
      hk, storeWords_add, zero_add, hRest, hZero _ (by omega), Nat.zero_div, miStore_zero, append_assoc, ← replicate_add]

/-! ### The whole number -/

theorem fitFrac_truncated (scale frac : Nat) :
    (fitFrac scale frac).truncated = decide (binBytes scale < binBytes frac) := by
  unfold fitFrac
  dsimp only
  split_ifs with hFewer
  all_goals simp [hFewer]

def storeError (scale frac : Nat) : DecError :=
  if binBytes scale < binBytes frac then .truncated else .ok

namespace Decimal

def storedSign (d : Decimal) : Bool :=
  !(d.integerPart = 0 ∧ d.frac = 0) && d.sign

/-- The bytes of the number `m` with a sign, in the format for this precision
and scale. -/
def stored (precision scale : Nat) (negative : Bool) (m : Nat) : List Nat :=
  flipFirst ((encode (layout precision scale) m).map (flipByte negative))

variable {d : Decimal} {precision scale pos k : Nat}

theorem WellFormed.fractionDigits_lt (h : d.WellFormed) (scale : Nat) :
    fractionDigits d.fracWord 0 (scale / 9) (scale % 9) < 10 ^ scale := by
  have hLt : fractionDigits d.fracWord 0 (scale / 9) (scale % 9) <
      10 ^ (9 * (scale / 9) + scale % 9) :=
    Decimals.fractionDigits_lt (by simpa using h.fracWord_lt) (mod_nine_le scale)
  rwa [div_add_mod] at hLt

section
variable (h : d.WellFormed) (hScale : scale ≤ precision)
  (hDigits : d.integerPart < 10 ^ (precision - scale))
include h hScale hDigits

theorem WellFormed.scaled_lt : d.scaled scale < 10 ^ precision := by
  have hFraction := h.fractionDigits_lt scale
  calc d.scaled scale < d.integerPart * 10 ^ scale + 10 ^ scale := by
        rw [scaled_eq h]
        exact Nat.add_lt_add_left hFraction _
    _ = (d.integerPart + 1) * 10 ^ scale := by ring
    _ ≤ 10 ^ (precision - scale) * 10 ^ scale := mul_le_mul_right _ hDigits
    _ = 10 ^ precision := by rw [← pow_add, Nat.sub_add_cancel hScale]

theorem encode_layout : encode (layout precision scale) (d.scaled scale) =
      encode (intgLayout (precision - scale)) d.integerPart ++
        encode (fracLayout scale)
          (fractionDigits d.fracWord 0 (scale / 9) (scale % 9)) := by
  have hLt := h.scaled_lt hScale hDigits
  have hFraction := h.fractionDigits_lt scale
  rw [← capacity_layout hScale] at hLt
  rw [layout, encode_append hLt, capacity_fracLayout, scaled_eq h,
    add_comm _, add_mul_div_right _ _ (by positivity),
    div_eq_of_lt hFraction, zero_add, add_mul_mod_self_right,
    mod_eq_of_lt hFraction]

end

theorem significant_eq_zero_iff (h : Significant d pos k) : k = 0 ↔ d.integerPart = 0 := by
  rw [← le_zero, h.le_iff, pow_zero, lt_one_iff]

private theorem binBytes_eq_zero {n : Nat} : binBytes n = 0 ↔ n = 0 := by
  rw [binBytes_eq]
  omega

/-- A zero without a fraction is stored from a word of its own. -/
private theorem decimal2bin_zero (hIntg : d.integerPart = 0) (hFrac : d.frac = 0)
    (hLeading : removeLeadingZeroes d = (pos, 0)) :
    decimal2bin d precision scale =
      (stored precision scale d.storedSign (d.scaled scale), storeError scale d.frac) := by
  have hScaled : d.scaled scale = 0 := by
    have hMantissa : d.mantissa = 0 := by
      have hNoFrac : roundUp d.frac = 0 := by simp [hFrac, roundUp]
      rw [mantissa, hNoFrac]
      exact hIntg
    rw [scaled, hMantissa, zero_mul, Nat.zero_div]
  have hBytes : binBytes 0 = 0 := rfl
  simp only [decimal2bin, hLeading, hFrac, hBytes, stored, storedSign, storeError, hScaled, hIntg,
    encode_zero, size_layout]
  simp [fitIntg, fitFrac, hBytes, storeLead, storeWords, storeTail, decimalBinSize, maskByte,
    flipByte]
  congr 3
  split_ifs <;> omega

/-- `decimal2bin` writes the number, cut to the scale, in the packed format. -/
theorem decimal2bin_eq (h : d.WellFormed) (hScale : scale ≤ precision)
    (hDigits : d.integerPart < 10 ^ (precision - scale))
    (hFits : d.frac ≤ scale ∨ binBytes scale < binBytes d.frac) :
    decimal2bin d precision scale =
      (stored precision scale d.storedSign (d.scaled scale), storeError scale d.frac) := by
  obtain ⟨pos, k, hLeading, hDigitsOf⟩ := removeLeadingZeroes_spec h
  by_cases hZero : d.integerPart = 0 ∧ d.frac = 0
  · obtain rfl := (significant_eq_zero_iff hDigitsOf).2 hZero.1
    exact decimal2bin_zero hZero.1 hZero.2 hLeading
  have hSome : ¬(k + binBytes d.frac = 0) := by
    rw [Nat.add_eq_zero_iff, significant_eq_zero_iff hDigitsOf, binBytes_eq_zero]
    exact hZero
  have hSign : d.storedSign = d.sign := by simp [storedSign, hZero]
  have hk : k ≤ precision - scale := hDigitsOf.le_iff.2 hDigits
  have hIntg : fitIntg (precision - scale) (precision - scale) k pos =
      ⟨binBytes (precision - scale) - binBytes k, pos, k / 9, k % 9, false⟩ := by
    have hMod : k - k / 9 * 9 = k % 9 := by omega
    simp [fitIntg, hk, hMod]
  have hWords : pos + (if k % 9 ≠ 0 then 1 else 0) + k / 9 = roundUp d.intg := by
    have hWords := hDigitsOf.words
    unfold roundUp at hWords ⊢
    split_ifs <;> omega
  have hMod : scale - scale / 9 * 9 = scale % 9 := by omega
  have hInteger : replicate (binBytes (precision - scale) - binBytes k) (maskByte d.sign) ++
      storeLead d.sign (d.buf pos) (k % 9) ++
        storeWords d.sign d.buf (pos + if k % 9 ≠ 0 then 1 else 0) (k / 9) =
      (encode (intgLayout (precision - scale)) d.integerPart).map (flipByte d.sign) := by
    rw [append_assoc, encode_significant h hDigitsOf, encode_intgLayout_pad hk hDigitsOf.lt,
      map_append, replicate_maskByte]
  have hFraction := encode_fraction d.sign h hFits rfl rfl
  simp only [decimal2bin, hLeading, hSome, decide_false, Bool.not_false, Bool.true_and, if_false,
    hIntg, hMod, Bool.false_eq_true, fitFrac_truncated, decide_eq_true_eq, storeWords_add, hWords,
    ← append_assoc, hInteger, stored, encode_layout h hScale hDigits, map_append, hSign,
    storeError, length_append, length_map, encode_length, size_intgLayout]
  rw [← hFraction]
  simp only [decimalBinSize, storeWords_length, add_assoc, Nat.add_sub_add_left, append_assoc]

end Decimal

end MySQL.Decimals
