import MySQL.Strings.Decimal.BinaryEncode

/-! `bin2decimal` reads back the number that was stored, and `decimal2bin`
followed by `bin2decimal` is the identity on values or a truncation. -/
namespace MySQL.Decimals
open List Library Function DigitGroup

private theorem two_mul_base_le {k : Nat} (hk : k ≤ 9) (hPos : 0 < k) :
    2 * 10 ^ k ≤ 256 ^ dig2bytes k := by
  interval_cases k <;> decide

theorem map_flipByte_false (bytes : List Nat) : bytes.map (flipByte false) = bytes := by
  conv_rhs => rw [← map_id bytes]
  rfl

private theorem fromBytes_flipByte {bytes : List Nat} (mask : Bool) (h : ∀ b ∈ bytes, b < 256) :
    (fromBytes (bytes.map (flipByte mask)) : Int) =
      if mask then 256 ^ bytes.length - 1 - (fromBytes bytes : Int) else (fromBytes bytes : Int) := by
  cases mask with
  | false => rw [map_flipByte_false, if_neg Bool.false_ne_true]
  | true =>
    have hFlip : bytes.map (flipByte true) = bytes.map (255 - ·) :=
      map_congr_left fun b _ => rfl
    have hSum := fromBytes_complement h
    rw [hFlip, if_pos rfl]
    have hCast : ((fromBytes (bytes.map (255 - ·)) + fromBytes bytes + 1 : Nat) : Int) =
        ((256 ^ bytes.length : Nat) : Int) := congrArg _ hSum
    push_cast at hCast
    omega

/-- A group is read back from its bytes, whichever sign they are stored with. -/
theorem miSintKorr_flipByte {n x : Nat} (mask : Bool) (hn : 0 < n) (hx : 2 * x < 256 ^ n)
    (rest : List Nat) :
    masked mask (miSintKorr n ((toBytes n x).map (flipByte mask) ++ rest)) = x := by
  have hLt : x < 256 ^ n := by omega
  have hTake : ((toBytes n x).map (flipByte mask) ++ rest).take n =
      (toBytes n x).map (flipByte mask) :=
    take_left' (by simp)
  have hHead : (128 ≤ ((toBytes n x).map (flipByte mask) ++ rest).headD 0) ↔ mask = true := by
    have hFirst := head_toBytes_lt hx
    cases hBytes : toBytes n x with
    | nil =>
      have hLength := congrArg length hBytes
      rw [toBytes_length] at hLength
      exact absurd hLength hn.ne'
    | cons b bytes =>
      rw [hBytes] at hFirst
      have hFirst : b < 128 := hFirst
      cases mask <;> simp [flipByte] <;> omega
  unfold miSintKorr
  simp only [hTake, hHead, fromBytes_flipByte mask (fun b => lt_of_mem_toBytes),
    fromBytes_toBytes, Nat.mod_eq_of_lt hLt, toBytes_length]
  cases mask with
  | false => simp [masked]
  | true =>
    simp only [masked, if_true]
    ring

namespace Reader
variable {mask : Bool} {n digits x q m : Nat} {rest : List Nat} {r : Reader}

def value (r : Reader) : Nat :=
  wordsValue r.buf 0 r.pos

private theorem value_update (word : Nat) :
    wordsValue (update r.buf r.pos word) 0 (r.pos + 1) = r.value * 10 ^ 9 + word := by
  have hFront : wordsValue (update r.buf r.pos word) 0 r.pos = r.value := by
    apply wordsValue_congr
    intro i hi
    rw [zero_add, update_of_ne (ne_of_lt hi)]
  rw [wordsValue_add, hFront, zero_add, wordsValue, wordsValue]
  simp

private theorem bytes_read (hn : 0 < n) (hx : 2 * x < 256 ^ n)
    (hBytes : r.bytes = (toBytes n x).map (flipByte mask) ++ rest) :
    r.bytes.drop n = rest ∧ (masked mask (miSintKorr n r.bytes)).toNat = x := by
  rw [hBytes]
  refine ⟨drop_left' (by simp), ?_⟩
  rw [miSintKorr_flipByte mask hn hx, Int.toNat_natCast]

section
variable (digits : Nat) (hn : 0 < n) (hx : 2 * x < 256 ^ n) (hBytes : r.bytes = (toBytes n x).map (flipByte mask) ++ rest)
include hn hx hBytes

theorem readIntg_spec :
    (readIntg mask n digits r).bytes = rest ∧
      (readIntg mask n digits r).value = r.value * 10 ^ 9 + x ∧
      ((readIntg mask n digits r).pos = r.pos + 1 ∧ (readIntg mask n digits r).intg = r.intg ∨
        (readIntg mask n digits r).pos = r.pos ∧
          (readIntg mask n digits r).intg = r.intg - digits) := by
  obtain ⟨hDrop, hWord⟩ := bytes_read hn hx hBytes
  unfold readIntg
  rw [hDrop, hWord]
  dsimp only
  split_ifs with hKeep
  · exact ⟨rfl, value_update x, .inl ⟨rfl, rfl⟩⟩
  · push Not at hKeep
    obtain ⟨hPos, rfl⟩ := hKeep
    have hPos : r.pos = 0 := Nat.le_zero.mp hPos
    refine ⟨rfl, ?_, .inr ⟨rfl, rfl⟩⟩
    simp [value, hPos, wordsValue]

theorem readFrac_spec :
    (readFrac mask n digits r).bytes = rest ∧
      (readFrac mask n digits r).value = r.value * 10 ^ 9 + x * 10 ^ (9 - digits) ∧
      (readFrac mask n digits r).pos = r.pos + 1 ∧ (readFrac mask n digits r).intg = r.intg := by
  obtain ⟨hDrop, hWord⟩ := bytes_read hn hx hBytes
  unfold readFrac
  rw [hDrop, hWord]
  exact ⟨rfl, value_update _, rfl, rfl⟩

end

/-- Reading full words one after the other. `Rank n` holds while `n` of them
are left. -/
theorem iterate_spec {read : Reader → Reader} (Rank : Nat → Reader → Prop)
    (hRead : ∀ (r : Reader) (x : Nat) (rest : List Nat), x < 10 ^ 9 →
      r.bytes = (toBytes 4 x).map (flipByte mask) ++ rest →
      (read r).bytes = rest ∧ (read r).value = r.value * 10 ^ 9 + x ∧
        ∀ n, Rank (n + 1) r → Rank n (read r))
    (hm : m < (10 ^ 9) ^ q) (hRank : Rank q r)
    (hBytes : r.bytes = (encode (fullGroups q) m).map (flipByte mask) ++ rest) :
    (read^[q] r).bytes = rest ∧ (read^[q] r).value = r.value * (10 ^ 9) ^ q + m ∧
      Rank 0 (read^[q] r) := by
  induction q generalizing r m with
  | zero =>
    obtain rfl := Nat.lt_one_iff.mp hm
    simpa [encode, fullGroups] using ⟨hBytes, hRank⟩
  | succ q ih =>
    have hPos : 0 < (10 ^ 9) ^ q := by positivity
    have hHigh : m / (10 ^ 9) ^ q < 10 ^ 9 := Nat.div_lt_of_lt_mul (by rwa [← pow_succ])
    rw [fullGroups_succ, encode, capacity_fullGroups, map_append] at hBytes
    obtain ⟨hRest, hValue, hNext⟩ := hRead r _ _ hHigh hBytes
    obtain ⟨hLast, hAll, hDone⟩ := ih (Nat.mod_lt m hPos) (hNext q hRank) hRest
    refine ⟨hLast, ?_, hDone⟩
    rw [iterate_succ_apply, hAll, hValue]
    conv_rhs => rw [← Nat.div_add_mod m ((10 ^ 9) ^ q)]
    ring

private theorem two_mul_lt_of_digits (hk : digits ≤ 9) (hPos : 0 < digits) (hx : x < 10 ^ digits) :
    2 * x < 256 ^ dig2bytes digits := by
  have hBase := two_mul_base_le hk hPos
  omega

private theorem dig2bytes_pos (hk : digits < 9) (hPos : 0 < digits) : 0 < dig2bytes digits := by
  rw [dig2bytes_eq hk]
  omega

/-- The first word of the integer part, which may have fewer than nine digits. -/
private theorem readLead_spec (hx : x < 10 ^ (n % 9))
    (hBytes : r.bytes = (toBytes (dig2bytes (n % 9)) x).map (flipByte mask) ++ rest)
    (hPos : r.pos = 0) (hIntg : r.intg = n) {r' : Reader}
    (hr' : r' = if n % 9 ≠ 0 then readIntg mask (dig2bytes (n % 9)) (n % 9) r else r) :
    r'.bytes = rest ∧ r'.value = x ∧ roundUp r'.intg = r'.pos + n / 9 := by
  have hMod : n % 9 < 9 := Nat.mod_lt n (by decide)
  have hStart : r.value = 0 := by simp [value, hPos, wordsValue]
  split_ifs at hr' with hLead
  · have hLeadPos : 0 < n % 9 := Nat.pos_of_ne_zero hLead
    obtain ⟨hRest, hValue, hPlace⟩ := readIntg_spec (n % 9) (dig2bytes_pos hMod hLeadPos)
      (two_mul_lt_of_digits hMod.le hLeadPos hx) hBytes
    rw [← hr'] at hRest hValue hPlace
    refine ⟨hRest, by rw [hValue, hStart, zero_mul, zero_add], ?_⟩
    unfold roundUp
    omega
  · have hZero : n % 9 = 0 := not_not.mp hLead
    rw [hZero, Nat.pow_zero, Nat.lt_one_iff] at hx
    have hNone : toBytes (dig2bytes (n % 9)) x = [] := by rw [hZero]; rfl
    rw [hNone, map_nil] at hBytes
    subst hr'
    refine ⟨hBytes, by rw [hStart, hx], ?_⟩
    unfold roundUp
    omega

theorem readIntgPart_spec (hm : m < 10 ^ n)
    (hBytes : r.bytes = (encode (intgLayout n) m).map (flipByte mask) ++ rest)
    (hPos : r.pos = 0) (hIntg : r.intg = n) {r' : Reader}
    (hr' : r' = (readIntg mask 4 9)^[n / 9]
      (if n % 9 ≠ 0 then readIntg mask (dig2bytes (n % 9)) (n % 9) r else r)) :
    r'.bytes = rest ∧ r'.value = m ∧ roundUp r'.intg = r'.pos := by
  have hMod : n % 9 ≤ 9 := le_of_lt (Nat.mod_lt n (by decide))
  have hPowPos : 0 < (10 ^ 9) ^ (n / 9) := by positivity
  have hHigh : m / (10 ^ 9) ^ (n / 9) < 10 ^ (n % 9) := by
    apply Nat.div_lt_of_lt_mul
    rwa [mul_comm, pow_mod_mul_pow_div]
  rw [intgLayout, encode, capacity_fullGroups, digitGroup_width hMod, map_append,
    append_assoc] at hBytes
  obtain ⟨hRest, hValue, hWords⟩ := readLead_spec hHigh hBytes hPos hIntg rfl
  have hRead (r : Reader) (x : Nat) (rest : List Nat) (hx : x < 10 ^ 9)
      (hBytes : r.bytes = (toBytes 4 x).map (flipByte mask) ++ rest) :
      (readIntg mask 4 9 r).bytes = rest ∧ (readIntg mask 4 9 r).value = r.value * 10 ^ 9 + x ∧
        ∀ n, roundUp r.intg = r.pos + (n + 1) →
          roundUp (readIntg mask 4 9 r).intg = (readIntg mask 4 9 r).pos + n := by
    obtain ⟨hRest, hValue, hPlace⟩ := readIntg_spec 9 (by decide : 0 < 4) (by omega) hBytes
    refine ⟨hRest, hValue, fun n hn => ?_⟩
    unfold roundUp at hn ⊢
    omega
  obtain ⟨hLast, hAll, hDone⟩ := iterate_spec (fun n r => roundUp r.intg = r.pos + n)
    hRead (Nat.mod_lt m hPowPos) hWords hRest
  rw [← hr'] at hLast hAll hDone
  refine ⟨hLast, ?_, hDone⟩
  rw [hAll, hValue, mul_comm, Nat.div_add_mod]

/-- The last word of the fraction, which may have fewer than nine digits. -/
private theorem readTail_spec (hDigits : digits < 9) (hx : x < 10 ^ digits)
    (hBytes : r.bytes = (toBytes (dig2bytes digits) x).map (flipByte mask) ++ rest) {r' : Reader}
    (hr' : r' = if digits ≠ 0 then readFrac mask (dig2bytes digits) digits r else r) :
    r'.value * 10 ^ digits = (r.value * 10 ^ digits + x) * (10 ^ 9) ^ roundUp digits ∧
      r'.pos = r.pos + roundUp digits ∧ r'.intg = r.intg := by
  split_ifs at hr' with hTail
  · have hTailPos : 0 < digits := Nat.pos_of_ne_zero hTail
    have hOne : roundUp digits = 1 := by
      unfold roundUp
      omega
    obtain ⟨-, hValue, hPos, hIntg⟩ := readFrac_spec digits (dig2bytes_pos hDigits hTailPos)
      (two_mul_lt_of_digits hDigits.le hTailPos hx) hBytes
    rw [← hr'] at hValue hPos hIntg
    have hPow : (10 : Nat) ^ (9 - digits) * 10 ^ digits = 10 ^ 9 := by
      rw [← pow_add, Nat.sub_add_cancel hDigits.le]
    refine ⟨?_, by rw [hPos, hOne], hIntg⟩
    rw [hValue, hOne, add_mul, mul_assoc x, hPow]
    ring
  · obtain rfl := not_not.mp hTail
    rw [Nat.pow_zero, Nat.lt_one_iff] at hx
    subst hr' hx
    simp [roundUp]

theorem readFracPart_spec (hm : m < 10 ^ n)
    (hBytes : r.bytes = (encode (fracLayout n) m).map (flipByte mask) ++ rest)
    {r₁ r' : Reader} (hr₁ : r₁ = (readFrac mask 4 9)^[n / 9] r)
    (hr' : r' = if n % 9 ≠ 0 then readFrac mask (dig2bytes (n % 9)) (n % 9) r₁ else r₁) :
    r'.value * 10 ^ n = (r.value * 10 ^ n + m) * (10 ^ 9) ^ roundUp n ∧
      r'.pos = r.pos + roundUp n ∧ r'.intg = r.intg := by
  have hMod : n % 9 < 9 := Nat.mod_lt n (by decide)
  have hCapacity : m < capacity (fullGroups (n / 9) ++ [digitGroup (n % 9)]) := by
    rwa [← fracLayout, capacity_fracLayout]
  have hHigh : m / 10 ^ (n % 9) < (10 ^ 9) ^ (n / 9) := by
    apply Nat.div_lt_of_lt_mul
    rwa [pow_mod_mul_pow_div]
  have hLow : m % 10 ^ (n % 9) < 10 ^ (n % 9) := Nat.mod_lt m (by positivity)
  rw [fracLayout, encode_append hCapacity, capacity_cons,
    capacity_nil, mul_one, digitGroup_base hMod.le, encode,
    encode, digitGroup_width hMod.le, capacity_nil, Nat.div_one,
    append_nil, map_append, append_assoc] at hBytes
  have hRead (s : Reader) (x : Nat) (rest : List Nat) (hx : x < 10 ^ 9)
      (hBytes : s.bytes = (toBytes 4 x).map (flipByte mask) ++ rest) :
      (readFrac mask 4 9 s).bytes = rest ∧ (readFrac mask 4 9 s).value = s.value * 10 ^ 9 + x ∧
        ∀ k, s.pos + (k + 1) = r.pos + n / 9 ∧ s.intg = r.intg →
          (readFrac mask 4 9 s).pos + k = r.pos + n / 9 ∧ (readFrac mask 4 9 s).intg = r.intg := by
    obtain ⟨hRest, hValue, hPos, hIntg⟩ := readFrac_spec 9 (by decide : 0 < 4) (by omega) hBytes
    refine ⟨hRest, by simpa using hValue, fun k hk => ?_⟩
    omega
  obtain ⟨hRest, hValue, hPos, hIntg⟩ :=
    iterate_spec (fun k s => s.pos + k = r.pos + n / 9 ∧ s.intg = r.intg) hRead hHigh
      ⟨rfl, rfl⟩ hBytes
  rw [← hr₁] at hRest hValue hPos hIntg
  obtain ⟨hLast, hLastPos, hLastIntg⟩ := readTail_spec hMod hLow hRest hr'
  have hRound : roundUp n = n / 9 + roundUp (n % 9) := by
    unfold roundUp
    omega
  refine ⟨?_, by omega, by omega⟩
  calc r'.value * 10 ^ n = r'.value * 10 ^ (n % 9) * (10 ^ 9) ^ (n / 9) := by
        rw [mul_assoc, pow_mod_mul_pow_div]
    _ = (r.value * (10 ^ (n % 9) * (10 ^ 9) ^ (n / 9)) +
          (10 ^ (n % 9) * (m / 10 ^ (n % 9)) + m % 10 ^ (n % 9))) *
          ((10 ^ 9) ^ roundUp (n % 9) * (10 ^ 9) ^ (n / 9)) := by
        rw [hLast, hValue]
        ring
    _ = (r.value * 10 ^ n + m) * (10 ^ 9) ^ roundUp n := by
        rw [pow_mod_mul_pow_div, Nat.div_add_mod, ← pow_add, hRound, add_comm (n / 9)]

end Reader

private theorem flipFirst_flipFirst (bytes : List Nat) : flipFirst (flipFirst bytes) = bytes := by
  cases bytes with
  | nil => rfl
  | cons b rest => simp only [flipFirst, Nat.xor_assoc, Nat.xor_self, Nat.xor_zero]

private theorem flipFirst_length (bytes : List Nat) : (flipFirst bytes).length = bytes.length := by
  cases bytes <;> rfl

section
variable {precision scale m : Nat}

private theorem layout_half {g : DigitGroup} (h : g ∈ layout precision scale) :
    g.width = 0 ∨ 2 * g.base ≤ 256 ^ g.width := by
  have hGroup : ∃ k ≤ 9, g = digitGroup k := by
    simp only [layout, intgLayout, fracLayout, fullGroups, cons_append, mem_cons,
      mem_append, mem_replicate, not_mem_nil, or_false] at h
    rcases h with rfl | ⟨-, rfl⟩ | ⟨-, rfl⟩ | rfl
    · exact ⟨_, le_of_lt (Nat.mod_lt _ (by decide)), rfl⟩
    · exact ⟨9, le_refl 9, rfl⟩
    · exact ⟨9, le_refl 9, rfl⟩
    · exact ⟨_, le_of_lt (Nat.mod_lt _ (by decide)), rfl⟩
  obtain ⟨k, hk, rfl⟩ := hGroup
  rw [digitGroup_base hk, digitGroup_width hk]
  rcases Nat.eq_zero_or_pos k with rfl | hPos
  · exact .inl rfl
  · exact .inr (two_mul_base_le hk hPos)

theorem Decimal.stored_length (negative : Bool) :
    (Decimal.stored precision scale negative m).length = decimalBinSize precision scale := by
  rw [stored, flipFirst_length, length_map, encode_length, size_layout]

set_option maxRecDepth 2000 in
private theorem xor_first : ∀ b < 128, b ^^^ 128 = b + 128 ∧ (255 - b) ^^^ 128 = 127 - b := by
  decide

section
variable (hPrecision : 0 < precision) (hScale : scale ≤ precision) (hm : m < 10 ^ precision)
include hPrecision hScale hm

/-- The stored bytes, of which the first has the sign in its first bit. -/
theorem Decimal.stored_bytes :
    ∃ b rest, b < 128 ∧ encode (layout precision scale) m = b :: rest ∧
      ∀ negative, Decimal.stored precision scale negative m =
        if negative then (127 - b) :: rest.map (255 - ·) else (b + 128) :: rest := by
  have hHead : (encode (layout precision scale) m).headD 0 < 128 :=
    head_encode_lt (fun g => layout_half) (by rwa [capacity_layout hScale])
  have hLength : (encode (layout precision scale) m).length ≠ 0 := by
    rw [encode_length, size_layout, decimalBinSize, binBytes_eq, binBytes_eq]
    omega
  unfold stored
  cases hBytes : encode _ m with
  | nil => simp [hBytes] at hLength
  | cons b rest =>
    rw [hBytes] at hHead
    have hFlip := xor_first b hHead
    refine ⟨b, rest, hHead, rfl, fun negative => ?_⟩
    cases negative with
    | false => simp [flipFirst, map_flipByte_false, flipByte, hFlip]
    | true => simp [flipFirst, flipByte, hFlip]

theorem Decimal.stored_sign (negative : Bool) :
    (decide ((Decimal.stored precision scale negative m).headD 0 < 128) : Bool) = negative := by
  obtain ⟨b, rest, hb, -, hStored⟩ := stored_bytes hPrecision hScale hm
  rw [hStored]
  cases negative with
  | false => simp
  | true => simp [lt_of_le_of_lt (Nat.sub_le 127 b)]

/-- What was stored is read back: the sign, and the number at its scale. -/
theorem bin2decimal_stored (negative : Bool) {target : Decimal}
    (hLen : decimalSize precision scale ≤ target.len) {r : Decimal × DecError}
    (hr : r = bin2decimal (Decimal.stored precision scale negative m) target precision scale) :
    r.2 = .ok ∧ r.1.sign = negative ∧ r.1.frac = scale ∧
      r.1.mantissa * 10 ^ scale = m * (10 ^ 9) ^ roundUp scale := by
  have hSign := Decimal.stored_sign hPrecision hScale hm negative
  have hTake : (Decimal.stored precision scale negative m).take (decimalBinSize precision scale) =
      Decimal.stored precision scale negative m :=
    take_of_length_le (le_of_eq (Decimal.stored_length negative))
  have hMod (n : Nat) : n - n / 9 * 9 = n % 9 := by omega
  have hWords (n : Nat) : n / 9 + (if 0 < n % 9 then 1 else 0) = roundUp n := by
    unfold roundUp
    split_ifs <;> omega
  have hFix : fixIntgFracError target.len (roundUp (precision - scale)) (roundUp scale) =
      (roundUp (precision - scale), roundUp scale, .ok) := if_neg (not_lt.mpr hLen)
  have hBytes : flipFirst (Decimal.stored precision scale negative m) =
      (encode (intgLayout (precision - scale)) (m / 10 ^ scale)).map
          (flipByte negative) ++
        ((encode (fracLayout scale) (m % 10 ^ scale)).map (flipByte negative) ++ []) := by
    have hCapacity : m < capacity (layout precision scale) := by
      rwa [capacity_layout hScale]
    rw [Decimal.stored, flipFirst_flipFirst, layout, encode_append hCapacity,
      capacity_fracLayout, map_append, append_nil]
  have hHigh : m / 10 ^ scale < 10 ^ (precision - scale) := by
    apply Nat.div_lt_of_lt_mul
    rwa [← pow_add, add_comm, Nat.sub_add_cancel hScale]
  have hLow : m % 10 ^ scale < 10 ^ scale := Nat.mod_lt m (by positivity)
  have hDigits (n : Nat) : n / 9 * 9 + n % 9 = n := by omega
  simp only [bin2decimal, hSign, hTake, hMod, hWords, hFix, if_true, hDigits] at hr
  obtain ⟨hRest, hInteger, hIntegerWords⟩ := Reader.readIntgPart_spec
    (r := ⟨flipFirst _, target.buf, 0,
      precision - scale⟩) hHigh hBytes rfl rfl rfl
  obtain ⟨hValue, hPos, hIntg⟩ := Reader.readFracPart_spec hLow hRest rfl rfl
  subst hr
  refine ⟨rfl, rfl, rfl, ?_⟩
  rw [hInteger] at hValue
  have hSplit : m / 10 ^ scale * 10 ^ scale + m % 10 ^ scale = m := by
    rw [mul_comm, Nat.div_add_mod]
  rw [hSplit] at hValue
  rw [← hValue, Reader.value, hPos, ← hIntegerWords, ← hIntg]
  rfl

end

end

def truncateTo (scale : Nat) (x : ℚ) : ℚ :=
  (if x < 0 then ⌈x * 10 ^ scale⌉ else ⌊x * 10 ^ scale⌋ : ℤ) / 10 ^ scale

theorem truncateTo_of_nonneg {scale : Nat} {x : ℚ} (h : 0 ≤ x) :
    truncateTo scale x = ⌊x * 10 ^ scale⌋ / 10 ^ scale := by
  rw [truncateTo, if_neg (not_lt.mpr h)]

theorem truncateTo_neg (scale : Nat) (x : ℚ) : truncateTo scale (-x) = -truncateTo scale x := by
  unfold truncateTo
  rcases lt_trichotomy x 0 with h | rfl | h
  · rw [if_neg (by linarith), if_pos h, neg_mul, Int.floor_neg]
    push_cast
    ring
  · simp
  · rw [if_pos (by linarith), if_neg (by linarith), neg_mul, Int.ceil_neg]
    push_cast
    ring

namespace Decimal
variable {d : Decimal} {precision scale : Nat}

def unitsValue (scale : Nat) (negative : Bool) (m : Nat) : ℚ :=
  (if negative then -1 else 1) * (m / 10 ^ scale)

theorem val_eq_unitsValue {m : Nat} (h : d.mantissa * 10 ^ scale = m * (10 ^ 9) ^ roundUp d.frac) :
    d.val = unitsValue scale d.sign m := by
  have hCast : (d.mantissa : ℚ) * 10 ^ scale = m * (10 ^ 9) ^ roundUp d.frac := by
    exact_mod_cast h
  have hQuot : (d.mantissa : ℚ) / (10 ^ 9) ^ roundUp d.frac = m / 10 ^ scale := by
    rw [div_eq_div_iff (by positivity) (by positivity), hCast]
  rw [val, unitsValue, hQuot]

theorem truncateTo_val (scale : Nat) :
    truncateTo scale d.val = unitsValue scale d.sign (d.scaled scale) := by
  have hNonneg : (0 : ℚ) ≤ d.mantissa / (10 ^ 9) ^ roundUp d.frac := by positivity
  have hFloor : ⌊(d.mantissa : ℚ) / (10 ^ 9) ^ roundUp d.frac * 10 ^ scale⌋ =
      (d.scaled scale : ℤ) := by
    rw [div_mul_eq_mul_div, scaled, Int.natCast_div, ← Rat.floor_intCast_div_natCast]
    push_cast
    rfl
  rw [val, unitsValue]
  cases d.sign with
  | false => simp [truncateTo_of_nonneg hNonneg, hFloor]
  | true => simp [truncateTo_neg, truncateTo_of_nonneg hNonneg, hFloor]

theorem WellFormed.scaled_exact (h : d.WellFormed) (hFrac : d.frac ≤ scale) :
    d.mantissa * 10 ^ scale = d.scaled scale * (10 ^ 9) ^ roundUp d.frac := by
  have hWords : (10 ^ 9) ^ roundUp d.frac = 10 ^ (9 * roundUp d.frac - d.frac) * 10 ^ d.frac := by
    rw [← Nat.pow_mul, ← pow_add]
    congr 1
    unfold roundUp
    omega
  have hDvd : (10 ^ 9) ^ roundUp d.frac ∣ d.mantissa * 10 ^ scale := by
    rw [hWords]
    exact Nat.mul_dvd_mul h.dvd_mantissa (Nat.pow_dvd_pow 10 hFrac)
  rw [scaled, Nat.div_mul_cancel hDvd]

/-- Truncation to a scale that holds every digit changes nothing. -/
theorem WellFormed.truncateTo_val_eq (h : d.WellFormed) (hFrac : d.frac ≤ scale) :
    truncateTo scale d.val = d.val := by
  rw [truncateTo_val, val_eq_unitsValue (h.scaled_exact hFrac)]

/-- A decimal is stored in the bytes its type prescribes, without an error, and
read back with its value; one with more digits after the decimal point than
the scale is cut toward zero, with an error. -/
structure RoundTrips (d : Decimal) (precision scale : Nat) : Prop where
  fits : d.frac ≤ scale →
    (decimal2bin d precision scale).2 = .ok ∧
    (decimal2bin d precision scale).1.length = decimalBinSize precision scale ∧
    ∀ target : Decimal, decimalSize precision scale ≤ target.len →
      (bin2decimal (decimal2bin d precision scale).1 target precision scale).2 = .ok ∧
      (bin2decimal (decimal2bin d precision scale).1 target precision scale).1.val = d.val
  cut : scale < d.frac →
    (decimal2bin d precision scale).2 = .truncated ∧
    (decimal2bin d precision scale).1.length = decimalBinSize precision scale ∧
    ∀ target : Decimal, decimalSize precision scale ≤ target.len →
      (bin2decimal (decimal2bin d precision scale).1 target precision scale).2 = .ok ∧
      (bin2decimal (decimal2bin d precision scale).1 target precision scale).1.val =
        truncateTo scale d.val

private theorem unitsValue_storedSign (scale : Nat) :
    unitsValue scale d.storedSign (d.scaled scale) = unitsValue scale d.sign (d.scaled scale) := by
  by_cases hZero : d.integerPart = 0 ∧ d.frac = 0
  · have hNone : roundUp d.frac = 0 := by simp [hZero.2, roundUp]
    have hMantissa : d.mantissa = 0 := by
      rw [mantissa, hNone]
      exact hZero.1
    simp [unitsValue, scaled, hMantissa]
  · simp [storedSign, hZero]

/-- What is read back is the value cut to the scale, when the bytes tell the
digits apart. -/
theorem val_bin2decimal (hPrecision : 0 < precision) (hScale : scale ≤ precision)
    (h : d.WellFormed) (hDigits : d.integerPart < 10 ^ (precision - scale))
    (hFits : d.frac ≤ scale ∨ binBytes scale < binBytes d.frac) {target : Decimal}
    (hLen : decimalSize precision scale ≤ target.len) :
    (bin2decimal (decimal2bin d precision scale).1 target precision scale).2 = .ok ∧
      (bin2decimal (decimal2bin d precision scale).1 target precision scale).1.val =
        truncateTo scale d.val := by
  rw [decimal2bin_eq h hScale hDigits hFits]
  generalize hRead : bin2decimal _ target precision scale = r
  obtain ⟨hError, hSign, hFrac, hMantissa⟩ := bin2decimal_stored hPrecision hScale
    (h.scaled_lt hScale hDigits) d.storedSign hLen hRead.symm
  have hVal : r.1.val = unitsValue scale r.1.sign (d.scaled scale) := by
    apply val_eq_unitsValue
    rw [hFrac, hMantissa]
  refine ⟨hError, ?_⟩
  rw [hVal, hSign, truncateTo_val, unitsValue_storedSign]

theorem decimal2bin_error_ne (hSame : ¬binBytes scale < binBytes d.frac) :
    (decimal2bin d precision scale).2 ≠ .truncated := by
  simp only [decimal2bin, fitFrac_truncated, decide_eq_true_eq, hSame, if_false]
  split_ifs <;> simp

/-- The bytes of the fraction have to tell the digits to cut from those to
keep. A decimal that is cut within one byte is not reported. -/
theorem roundTrips_iff (hPrecision : 0 < precision) (hScale : scale ≤ precision)
    (h : d.WellFormed) (hDigits : d.integerPart < 10 ^ (precision - scale)) :
    RoundTrips d precision scale ↔ d.frac ≤ scale ∨ binBytes scale < binBytes d.frac := by
  constructor
  · intro hTrips
    by_contra hNot
    push Not at hNot
    exact decimal2bin_error_ne (not_lt.mpr hNot.2) (hTrips.cut hNot.1).1
  · intro hFits
    have hStored := decimal2bin_eq h hScale hDigits hFits
    have hLength : (decimal2bin d precision scale).1.length = decimalBinSize precision scale := by
      rw [hStored]
      exact stored_length _
    refine ⟨fun hFrac => ⟨?_, hLength, fun target hLen => ?_⟩,
      fun hFrac => ⟨?_, hLength, fun target hLen => ?_⟩⟩
    · rw [hStored]
      exact if_neg (not_lt.mpr (binBytes_mono hFrac))
    · rw [← h.truncateTo_val_eq hFrac]
      exact val_bin2decimal hPrecision hScale h hDigits hFits hLen
    · rw [hStored]
      exact if_pos (hFits.resolve_left (not_le.mpr hFrac))
    · exact val_bin2decimal hPrecision hScale h hDigits hFits hLen

/-- 0.12 -/
def twelveHundredths : Decimal where
  intg := 1
  frac := 2
  len := 9
  sign := false
  buf := fun i => [0, 120000000].getD i 0

theorem twelveHundredths_wellFormed : twelveHundredths.WellFormed where
  word := by decide
  lead := by decide
  trail := by decide

theorem roundTrips_twelveHundredths : RoundTrips twelveHundredths 3 2 :=
  (roundTrips_iff (by decide) (by decide) twelveHundredths_wellFormed (by decide)).2
    (.inl (by decide))

/-- One digit and two digits take one byte each, so that 0.12 is stored as a
decimal with one digit after the point without an error, and with a byte that
no such decimal has. -/
theorem not_roundTrips_twelveHundredths :
    twelveHundredths.WellFormed ∧ twelveHundredths.integerPart < 10 ^ (2 - 1) ∧
      1 < twelveHundredths.frac ∧ decimal2bin twelveHundredths 2 1 = ([128, 12], .ok) ∧
      ¬RoundTrips twelveHundredths 2 1 := by
  refine ⟨twelveHundredths_wellFormed, by decide, by decide, by decide, ?_⟩
  intro hTrips
  have hError := (hTrips.cut (by decide)).1
  revert hError
  decide

end Decimal

end MySQL.Decimals
