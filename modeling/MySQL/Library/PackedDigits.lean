import Mathlib

/-! Numbers as byte strings. A number is cut into groups of digits, most
significant first, and each group is written in a fixed number of bytes;
byte strings are then compared like the numbers. -/
namespace Library
open List Nat

def toBytes : Nat → Nat → List Nat
  | 0, _ => []
  | n + 1, x => x / 256 ^ n % 256 :: toBytes n x

def fromBytes (bytes : List Nat) : Nat :=
  bytes.foldl (fun value byte => value * 256 + byte) 0

@[simp] theorem toBytes_length (n x : Nat) : (toBytes n x).length = n := by
  induction n with
  | zero => rfl
  | succ n ih => simp [toBytes, ih]

theorem lt_of_mem_toBytes {n x b : Nat} (h : b ∈ toBytes n x) : b < 256 := by
  induction n with
  | zero => simp [toBytes] at h
  | succ n ih =>
    rcases mem_cons.mp h with rfl | h
    · exact mod_lt _ (by decide)
    · exact ih h

private theorem foldl_fromBytes (bytes : List Nat) (x : Nat) :
    bytes.foldl (fun value byte => value * 256 + byte) x =
      x * 256 ^ bytes.length + fromBytes bytes := by
  unfold fromBytes
  induction bytes generalizing x with
  | nil => simp
  | cons b rest ih =>
    rw [foldl_cons, foldl_cons, ih, ih (0 * 256 + b), length_cons]
    ring

theorem fromBytes_cons (b : Nat) (rest : List Nat) :
    fromBytes (b :: rest) = b * 256 ^ rest.length + fromBytes rest := by
  unfold fromBytes
  rw [foldl_cons, foldl_fromBytes]
  simp [fromBytes]

theorem fromBytes_toBytes (n x : Nat) : fromBytes (toBytes n x) = x % 256 ^ n := by
  induction n with
  | zero => simp [toBytes, fromBytes, mod_one]
  | succ n ih =>
    rw [toBytes, fromBytes_cons, ih, toBytes_length, pow_succ, mod_mul, add_comm,
      mul_comm (256 ^ n)]

/-- Complementing every byte complements the number. -/
theorem fromBytes_complement {bytes : List Nat} (h : ∀ b ∈ bytes, b < 256) :
    fromBytes (bytes.map (255 - ·)) + fromBytes bytes + 1 = 256 ^ bytes.length := by
  induction bytes with
  | nil => rfl
  | cons b rest ih =>
    simp only [mem_cons, forall_eq_or_imp] at h
    have hByte : 255 - b + b = 255 := Nat.sub_add_cancel (le_of_lt_succ h.1)
    have ih := ih h.2
    rw [map_cons, fromBytes_cons, fromBytes_cons, length_map, length_cons]
    calc (255 - b) * 256 ^ rest.length + fromBytes (rest.map (255 - ·)) +
          (b * 256 ^ rest.length + fromBytes rest) + 1
        = (255 - b + b) * 256 ^ rest.length +
            (fromBytes (rest.map (255 - ·)) + fromBytes rest + 1) := by ring
      _ = 256 ^ (rest.length + 1) := by rw [hByte, ih]; ring

/-- A number below half of the range leaves the first bit clear. -/
theorem head_toBytes_lt {n x : Nat} (h : 2 * x < 256 ^ n) : (toBytes n x).headD 0 < 128 := by
  cases n with
  | zero => exact zero_lt_succ _
  | succ n =>
    have hHead : x / 256 ^ n < 128 := by
      apply Nat.div_lt_of_lt_mul
      rw [pow_succ] at h
      omega
    exact (mod_le _ _).trans_lt hHead

theorem toBytes_mod {n m : Nat} (h : n ≤ m) (x : Nat) : toBytes n (x % 256 ^ m) = toBytes n x := by
  induction n with
  | zero => rfl
  | succ n ih =>
    obtain ⟨k, rfl⟩ := Nat.exists_eq_add_of_lt h
    have hDigit : x % 256 ^ (n + k + 1) / 256 ^ n % 256 = x / 256 ^ n % 256 := by
      rw [add_assoc, pow_add, mod_mul_right_div_self, pow_succ, mod_mul_left_mod]
    rw [toBytes, toBytes, hDigit, ih (le_of_lt h)]

theorem toBytes_zero (n : Nat) : toBytes n 0 = List.replicate n 0 := by
  induction n with
  | zero => rfl
  | succ n ih => simp [toBytes, ih, replicate_succ]

/-- A number that needs fewer bytes begins with zeros. -/
theorem toBytes_pad {m x : Nat} (h : x < 256 ^ m) (k : Nat) :
    toBytes (k + m) x = List.replicate k 0 ++ toBytes m x := by
  induction k with
  | zero => simp
  | succ k ih =>
    have hZero : x / 256 ^ (k + m) = 0 :=
      div_eq_of_lt (h.trans_le (Nat.pow_le_pow_right (by decide) (le_add_left m k)))
    rw [succ_add, toBytes, ih, hZero, replicate_succ, cons_append, zero_mod]

def memcmp : List Nat → List Nat → Ordering
  | a :: as, b :: bs => (compare a b).then (memcmp as bs)
  | _, _ => .eq

theorem memcmp_append {as bs : List Nat} (h : as.length = bs.length) (cs ds : List Nat) :
    memcmp (as ++ cs) (bs ++ ds) = (memcmp as bs).then (memcmp cs ds) := by
  induction as generalizing bs with
  | nil =>
    obtain rfl := eq_nil_of_length_eq_zero h.symm
    rfl
  | cons a as ih =>
    cases bs with
    | nil => cases h
    | cons b bs =>
      simp only [cons_append, memcmp, ih (succ.inj h), Ordering.then_assoc]

theorem memcmp_self (as : List Nat) : memcmp as as = .eq := by
  induction as with
  | nil => rfl
  | cons a as ih => simp [memcmp, ih]

theorem memcmp_eq_iff {as bs : List Nat} (h : as.length = bs.length) :
    memcmp as bs = .eq ↔ as = bs := by
  constructor
  · intro hEq
    induction as generalizing bs with
    | nil => exact (eq_nil_of_length_eq_zero h.symm).symm
    | cons a as ih =>
      cases bs with
      | nil => cases h
      | cons b bs =>
        rw [memcmp, Ordering.then_eq_eq, Nat.compare_eq_eq] at hEq
        rw [hEq.1, ih (succ.inj h) hEq.2]
  · rintro rfl
    exact memcmp_self as

theorem compare_congr {α β : Type} [LinearOrder α] [LinearOrder β] {x y : α} {x' y' : β}
    (hLt : x < y ↔ x' < y') (hGt : y < x ↔ y' < x') : compare x y = compare x' y' := by
  rcases lt_trichotomy x y with h | rfl | h
  · rw [compare_lt_iff_lt.mpr h, compare_lt_iff_lt.mpr (hLt.mp h)]
  · rw [compare_eq_iff_eq.mpr rfl, eq_comm, compare_eq_iff_eq]
    exact le_antisymm (not_lt.mp fun h => lt_irrefl x (hGt.mpr h)) (not_lt.mp fun h => lt_irrefl x (hLt.mpr h))
  · rw [compare_gt_iff_gt.mpr h, compare_gt_iff_gt.mpr (hGt.mp h)]

/-- The leading digit decides. -/
theorem mul_add_lt_mul_add {x y b u : Nat} (h : x < y) (hu : u < b) (v : Nat) : x * b + u < y * b + v := by
  have hStep : (x + 1) * b ≤ y * b := mul_le_mul_right b h
  rw [add_mul, one_mul] at hStep
  omega

theorem compare_lex {x y b : Nat} {u v : Nat} (hu : u < b) (hv : v < b) :
    compare (x * b + u) (y * b + v) = (compare x y).then (compare u v) := by
  rcases lt_trichotomy x y with h | rfl | h
  · rw [Nat.compare_eq_lt.mpr (mul_add_lt_mul_add h hu v), Nat.compare_eq_lt.mpr h]
    rfl
  · rw [Nat.compare_eq_eq.mpr (rfl : x = x)]
    exact compare_congr (by omega) (by omega)
  · rw [Nat.compare_eq_gt.mpr (mul_add_lt_mul_add h hv u), Nat.compare_eq_gt.mpr h]
    rfl

theorem memcmp_toBytes {n x y : Nat} (hx : x < 256 ^ n) (hy : y < 256 ^ n) :
    memcmp (toBytes n x) (toBytes n y) = compare x y := by
  induction n generalizing x y with
  | zero =>
    simp only [pow_zero, lt_one_iff] at hx hy
    simp [hx, hy, memcmp, toBytes]
  | succ n ih =>
    have hPos : 0 < 256 ^ n := Nat.pow_pos (by decide)
    have hHigh {z : Nat} (hz : z < 256 ^ (n + 1)) : z / 256 ^ n % 256 = z / 256 ^ n :=
      mod_eq_of_lt (Nat.div_lt_of_lt_mul (by rwa [← pow_succ]))
    calc memcmp (toBytes (n + 1) x) (toBytes (n + 1) y) = (compare (x / 256 ^ n) (y / 256 ^ n)).then
            (memcmp (toBytes n (x % 256 ^ n)) (toBytes n (y % 256 ^ n))) := by
          rw [toBytes, toBytes, memcmp, hHigh hx, hHigh hy, toBytes_mod (le_refl n),
            toBytes_mod (le_refl n)]
      _ = (compare _ _).then
            (compare _ _) := by
          rw [ih (mod_lt x hPos) (mod_lt y hPos)]
      _ = compare x y := by
          rw [← compare_lex (mod_lt x hPos) (mod_lt y hPos), div_add_mod',
            div_add_mod']

/-- Byte strings with all bits inverted compare the other way round. -/
theorem memcmp_complement {as bs : List Nat} (ha : ∀ a ∈ as, a < 256) (hb : ∀ b ∈ bs, b < 256) :
    memcmp (as.map (255 - ·)) (bs.map (255 - ·)) = memcmp bs as := by
  induction as generalizing bs with
  | nil => cases bs <;> rfl
  | cons a as ih =>
    cases bs with
    | nil => rfl
    | cons b bs =>
      simp only [mem_cons, forall_eq_or_imp] at ha hb
      have hHead : compare (255 - a) (255 - b) = compare b a := by
        have ha := ha.1
        have hb := hb.1
        exact compare_congr (by omega) (by omega)
      simp only [map_cons, memcmp, hHead, ih ha.2 hb.2]

/-- A group of digits: it counts up to `base` and is written in `width` bytes. -/
structure DigitGroup where
  base : Nat
  width : Nat
  pos : 0 < base
  fits : base ≤ 256 ^ width

namespace DigitGroup

def capacity (groups : List DigitGroup) : Nat :=
  (groups.map base).prod

def size (groups : List DigitGroup) : Nat :=
  (groups.map width).sum

def encode : List DigitGroup → Nat → List Nat
  | [], _ => []
  | g :: rest, m => toBytes g.width (m / capacity rest) ++ encode rest (m % capacity rest)

@[simp] theorem capacity_nil : capacity [] = 1 := rfl

@[simp] theorem capacity_cons (g : DigitGroup) (rest : List DigitGroup) :
    capacity (g :: rest) = g.base * capacity rest := rfl

@[simp] theorem capacity_append (front rest : List DigitGroup) :
    capacity (front ++ rest) = capacity front * capacity rest := by
  simp [capacity]

@[simp] theorem capacity_replicate (n : Nat) (g : DigitGroup) :
    capacity (List.replicate n g) = g.base ^ n := by
  simp [capacity]

theorem capacity_pos (groups : List DigitGroup) : 0 < capacity groups := by
  induction groups with
  | nil => exact one_pos
  | cons g rest ih => exact mul_pos g.pos ih

@[simp] theorem encode_length (groups : List DigitGroup) (m : Nat) :
    (encode groups m).length = size groups := by
  induction groups generalizing m with
  | nil => rfl
  | cons g rest ih => simp [encode, ih, size]

variable {groups : List DigitGroup} {m : Nat}

theorem lt_of_mem_encode {b : Nat} (h : b ∈ encode groups m) : b < 256 := by
  induction groups generalizing m with
  | nil => simp [encode] at h
  | cons g rest ih =>
    rcases mem_append.mp h with h | h
    · exact lt_of_mem_toBytes h
    · exact ih h

theorem encode_append {front rest : List DigitGroup} (h : m < capacity (front ++ rest)) :
    encode (front ++ rest) m =
      encode front (m / capacity rest) ++ encode rest (m % capacity rest) := by
  induction front generalizing m with
  | nil =>
    rw [nil_append] at h ⊢
    rw [mod_eq_of_lt h]
    rfl
  | cons g front ih =>
    rw [cons_append, encode, encode, ih (mod_lt _ (capacity_pos _)), capacity_append,
      append_assoc, mod_mul_left_div_self, mod_mul_left_mod,
      Nat.div_div_eq_div_mul, mul_comm _]

theorem encode_zero (groups : List DigitGroup) :
    encode groups 0 = List.replicate (size groups) 0 := by
  induction groups with
  | nil => rfl
  | cons g rest ih =>
    rw [encode, Nat.zero_div, zero_mod, ih, toBytes_zero, ← replicate_add]
    simp [size]

/-- The byte strings compare like the numbers. -/
theorem memcmp_encode {m' : Nat} (h : m < capacity groups) (h' : m' < capacity groups) :
    memcmp (encode groups m) (encode groups m') = compare m m' := by
  induction groups generalizing m m' with
  | nil =>
    obtain rfl := lt_one_iff.mp h
    obtain rfl := lt_one_iff.mp h'
    rfl
  | cons g rest ih =>
    have hPos := capacity_pos rest
    have hHigh {z : Nat} (hz : z < capacity (g :: rest)) : z / capacity rest < 256 ^ g.width :=
      (Nat.div_lt_of_lt_mul (by rwa [mul_comm])).trans_le g.fits
    rw [encode, encode, memcmp_append (by simp), memcmp_toBytes (hHigh h) (hHigh h'),
      ih (mod_lt _ hPos) (mod_lt _ hPos), ← compare_lex (mod_lt _ hPos)
      (mod_lt _ hPos), div_add_mod', div_add_mod']

/-- The first bit stays clear when no group needs the first bit of its own. -/
theorem head_encode_lt (hGroups : ∀ g ∈ groups, g.width = 0 ∨ 2 * g.base ≤ 256 ^ g.width)
    (h : m < capacity groups) : (encode groups m).headD 0 < 128 := by
  induction groups generalizing m with
  | nil => exact zero_lt_succ _
  | cons g rest ih =>
    simp only [mem_cons, forall_eq_or_imp] at hGroups
    obtain ⟨hGroup, hRest⟩ := hGroups
    have hLow := ih hRest (mod_lt m (capacity_pos rest))
    rcases hGroup with hEmpty | hHalf
    · simpa [encode, hEmpty, toBytes] using hLow
    · have hDigit : m / capacity rest < g.base := Nat.div_lt_of_lt_mul (by rwa [mul_comm])
      have hHead : (toBytes g.width (m / capacity rest)).headD 0 < 128 :=
        head_toBytes_lt (by omega)
      cases hBytes : toBytes g.width (m / capacity rest) with
      | nil => simpa [encode, hBytes] using hLow
      | cons b bytes => simpa [encode, hBytes] using hHead

end DigitGroup
end Library
