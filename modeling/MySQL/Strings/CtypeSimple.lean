import MySQL.Library.Padding

/-! Collations of character sets with one byte a character (ctype-simple.c). The macro
`VARCHAR_WITH_DIFF_ENDSPACE_ARE_DIFFERENT_FOR_UNIQUE` is not defined, so
`my_strnncollsp_simple` does not read its flag. -/
namespace MySQL.Ctype

open Library

abbrev SortOrder := UInt8 → UInt8

def compareSpaces (swap : BitVec 32) (bytes : List UInt8) : BitVec 32 :=
  match bytes.find? fun byte => byte ≠ 0x20 with
  | none => 0
  | some byte => if byte < 0x20 then -swap else swap

def myStrnncollspSimple (map : SortOrder) : (a b : List UInt8) → BitVec 32
  | a :: as, b :: bs =>
    if map a ≠ map b then BitVec.ofInt 32 ((map a).toNat - (map b).toNat : Int)
    else myStrnncollspSimple map as bs
  | [], bs => compareSpaces (-1) bs
  | as, [] => compareSpaces 1 as

def hashByte (nr : UInt64 × UInt64) (byte : UInt8) : UInt64 × UInt64 :=
  (nr.1 ^^^ (((nr.1 &&& (63 : UInt64)) + nr.2) * byte.toUInt64 + (nr.1 <<< 8)), nr.2 + 3)

/-- End space is removed first, to hash 'A ' and 'A' alike. -/
def myHashSortSimple (map : SortOrder) (key : List UInt8) (nr : UInt64 × UInt64) :
    UInt64 × UInt64 :=
  ((key.rdropWhile fun byte => byte = 0x20).map map).foldl hashByte nr

/-- The sort key: weights, then spaces up to the length. -/
def myStrnxfrmSimple (map : SortOrder) (len : Nat) (src : List UInt8) : List UInt8 :=
  (src.take len).map map ++ List.replicate (len - src.length) 0x20

theorem compareSpaces_eq_zero {swap : BitVec 32} (hSwap : swap ≠ 0) (bytes : List UInt8) :
    compareSpaces swap bytes = 0 ↔ ∀ byte ∈ bytes, byte = 0x20 := by
  rw [compareSpaces]
  cases hFind : bytes.find? fun byte => byte ≠ 0x20 with
  | none =>
    rw [List.find?_eq_none] at hFind
    simpa using hFind
  | some byte =>
    have hMem := List.mem_of_find?_eq_some hFind
    have hByte := List.find?_some hFind
    have hSome : ¬ ∀ b ∈ bytes, b = 0x20 := fun hAll => by simp [hAll byte hMem] at hByte
    simp only [hSome, iff_false]
    split
    · simpa using hSwap
    · exact hSwap

theorem myStrnncollspSimple_comm (map : SortOrder) (a b : List UInt8) :
    myStrnncollspSimple map a b = 0 ↔ myStrnncollspSimple map b a = 0 := by
  have hSpaces (bytes : List UInt8) : compareSpaces (-1) bytes = 0 ↔ compareSpaces 1 bytes = 0 := by
    rw [compareSpaces_eq_zero (by decide), compareSpaces_eq_zero (by decide)]
  induction a generalizing b with
  | nil =>
    cases b with
    | nil => rfl
    | cons byte bs => exact hSpaces _
  | cons byte as ih =>
    cases b with
    | nil => exact (hSpaces _).symm
    | cons byte' bs =>
      have hNe {x y : UInt8} (h : x ≠ y) : BitVec.ofInt 32 ((x.toNat : Int) - y.toNat) ≠ 0 := by
        intro hZero
        have hx := x.toNat_lt
        have hy := y.toNat_lt
        have hInt := congrArg BitVec.toInt hZero
        rw [BitVec.toInt_ofInt_eq_self (by decide) (by omega) (by omega)] at hInt
        refine h (UInt8.toNat_inj.mp ?_)
        change (x.toNat : Int) - y.toNat = 0 at hInt
        omega
      rw [myStrnncollspSimple, myStrnncollspSimple]
      by_cases hSame : map byte = map byte'
      · simpa only [hSame, ne_eq, not_true_eq_false, if_false] using ih bs
      · rw [if_pos hSame, if_pos (Ne.symm hSame)]
        exact iff_of_false (hNe hSame) (hNe (Ne.symm hSame))

/-- The sort order of `cp1251_ukrainian_ci` (cp1251.xml). -/
def cp1251UkrainianCi : List UInt8 := [
  0x00, 0x01, 0x02, 0x03, 0x04, 0x05, 0x06, 0x07, 0x08, 0x09, 0x0A, 0x0B, 0x0C, 0x0D, 0x0E, 0x0F,
  0x10, 0x11, 0x12, 0x13, 0x14, 0x15, 0x16, 0x17, 0x18, 0x19, 0x1A, 0x1B, 0x1C, 0x1D, 0x1E, 0x1F,
  0x20, 0x21, 0x22, 0x23, 0x24, 0x25, 0x26, 0x27, 0x28, 0x29, 0x2A, 0x2B, 0x2C, 0x2D, 0x2E, 0x2F,
  0x30, 0x31, 0x32, 0x33, 0x34, 0x35, 0x36, 0x37, 0x38, 0x39, 0x3A, 0x3B, 0x3C, 0x3D, 0x3E, 0x3F,
  0x40, 0x41, 0x42, 0x43, 0x44, 0x45, 0x46, 0x47, 0x48, 0x49, 0x4A, 0x4B, 0x4C, 0x4D, 0x4E, 0x4F,
  0x50, 0x51, 0x52, 0x53, 0x54, 0x55, 0x56, 0x57, 0x58, 0x59, 0x5A, 0x5B, 0x5C, 0x5D, 0x5E, 0x5F,
  0x20, 0x41, 0x42, 0x43, 0x44, 0x45, 0x46, 0x47, 0x48, 0x49, 0x4A, 0x4B, 0x4C, 0x4D, 0x4E, 0x4F,
  0x50, 0x51, 0x52, 0x53, 0x54, 0x55, 0x56, 0x57, 0x58, 0x59, 0x5A, 0x7B, 0x7C, 0x7D, 0x7E, 0x7F,
  0xA5, 0xA6, 0xA7, 0xA8, 0xA9, 0xAA, 0xAB, 0xAC, 0xAD, 0xAE, 0xAF, 0xB0, 0xB1, 0xB2, 0xB3, 0xB4,
  0xB5, 0xB6, 0xB7, 0xB8, 0xB9, 0xBA, 0xBB, 0xBC, 0xBD, 0xBE, 0xBF, 0xC0, 0xC1, 0xC2, 0xC3, 0xC4,
  0xC5, 0xC6, 0xC7, 0xC8, 0xC9, 0x84, 0xCA, 0xCB, 0x88, 0xCC, 0x87, 0xCD, 0xCE, 0xCF, 0xD0, 0x8D,
  0xD1, 0xD2, 0x8C, 0x8C, 0x84, 0xD3, 0xD4, 0xD5, 0x88, 0xD6, 0x87, 0xD7, 0xD8, 0xD9, 0xDA, 0x8D,
  0x80, 0x81, 0x82, 0x83, 0x85, 0x86, 0x89, 0x8A, 0x8B, 0x8E, 0x8F, 0x90, 0x91, 0x92, 0x93, 0x94,
  0x95, 0x96, 0x97, 0x98, 0x99, 0x9A, 0x9B, 0x9C, 0x9D, 0x9E, 0x9F, 0xA0, 0xA1, 0xA2, 0xA3, 0xA4,
  0x80, 0x81, 0x82, 0x83, 0x85, 0x86, 0x89, 0x8A, 0x8B, 0x8E, 0x8F, 0x90, 0x91, 0x92, 0x93, 0x94,
  0x95, 0x96, 0x97, 0x98, 0x99, 0x9A, 0x9B, 0x9C, 0x9D, 0x9E, 0x9F, 0xA0, 0xA1, 0xA2, 0xA3, 0xA4]

def weights (map : SortOrder) (key : List UInt8) : List Nat := key.map fun byte => (map byte).toNat

/-- Only the space has the weight of the space, and just the bytes below it weigh less. -/
def SpaceOrdered (map : SortOrder) : Prop :=
  ∀ byte, (map byte = 0x20 ↔ byte = 0x20) ∧ (map byte < 0x20 ↔ byte < 0x20)

section coherence
variable {map : SortOrder} (hMap : SpaceOrdered map)
include hMap

theorem weight_eq_iff (byte : UInt8) : (map byte).toNat = 0x20 ↔ byte = 0x20 :=
  Iff.trans (UInt8.toNat_inj (b := 0x20)) (hMap byte).1

/-- The raw bytes behind the shorter string compare as their weights do. -/
theorem compareSpaces_padded (bytes : List UInt8) :
    (compareSpaces (-1) bytes).toInt = comparePadded 0x20 [] (weights map bytes) ∧
      (compareSpaces 1 bytes).toInt = comparePadded 0x20 (weights map bytes) [] := by
  induction bytes with
  | nil => simp [compareSpaces, weights, comparePadded]
  | cons byte bytes ih =>
    have hWeight := weight_eq_iff hMap byte
    have hLess : (map byte).toNat < 0x20 ↔ byte < 0x20 := (hMap byte).2
    simp only [weights, List.map_cons, comparePadded, eq_comm (a := 0x20), hWeight]
    by_cases hSpace : byte = 0x20
    · simpa [compareSpaces, hSpace, weights] using ih
    · have hNe := mt hWeight.mp hSpace
      have hFind : (byte :: bytes).find? (fun byte => byte ≠ 0x20) = some byte := by simp [hSpace]
      simp only [compareSpaces, hFind, if_neg hSpace, toInt_compareLinear]
      split <;> constructor
      all_goals grind

/-- The comparison is that of the weights, both sides extended by spaces. -/
theorem sign_myStrnncollspSimple (a b : List UInt8) :
    (myStrnncollspSimple map a b).toInt.sign = comparePadded 0x20 (weights map a) (weights map b) := by
  induction a generalizing b with
  | nil =>
    rw [myStrnncollspSimple, (compareSpaces_padded hMap b).1]
    exact sign_comparePadded _ _ _
  | cons byte a ih =>
    cases b with
    | nil =>
      rw [myStrnncollspSimple.eq_3 _ _ (by simp), (compareSpaces_padded hMap (byte :: a)).2]
      exact sign_comparePadded _ _ _
    | cons byte' b =>
      have hx := (map byte).toNat_lt
      have hy := (map byte').toNat_lt
      rw [myStrnncollspSimple, weights, weights, List.map_cons, List.map_cons, comparePadded]
      by_cases hSame : map byte = map byte'
      · simpa [hSame, weights] using ih b
      · have hNe := mt UInt8.toNat_inj.mp hSame
        rw [if_pos hSame, if_neg hNe,
          BitVec.toInt_ofInt_eq_self (by decide) (by omega) (by omega), toInt_compareLinear]
        split
        · exact Int.sign_eq_neg_one_of_neg (by omega)
        · exact Int.sign_eq_one_of_pos (by omega)

theorem myHashSortSimple_eq (key : List UInt8) (nr : UInt64 × UInt64) :
    myHashSortSimple map key nr = ((weights map key).rdropWhile (· = 0x20)).foldl
      (fun nr weight => hashByte nr (UInt8.ofNat weight)) nr := by
  have hStrip : (weights map key).rdropWhile (· = 0x20) =
      weights map (key.rdropWhile fun byte => byte = 0x20) := by
    simp only [weights, List.rdropWhile, ← List.map_reverse, List.dropWhile_map,
      Function.comp_def, weight_eq_iff hMap]
  rw [hStrip, myHashSortSimple, weights, List.foldl_map, List.foldl_map]
  simp

end coherence

/-- The comparison is a total preorder that compares the weights extended by spaces; strings that
it calls equal have equal hashes, and the sort keys compare alike. -/
structure Coherent (map : SortOrder) : Prop where
  preorder : SignPreorder (myStrnncollspSimple map)
  padded : ∀ a b len, a.length ≤ len → b.length ≤ len → (myStrnncollspSimple map a b).toInt.sign =
    (compareLinear ((weights map a).rightpad len 0x20) ((weights map b).rightpad len 0x20)).toInt
  hash : ∀ a b, myStrnncollspSimple map a b = 0 →
    ∀ nr, myHashSortSimple map a nr = myHashSortSimple map b nr
  sortKey : ∀ a b len, a.length ≤ len → b.length ≤ len → (myStrnncollspSimple map a b).toInt.sign =
    (compareLinear ((myStrnxfrmSimple map len a).map UInt8.toNat)
      ((myStrnxfrmSimple map len b).map UInt8.toNat)).toInt

theorem SpaceOrdered.coherent {map : SortOrder} (hMap : SpaceOrdered map) : Coherent map := by
  have hSign := sign_myStrnncollspSimple hMap
  have hPadded : ∀ a b len, a.length ≤ len → b.length ≤ len → (myStrnncollspSimple map a b).toInt.sign =
      (compareLinear ((weights map a).rightpad len 0x20) ((weights map b).rightpad len 0x20)).toInt := by
    intro a b len ha hb
    have hOrder := comparePadded_eq 0x20 (u := weights map a) (v := weights map b)
      (by simpa [weights] using ha) (by simpa [weights] using hb)
    exact (hSign a b).trans hOrder
  refine ⟨signPreorder_of_padded 0x20 _ hSign, hPadded, fun a b hEqual nr => ?_, fun a b len ha hb => ?_⟩
  · have hZero := hSign a b
    rw [hEqual] at hZero
    rw [myHashSortSimple_eq hMap, myHashSortSimple_eq hMap,
      rdropWhile_eq_of_comparePadded hZero.symm]
  · have hKey (key : List UInt8) (h : key.length ≤ len) :
        (myStrnxfrmSimple map len key).map UInt8.toNat = (weights map key).rightpad len 0x20 := by
      rw [myStrnxfrmSimple, List.take_of_length_le h, List.rightpad, weights, List.length_map,
        List.map_append, List.map_replicate, List.map_map]
      rfl
    rw [hKey a ha, hKey b hb, hPadded a b len ha hb]

/-- The sort keys of one byte and of nothing, both one byte long, show how the table places the byte
against the space. -/
theorem Coherent.spaceOrdered {map : SortOrder} (h : Coherent map) : SpaceOrdered map := by
  intro byte
  have hKey := h.sortKey [byte] [] 1 (by simp) (by simp)
  have hFirst : (myStrnxfrmSimple map 1 [byte]).map UInt8.toNat = [(map byte).toNat] := rfl
  have hSecond : (myStrnxfrmSimple map 1 []).map UInt8.toNat = [0x20] := rfl
  rw [hFirst, hSecond, toInt_compareLinear_cons, toInt_compareLinear, toInt_compareLinear] at hKey
  have hLess : map byte < 0x20 ↔ (map byte).toNat < 0x20 := UInt8.lt_iff_toNat_lt
  have hSame : map byte = 0x20 ↔ (map byte).toNat = 0x20 := (UInt8.toNat_inj (b := 0x20)).symm
  rw [hLess, hSame]
  -- the comparison looks at the byte itself, the sort key at its weight
  by_cases hSpace : byte = 0x20
  · subst hSpace
    have hZero : myStrnncollspSimple map [0x20] [] = 0 := rfl
    rw [hZero] at hKey
    split_ifs at hKey <;> simp_all
  · by_cases hBelow : byte < 0x20
    · have hAnswer : myStrnncollspSimple map [byte] [] = -1 := by
        simp [myStrnncollspSimple, compareSpaces, hSpace, hBelow]
      rw [hAnswer] at hKey
      have hWeight : (map byte).toNat < 0x20 := by
        by_contra hNot
        simp only [hNot, if_false] at hKey
        split_ifs at hKey <;> simp_all
      exact ⟨⟨fun h => by omega, fun h => absurd h hSpace⟩, fun _ => hBelow, fun _ => hWeight⟩
    · have hAnswer : myStrnncollspSimple map [byte] [] = 1 := by
        simp [myStrnncollspSimple, compareSpaces, hSpace, hBelow]
      rw [hAnswer] at hKey
      have hWeight : 0x20 < (map byte).toNat := by
        by_contra hNot
        rcases Nat.lt_or_eq_of_le (not_lt.mp hNot) with hLt | hEq
        · simp [hLt, hLt.ne] at hKey
        · simp [hEq] at hKey
      exact ⟨⟨fun h => by omega, fun h => absurd h hSpace⟩, fun h => by omega, fun h => absurd h hBelow⟩

/-- Comparison, hash and sort key agree exactly for the tables that place every byte on the same side
of the space as the byte itself. -/
theorem simple_coherent_iff (map : SortOrder) : Coherent map ↔ SpaceOrdered map :=
  ⟨Coherent.spaceOrdered, SpaceOrdered.coherent⟩

/-- In `cp1251_ukrainian_ci` the grave accent weighs as much as the space: it equals a space and
the space equals the empty string, but it is above the empty string; its hash is not that of the
space and its sort key is that of the empty string. -/
theorem not_simple_coherent_cp1251 :
    let map : SortOrder := fun byte => cp1251UkrainianCi.getD byte.toNat 0
    myStrnncollspSimple map [0x60] [0x20] = 0 ∧ myStrnncollspSimple map [0x20] [] = 0 ∧
      myStrnncollspSimple map [0x60] [] = 1 ∧ ¬ SignPreorder (myStrnncollspSimple map) ∧
      myHashSortSimple map [0x60] (1, 4) ≠ myHashSortSimple map [0x20] (1, 4) ∧
      myStrnxfrmSimple map 1 [0x60] = myStrnxfrmSimple map 1 [] := by
  intro map
  have hAccent : myStrnncollspSimple map [0x60] [0x20] = 0 := by decide
  have hSpace : myStrnncollspSimple map [0x20] [] = 0 := by decide
  have hEmpty : myStrnncollspSimple map [0x60] [] = 1 := by decide
  refine ⟨hAccent, hSpace, hEmpty, fun hOrder => ?_, by decide, by decide⟩
  have hZero := hOrder.zero_trans [0x60] [0x20] [] (by rw [hAccent]; rfl) (by rw [hSpace]; rfl)
  rw [hEmpty] at hZero
  exact absurd hZero (by decide)

end MySQL.Ctype
