import Mathlib

/-! Three-way comparison functions that answer with the sign of a machine
integer. Only the sign is meant; the magnitude of the answer is arbitrary. -/
namespace Library

universe u
variable {α : Type u}

/-- The sign of `cmp` is a total preorder. -/
structure SignPreorder (cmp : α → α → BitVec 32) : Prop where
  swap : ∀ x y, (cmp x y).toInt.sign = -(cmp y x).toInt.sign
  trans : ∀ x y z, (cmp x y).toInt ≤ 0 → (cmp y z).toInt ≤ 0 → (cmp x z).toInt ≤ 0

def nullFirst (cmp : α → α → BitVec 32) : Option α → Option α → BitVec 32
  | none, none => 0
  | none, some _ => -1
  | some _, none => 1
  | some x, some y => cmp x y

namespace SignPreorder
variable {cmp : α → α → BitVec 32} (h : SignPreorder cmp)
include h

theorem neg_iff (x y : α) : (cmp x y).toInt < 0 ↔ 0 < (cmp y x).toInt := by
  have hSwap := h.swap x y
  rw [← Int.sign_eq_neg_one_iff_neg, ← Int.sign_eq_one_iff_pos, hSwap]
  omega

theorem nonpos_iff (x y : α) : (cmp x y).toInt ≤ 0 ↔ 0 ≤ (cmp y x).toInt := by
  have hNeg := h.neg_iff y x
  omega

theorem zero_iff (x y : α) : (cmp x y).toInt = 0 ↔ (cmp y x).toInt = 0 := by
  have hLeft := h.nonpos_iff x y
  have hRight := h.nonpos_iff y x
  omega

theorem self (x : α) : (cmp x x).toInt = 0 := by
  have hNeg := h.neg_iff x x
  omega

theorem trans_ge (x y z : α) (hFirst : 0 ≤ (cmp x y).toInt) (hSecond : 0 ≤ (cmp y z).toInt) :
    0 ≤ (cmp x z).toInt :=
  (h.nonpos_iff z x).mp
    (h.trans z y x ((h.nonpos_iff z y).mpr hSecond) ((h.nonpos_iff y x).mpr hFirst))

theorem nonpos_of_not_neg (x y : α) (hNot : ¬ (cmp x y).toInt < 0) : (cmp y x).toInt ≤ 0 :=
  (h.nonpos_iff y x).mpr (by omega)

theorem zero_trans (x y z : α) (hFirst : (cmp x y).toInt = 0) (hSecond : (cmp y z).toInt = 0) :
    (cmp x z).toInt = 0 :=
  le_antisymm (h.trans x y z hFirst.le hSecond.le) (h.trans_ge x y z hFirst.ge hSecond.ge)

/-- Strictly before, then at or before, is strictly before. -/
theorem neg_trans (x y z : α) (hFirst : (cmp x y).toInt < 0) (hSecond : (cmp y z).toInt ≤ 0) :
    (cmp x z).toInt < 0 := by
  by_contra hNot
  have hBack := h.nonpos_of_not_neg x z hNot
  have hLoop := h.trans y z x hSecond hBack
  have hPos := (h.neg_iff x y).mp hFirst
  omega

/-- Compare what the elements are mapped to. -/
theorem comap {β : Type*} (f : β → α) : SignPreorder fun x y => cmp (f x) (f y) :=
  ⟨fun x y => h.swap (f x) (f y), fun x y z => h.trans (f x) (f y) (f z)⟩

/-- At or before, then strictly before, is strictly before. -/
theorem trans_neg (x y z : α) (hFirst : (cmp x y).toInt ≤ 0) (hSecond : (cmp y z).toInt < 0) :
    (cmp x z).toInt < 0 := by
  by_contra hNot
  have hBack := h.nonpos_of_not_neg x z hNot
  have hLoop := h.trans z x y hBack hFirst
  have hPos := (h.neg_iff y z).mp hSecond
  omega

/-- Compare by `cmp` first and by `next` where that finds no difference. -/
theorem lex {next : α → α → BitVec 32} (hNext : SignPreorder next) :
    SignPreorder fun x y => if (cmp x y).toInt ≠ 0 then cmp x y else next x y := by
  constructor
  · intro x y
    by_cases hEq : (cmp x y).toInt = 0
    · rw [if_neg (by simpa using hEq), if_neg (by simpa using (h.zero_iff x y).mp hEq)]
      exact hNext.swap x y
    · rw [if_pos hEq, if_pos (mt (h.zero_iff x y).mpr hEq)]
      exact h.swap x y
  · intro x y z hFirst hSecond
    have hxy : (cmp x y).toInt ≤ 0 := by
      split at hFirst <;> omega
    have hyz : (cmp y z).toInt ≤ 0 := by
      split at hSecond <;> omega
    by_cases hBoth : (cmp x y).toInt = 0 ∧ (cmp y z).toInt = 0
    · have hxz := h.zero_trans x y z hBoth.1 hBoth.2
      rw [if_neg (by simpa using hBoth.1)] at hFirst
      rw [if_neg (by simpa using hBoth.2)] at hSecond
      rw [if_neg (by simpa using hxz)]
      exact hNext.trans x y z hFirst hSecond
    · have hxz : (cmp x z).toInt < 0 := by
        by_cases hStrict : (cmp x y).toInt < 0
        · exact h.neg_trans x y z hStrict hyz
        · exact h.trans_neg x y z hxy (by omega)
      rw [if_pos hxz.ne]
      exact hxz.le

theorem nullFirst : SignPreorder (nullFirst cmp) := by
  constructor
  · rintro (- | x) (- | y)
    · rfl
    · rfl
    · rfl
    · exact h.swap x y
  · rintro (- | x) (- | y) (- | z) hFirst hSecond
    all_goals first | exact h.trans x y z hFirst hSecond | simp_all [Library.nullFirst]

end SignPreorder

theorem signPreorder_zero : SignPreorder fun _ _ : α => (0 : BitVec 32) :=
  ⟨fun _ _ => rfl, fun _ _ _ _ _ => le_refl _⟩

def compareLinear [LinearOrder α] (x y : α) : BitVec 32 := if x < y then -1 else if x = y then 0 else 1

theorem toInt_compareLinear [LinearOrder α] (x y : α) :
    (compareLinear x y).toInt = if x < y then -1 else if x = y then 0 else 1 := by
  rw [compareLinear]
  split
  · rfl
  · split <;> rfl

theorem compareLinear_nonpos [LinearOrder α] (x y : α) : (compareLinear x y).toInt ≤ 0 ↔ x ≤ y := by
  rw [toInt_compareLinear]
  rcases lt_trichotomy x y with hLess | rfl | hMore
  · simp [hLess, hLess.le]
  · simp
  · simp [hMore.not_gt, hMore.ne', hMore]

theorem signPreorder_compareLinear [LinearOrder α] :
    SignPreorder (compareLinear : α → α → BitVec 32) := by
  constructor
  · intro x y
    rw [toInt_compareLinear, toInt_compareLinear]
    rcases lt_trichotomy x y with hLess | rfl | hMore
    · simp [hLess, hLess.not_gt, hLess.ne']
    · simp
    · simp [hMore, hMore.not_gt, hMore.ne']
  · intro x y z
    rw [compareLinear_nonpos, compareLinear_nonpos, compareLinear_nonpos]
    exact le_trans

theorem eq_of_compareLinear [LinearOrder α] (x y : α) (h : (compareLinear x y).toInt = 0) : x = y := by
  have hSwap := (signPreorder_compareLinear.zero_iff x y).mp h
  exact le_antisymm ((compareLinear_nonpos x y).mp h.le) ((compareLinear_nonpos y x).mp hSwap.le)

theorem toInt_eq_zero_iff (c : BitVec 32) : c.toInt = 0 ↔ c = 0#32 := by
  constructor
  · intro h
    exact BitVec.eq_of_toInt_eq (by simpa using h)
  · rintro rfl
    rfl

end Library
