import MySQL.Library.Compare

/-! Lists compared as if each went on with a padding element for ever. -/
namespace Library

variable {α : Type*} [LinearOrder α]

theorem toInt_compareLinear_cons (x y : α) (u v : List α) :
    (compareLinear (x :: u) (y :: v)).toInt =
      if x = y then (compareLinear u v).toInt else (compareLinear x y).toInt := by
  rw [toInt_compareLinear, toInt_compareLinear, toInt_compareLinear]
  by_cases hHead : x = y
  · subst hHead
    simp only [List.cons_lt_cons_iff, lt_irrefl, false_or, true_and, List.cons.injEq, if_true]
    congr
  · simp [List.cons_lt_cons_iff, hHead]

/-- The sign of the first difference of two lists, the shorter one padded. -/
def comparePadded (pad : α) : List α → List α → Int
  | [], [] => 0
  | x :: u, [] => if x = pad then comparePadded pad u [] else (compareLinear x pad).toInt
  | [], y :: v => if pad = y then comparePadded pad [] v else (compareLinear pad y).toInt
  | x :: u, y :: v => if x = y then comparePadded pad u v else (compareLinear x y).toInt
termination_by u v => u.length + v.length

/-- Every common length that holds both lists gives the same answer. -/
theorem comparePadded_eq (pad : α) {n : Nat} {u v : List α} (hu : u.length ≤ n)
    (hv : v.length ≤ n) :
    comparePadded pad u v = (compareLinear (u.rightpad n pad) (v.rightpad n pad)).toInt := by
  induction n generalizing u v with
  | zero =>
    rw [List.eq_nil_of_length_eq_zero (Nat.le_zero.mp hu),
      List.eq_nil_of_length_eq_zero (Nat.le_zero.mp hv), comparePadded, toInt_compareLinear]
    simp
  | succ n ih =>
    have hCons (x : α) (w : List α) : (x :: w).rightpad (n + 1) pad = x :: w.rightpad n pad := by
      simp [List.rightpad]
    have hNil : ([] : List α).rightpad (n + 1) pad = pad :: [].rightpad n pad := rfl
    rcases u with - | ⟨x, u⟩ <;> rcases v with - | ⟨y, v⟩ <;>
      simp only [hCons, hNil, toInt_compareLinear_cons, comparePadded]
    · simp [toInt_compareLinear]
    · rw [ih (by simp) (Nat.le_of_succ_le_succ hv)]
    · rw [ih (Nat.le_of_succ_le_succ hu) (by simp)]
    · rw [ih (Nat.le_of_succ_le_succ hu) (Nat.le_of_succ_le_succ hv)]

theorem sign_comparePadded (pad : α) (u v : List α) :
    (comparePadded pad u v).sign = comparePadded pad u v := by
  rw [comparePadded_eq pad (le_max_left _ _) (le_max_right _ _), toInt_compareLinear]
  split_ifs <;> rfl

/-- A comparison whose sign is that of padded lists is a total preorder. -/
theorem signPreorder_of_padded {β : Type*} {cmp : β → β → BitVec 32} (pad : α) (f : β → List α)
    (h : ∀ x y, (cmp x y).toInt.sign = comparePadded pad (f x) (f y)) : SignPreorder cmp := by
  have hOrder := signPreorder_compareLinear (α := List α)
  have hSign (n : Nat) (x y : β) (hx : (f x).length ≤ n) (hy : (f y).length ≤ n) :
      (cmp x y).toInt.sign =
        (compareLinear ((f x).rightpad n pad) ((f y).rightpad n pad)).toInt :=
    (h x y).trans (comparePadded_eq pad hx hy)
  constructor
  · intro x y
    have hSwap := hOrder.swap ((f x).rightpad (max (f x).length (f y).length) pad)
      ((f y).rightpad (max (f x).length (f y).length) pad)
    rwa [← hSign _ x y (le_max_left _ _) (le_max_right _ _),
      ← hSign _ y x (le_max_right _ _) (le_max_left _ _), Int.sign_sign, Int.sign_sign] at hSwap
  · intro x y z hFirst hSecond
    obtain ⟨n, hx, hy, hz⟩ : ∃ n, (f x).length ≤ n ∧ (f y).length ≤ n ∧ (f z).length ≤ n :=
      ⟨(f x).length + (f y).length + (f z).length, by omega, by omega, by omega⟩
    rw [← Int.sign_nonpos_iff, hSign n _ _ hx hy] at hFirst
    rw [← Int.sign_nonpos_iff, hSign n _ _ hy hz] at hSecond
    rw [← Int.sign_nonpos_iff, hSign n _ _ hx hz]
    exact hOrder.trans _ _ _ hFirst hSecond

theorem rdropWhile_rightpad (pad : α) (n : Nat) (u : List α) :
    (u.rightpad n pad).rdropWhile (· = pad) = u.rdropWhile (· = pad) := by
  rw [List.rightpad]
  induction n - u.length with
  | zero => simp
  | succ k ih => rw [List.replicate_succ', ← List.append_assoc,
      List.rdropWhile_concat_pos _ _ _ (by simp), ih]

theorem rdropWhile_eq_of_comparePadded {pad : α} {u v : List α} (h : comparePadded pad u v = 0) :
    u.rdropWhile (· = pad) = v.rdropWhile (· = pad) := by
  rw [comparePadded_eq pad (le_max_left _ _) (le_max_right _ _)] at h
  have hSame := eq_of_compareLinear _ _ h
  rw [← rdropWhile_rightpad pad _ u, hSame, rdropWhile_rightpad]

end Library
