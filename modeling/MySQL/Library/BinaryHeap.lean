import MySQL.Library.Cells

/-! Binary heaps stored from cell 1 on, the children of cell `i` being `2i` and
`2i + 1`. Sifting is described by a hole: the cell whose value is held outside
the array until the hole stops moving. -/
namespace Library.BinaryHeap
open Function

universe u
variable {α : Type u} {le : α → α → Prop} {a : Nat → α} {n hole : Nat} {e : α}

def Ordered (le : α → α → Prop) (a : Nat → α) (n : Nat) : Prop :=
  ∀ i, 2 ≤ i → i ≤ n → le (a (i / 2)) (a i)

/-- The first cell comes before all others. -/
theorem Ordered.top (h : Ordered le a n) (hRefl : ∀ x, le x x)
    (hTrans : ∀ x y z, le x y → le y z → le x z) (i : Nat) (hPos : 1 ≤ i) (hi : i ≤ n) :
    le (a 1) (a i) := by
  induction i using Nat.strong_induction_on with
  | h i ih =>
    by_cases hOne : i = 1
    · rw [hOne]
      exact hRefl _
    · exact hTrans _ _ _ (ih (i / 2) (by omega) (by omega) (by omega)) (h i (by omega) hi)

def OrderedExcept (le : α → α → Prop) (a : Nat → α) (n hole : Nat) : Prop :=
  ∀ i, 2 ≤ i → i ≤ n → i ≠ hole → i / 2 ≠ hole → le (a (i / 2)) (a i)

def Spans (le : α → α → Prop) (a : Nat → α) (n hole : Nat) : Prop :=
  2 ≤ hole → ∀ c, 2 ≤ c → c ≤ n → c / 2 = hole → le (a (hole / 2)) (a c)

theorem Ordered.except (h : Ordered le a n) (hole : Nat) : OrderedExcept le a n hole :=
  fun i hTwo hi _ _ => h i hTwo hi

theorem Ordered.spans (h : Ordered le a n) (hTrans : ∀ x y z, le x y → le y z → le x z)
    (hole : Nat) : Spans le a n hole := by
  intro hTwo c hc hcn hParent
  have hUp := h hole hTwo (by omega)
  have hDown := h c hc hcn
  rw [hParent] at hDown
  exact hTrans _ _ _ hUp hDown

structure SiftDown (le : α → α → Prop) (a : Nat → α) (n hole : Nat) (e : α) : Prop where
  except : OrderedExcept le a n hole
  spans : Spans le a n hole
  above : 2 ≤ hole → le (a (hole / 2)) e

structure SiftUp (le : α → α → Prop) (a : Nat → α) (n hole : Nat) (e : α) : Prop where
  except : OrderedExcept le a n hole
  spans : Spans le a n hole
  below : ∀ c, 2 ≤ c → c ≤ n → c / 2 = hole → le e (a c)

/-- Once `e` is at or after the parent of the hole and at or before its children,
storing it there restores the heap. -/
theorem ordered_fill (h : OrderedExcept le a n hole) (hAbove : 2 ≤ hole → le (a (hole / 2)) e)
    (hBelow : ∀ c, 2 ≤ c → c ≤ n → c / 2 = hole → le e (a c)) :
    Ordered le (update a hole e) n := by
  intro i hTwo hi
  by_cases hSelf : i = hole
  · subst hSelf
    rw [update_self, update_of_ne (by omega)]
    exact hAbove hTwo
  · rw [update_of_ne hSelf]
    by_cases hParent : i / 2 = hole
    · rw [hParent, update_self]
      exact hBelow i hTwo hi hParent
    · rw [update_of_ne hParent]
      exact h i hTwo hi hSelf hParent

theorem SiftDown.fill (h : SiftDown le a n hole e)
    (hBelow : ∀ c, 2 ≤ c → c ≤ n → c / 2 = hole → le e (a c)) :
    Ordered le (update a hole e) n :=
  ordered_fill h.except h.above hBelow

theorem SiftUp.fill (h : SiftUp le a n hole e) (hAbove : 2 ≤ hole → le (a (hole / 2)) e) :
    Ordered le (update a hole e) n :=
  ordered_fill h.except hAbove h.below

/-- The first child `c` of the hole moves up and leaves the hole behind. -/
theorem SiftDown.move (h : SiftDown le a n hole e) {c : Nat} (hPos : 1 ≤ hole)
    (hChild : c / 2 = hole) (hc : c ≤ n) (hBefore : le (a c) e)
    (hFirst : ∀ d, 2 ≤ d → d ≤ n → d / 2 = hole → le (a c) (a d)) :
    SiftDown le (update a hole (a c)) n c e := by
  constructor
  · intro i hTwo hi hSelf hParent
    by_cases hHole : i = hole
    · subst hHole
      rw [update_self, update_of_ne (by omega)]
      exact h.spans hTwo c (by omega) hc hChild
    · rw [update_of_ne hHole]
      by_cases hUp : i / 2 = hole
      · rw [hUp, update_self]
        exact hFirst i hTwo hi hUp
      · rw [update_of_ne hUp]
        exact h.except i hTwo hi hHole hUp
  · intro _ d hTwo hd hUp
    rw [hChild, update_self, update_of_ne (by omega)]
    have hOrder := h.except d hTwo hd (by omega) (by omega)
    rwa [hUp] at hOrder
  · intro _
    rw [hChild, update_self]
    exact hBefore

/-- The parent of the hole moves down and leaves the hole behind. -/
theorem SiftUp.move (h : SiftUp le a n hole e) (hTrans : ∀ x y z, le x y → le y z → le x z)
    (hTwo : 2 ≤ hole) (hHole : hole ≤ n) (hBefore : le e (a (hole / 2))) :
    SiftUp le (update a hole (a (hole / 2))) n (hole / 2) e := by
  -- the parent stays at or before its other child and at or after its own parent
  have hSibling : ∀ c, 2 ≤ c → c ≤ n → c ≠ hole → c / 2 = hole / 2 → le (a (hole / 2)) (a c) := by
    intro c hc hcn hNe hUp
    have hOrder := h.except c hc hcn hNe (by omega)
    rwa [hUp] at hOrder
  have hParent : 2 ≤ hole / 2 → le (a (hole / 2 / 2)) (a (hole / 2)) := fun hUp =>
    h.except _ hUp (by omega) (by omega) (by omega)
  constructor
  · intro i hi hin hSelf hUp
    have hNe : i ≠ hole := by
      rintro rfl
      exact hUp rfl
    rw [update_of_ne hNe]
    by_cases hChild : i / 2 = hole
    · rw [hChild, update_self]
      exact h.spans hTwo i hi hin hChild
    · rw [update_of_ne hChild]
      exact h.except i hi hin hNe hChild
  · intro hUp c hc hcn hChild
    rw [update_of_ne (by omega)]
    by_cases hSelf : c = hole
    · rw [hSelf, update_self]
      exact hParent hUp
    · rw [update_of_ne hSelf]
      exact hTrans _ _ _ (hParent hUp) (hSibling c hc hcn hSelf hChild)
  · intro c hc hcn hChild
    by_cases hSelf : c = hole
    · rw [hSelf, update_self]
      exact hBefore
    · rw [update_of_ne hSelf]
      exact hTrans _ _ _ hBefore (hSibling c hc hcn hSelf hChild)

/-- An array whose cells ascend is a heap. -/
theorem ordered_of_ascending (h : ∀ i j, 1 ≤ i → i < j → j ≤ n → le (a i) (a j)) : Ordered le a n :=
  fun i hTwo hi => h (i / 2) i (by omega) (by omega) hi

end Library.BinaryHeap
