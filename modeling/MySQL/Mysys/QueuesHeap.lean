import MySQL.Library.BinaryHeap
import MySQL.Library.System
import MySQL.Mysys.QsortCorrectness
import MySQL.Mysys.Queues

/-! The heap order of a queue. `max_at_top` reverses a comparison by flipping all
bits but the lowest, which maps the answer -2 to 0; the sift down is right as
long as that answer does not occur. -/
namespace MySQL.Queues

open Function Library BinaryHeap

variable {α : Type} {q : Queue α} {root : Nat → α} {hole : Nat} {x y z element : α}

def Queue.Before (q : Queue α) (x y : α) : Prop :=
  if q.maxAtTop = 0#32 then (q.compare x y).toInt ≤ 0 else 0 ≤ (q.compare x y).toInt

/-- Flipping all bits but the lowest reverses the sign of every answer but -2. -/
theorem xor_flag_neg_iff (c : BitVec 32) : (c ^^^ (-1#32 ^^^ 1#32)).toInt < 0 ↔ 0 ≤ c.toInt := by
  have hFlipped : (!decide (c.toInt < 0)) = decide ((c ^^^ (-1#32 ^^^ 1#32)).toInt < 0) := by
    rw [← BitVec.msb_eq_toInt, ← BitVec.msb_eq_toInt, BitVec.msb_xor,
      show (-1#32 ^^^ 1#32).msb = true by decide, Bool.xor_true]
  rw [← decide_not, decide_eq_decide, not_lt] at hFlipped
  exact hFlipped.symm

theorem xor_flag_pos_iff (c : BitVec 32) :
    0 < (c ^^^ (-1#32 ^^^ 1#32)).toInt ↔ c.toInt < 0 ∧ c ≠ -2#32 := by
  have hSign := xor_flag_neg_iff c
  have hZero : (c ^^^ (-1#32 ^^^ 1#32)).toInt = 0 ↔ c = -2#32 := by
    rw [toInt_eq_zero_iff]
    constructor
    · intro h
      have hEq : c = -1#32 ^^^ 1#32 := BitVec.xor_eq_zero_iff.mp h
      rw [hEq]
      decide
    · rintro rfl
      decide
  rw [← not_iff_not] at hZero
  constructor
  · intro h
    exact ⟨by omega, hZero.mp (by omega)⟩
  · rintro ⟨hNeg, hNe⟩
    have hNonzero := hZero.mpr hNe
    omega

/-- The test that prefers the right child in `_downheap`, on answers other than -2. -/
theorem child_test_iff (hPlain : q.maxAtTop = 0#32 ∨ q.compare x y ≠ -2#32) :
    0 < (q.compare x y ^^^ q.maxAtTop).toInt ↔ ¬ q.Before x y := by
  rcases q.flag with hFlag | hFlag
  · have hXor : q.compare x y ^^^ q.maxAtTop = q.compare x y := by rw [hFlag, BitVec.xor_zero]
    unfold Queue.Before
    rw [hXor, if_pos hFlag]
    omega
  · have hPos := xor_flag_pos_iff (q.compare x y)
    have hPlain : q.compare x y ≠ -2#32 := by
      refine hPlain.resolve_left ?_
      rw [hFlag]
      decide
    unfold Queue.Before
    rw [hFlag, if_neg (by decide), hPos, and_iff_left hPlain]
    omega

section Order
variable (hc : SignPreorder q.compare)
include hc

theorem Queue.before_refl (x : α) : q.Before x x := by
  have hSelf := hc.self x
  unfold Queue.Before
  split_ifs <;> omega

theorem Queue.before_trans (x y z : α) (hFirst : q.Before x y) (hSecond : q.Before y z) :
    q.Before x z := by
  unfold Queue.Before at *
  split_ifs at *
  · exact hc.trans x y z hFirst hSecond
  · exact hc.trans_ge x y z hFirst hSecond

/-- The test of `queue_insert` is exact for every answer of the comparison. -/
theorem insert_test_iff :
    (q.compare element x ≠ 0#32 ∧ (q.compare element x ^^^ q.maxAtTop).toInt < 0) ↔
      ¬ q.Before x element := by
  have hZero := toInt_eq_zero_iff (q.compare element x)
  have hSwap := hc.nonpos_iff x element
  have hSwap' := hc.nonpos_iff element x
  rcases q.flag with hFlag | hFlag
  · have hXor : q.compare element x ^^^ q.maxAtTop = q.compare element x := by
      rw [hFlag, BitVec.xor_zero]
    unfold Queue.Before
    rw [hXor, if_pos hFlag, ne_eq, ← hZero]
    omega
  · have hNeg := xor_flag_neg_iff (q.compare element x)
    unfold Queue.Before
    rw [hFlag, if_neg (by decide), ne_eq, ← hZero, hNeg]
    omega

/-- The test for stopping in `_downheap`, on answers other than -2. -/
theorem stop_test_iff (hPlain : q.maxAtTop = 0#32 ∨ q.compare x element ≠ -2#32) :
    (q.compare x element = 0#32 ∨ 0 < (q.compare x element ^^^ q.maxAtTop).toInt) ↔
      q.Before element x := by
  have hSwap := hc.nonpos_iff element x
  have hSwap' := hc.nonpos_iff x element
  rw [child_test_iff hPlain, ← toInt_eq_zero_iff]
  unfold Queue.Before
  split_ifs <;> omega

/-- One of two elements may stand above the other. -/
theorem Queue.before_of_not_before (h : ¬ q.Before x y) : q.Before y x := by
  have hSwap := hc.nonpos_iff x y
  unfold Queue.Before at *
  split_ifs at * <;> omega

end Order

/-- Comparisons between these elements never answer -2 under `max_at_top`. -/
def Queue.Plain (q : Queue α) (s : Multiset α) : Prop :=
  q.maxAtTop = 0#32 ∨ ∀ x ∈ s, ∀ y ∈ s, q.compare x y ≠ -2#32

theorem Queue.Plain.pair {s : Multiset α} (h : q.Plain s) (hx : x ∈ s) (hy : y ∈ s) :
    q.maxAtTop = 0#32 ∨ q.compare x y ≠ -2#32 :=
  h.imp_right fun hNe => hNe x hx y hy

theorem half_eq (idx : Nat) : idx >>> 1 = idx / 2 := Nat.shiftRight_eq_div_pow idx 1

section
variable (hc : SignPreorder q.compare)
include hc

theorem insertLoop_spec {n : Nat} (fuel : Nat) (root : Nat → α) (hole : Nat) (hFuel : hole ≤ fuel)
    (hPos : 1 ≤ hole) (hHole : hole ≤ n) (hScratch : root 0 = element)
    (hSift : SiftUp q.Before root n hole element) :
    Ordered q.Before (update (insertLoop q element fuel root hole).1
        (insertLoop q element fuel root hole).2 element) n ∧
      cells (update (insertLoop q element fuel root hole).1
        (insertLoop q element fuel root hole).2 element) 1 n =
        cells (update root hole element) 1 n := by
  induction fuel generalizing root hole with
  | zero => omega
  | succ fuel ih =>
    unfold insertLoop
    dsimp only
    rw [half_eq]
    split_ifs with hTest
    · rw [insert_test_iff hc] at hTest
      -- the scratch cell holds `element` and ends the loop at the top
      have hTwo : 2 ≤ hole := by
        by_contra hTop
        obtain rfl : hole = 1 := by omega
        apply hTest
        rw [show 1 / 2 = 0 by rfl, hScratch]
        exact Queue.before_refl hc element
      have hMoved := hSift.move (Queue.before_trans hc) hTwo hHole
        (Queue.before_of_not_before hc hTest)
      obtain ⟨hOrdered, hCells⟩ := ih _ _ (by omega) (by omega) (by omega)
        (by rw [update_of_ne (by omega), hScratch]) hMoved
      refine ⟨hOrdered, hCells.trans ?_⟩
      exact cells_move ⟨hPos, hHole⟩ ⟨by omega, by omega⟩ (by omega) element
    · rw [insert_test_iff hc, not_not] at hTest
      exact ⟨hSift.fill fun _ => hTest, rfl⟩

theorem queueInsert_spec (hHeap : Ordered q.Before q.root q.elements) (element : α) :
    Ordered q.Before (queueInsert q element).root (q.elements + 1) ∧
      cells (queueInsert q element).root 1 (q.elements + 1) =
        element ::ₘ cells q.root 1 q.elements := by
  have hSift : SiftUp q.Before (update q.root 0 element) (q.elements + 1)
      (q.elements + 1) element := by
    constructor
    · intro i hTwo hi hSelf _
      rw [update_of_ne (by omega), update_of_ne (by omega)]
      exact hHeap i hTwo (by omega)
    · intro _ c _ hc hChild
      omega
    · intro c _ hc hChild
      omega
  obtain ⟨hOrdered, hCells⟩ := insertLoop_spec hc _ _ _ le_rfl
    (by omega) le_rfl (update_self 0 element q.root) hSift
  refine ⟨hOrdered, hCells.trans ?_⟩
  rw [cells_succ (by omega), update_self, cells_update_of_lt (by omega),
    cells_update_of_lt (by omega)]

/-- The chosen child is a child of the hole and may stand above the other one. -/
theorem nextIndex_spec {s : Multiset α} (hPlain : q.Plain s) (hPos : 1 ≤ hole)
    (hInner : hole ≤ q.elements / 2) (hRoot : ∀ i, 1 ≤ i → i ≤ q.elements → i ≠ hole → root i ∈ s) :
    nextIndex q root hole / 2 = hole ∧ nextIndex q root hole ≤ q.elements ∧
      ∀ d, 2 ≤ d → d ≤ q.elements → d / 2 = hole →
        q.Before (root (nextIndex q root hole)) (root d) := by
  unfold nextIndex
  split_ifs with hRight
  · obtain ⟨hBound, hTest⟩ := hRight
    rw [child_test_iff (hPlain.pair (hRoot _ (by omega) (by omega) (by omega))
      (hRoot _ (by omega) (by omega) (by omega)))] at hTest
    refine ⟨by omega, by omega, fun d hTwo hd hChild => ?_⟩
    rcases (show d = hole + hole ∨ d = hole + hole + 1 by omega) with rfl | rfl
    · exact Queue.before_of_not_before hc hTest
    · exact Queue.before_refl hc _
  · refine ⟨by omega, by omega, fun d hTwo hd hChild => ?_⟩
    rcases (show d = hole + hole ∨ d = hole + hole + 1 by omega) with rfl | rfl
    · exact Queue.before_refl hc _
    · rw [not_and, child_test_iff (hPlain.pair (hRoot _ (by omega) (by omega) (by omega))
        (hRoot _ (by omega) hd (by omega))), not_not] at hRight
      exact hRight (by omega)

theorem downheapLoop_spec {s : Multiset α} (hPlain : q.Plain s) (hElement : element ∈ s)
    (fuel : Nat) (root : Nat → α) (hole : Nat) (hFuel : q.elements < hole + fuel) (hPos : 1 ≤ hole)
    (hHole : hole ≤ q.elements) (hRoot : ∀ i, 1 ≤ i → i ≤ q.elements → i ≠ hole → root i ∈ s)
    (hSift : SiftDown q.Before root q.elements hole element) :
    Ordered q.Before (update (downheapLoop q element fuel root hole).1
        (downheapLoop q element fuel root hole).2 element) q.elements ∧
      cells (update (downheapLoop q element fuel root hole).1
        (downheapLoop q element fuel root hole).2 element) 1 q.elements =
        cells (update root hole element) 1 q.elements := by
  induction fuel generalizing root hole with
  | zero => omega
  | succ fuel ih =>
    unfold downheapLoop
    dsimp only
    rw [half_eq]
    split_ifs with hInner hStop
    · obtain ⟨hChild, hNext, hFirst⟩ := nextIndex_spec hc hPlain hPos hInner hRoot
      rw [stop_test_iff hc (hPlain.pair (hRoot _ (by omega) hNext (by omega)) hElement)] at hStop
      refine ⟨hSift.fill fun c hTwo hcn hParent => ?_, rfl⟩
      exact Queue.before_trans hc _ _ _ hStop (hFirst c hTwo hcn hParent)
    · obtain ⟨hChild, hNext, hFirst⟩ := nextIndex_spec hc hPlain hPos hInner hRoot
      rw [stop_test_iff hc (hPlain.pair (hRoot _ (by omega) hNext (by omega)) hElement)] at hStop
      generalize nextIndex q root hole = next at *
      have hMoved := hSift.move hPos hChild hNext (Queue.before_of_not_before hc hStop) hFirst
      have hRoot' : ∀ i, 1 ≤ i → i ≤ q.elements → i ≠ next →
          update root hole (root next) i ∈ s := by
        intro i hi hin hNe
        by_cases hSelf : i = hole
        · rw [hSelf, update_self]
          exact hRoot next (by omega) hNext (by omega)
        · rw [update_of_ne hSelf]
          exact hRoot i hi hin hSelf
      obtain ⟨hOrdered, hCells⟩ := ih _ next (by omega) (by omega) hNext hRoot' hMoved
      refine ⟨hOrdered, hCells.trans ?_⟩
      exact cells_move ⟨hPos, hHole⟩ ⟨by omega, hNext⟩ (by omega) element
    · exact ⟨hSift.fill fun c hTwo hcn hParent => by omega, rfl⟩

theorem downheap_spec (hPos : 1 ≤ hole) (hHole : hole ≤ q.elements)
    (hPlain : q.Plain (cells q.root 1 q.elements))
    (hSift : SiftDown q.Before q.root q.elements hole (q.root hole)) :
    Ordered q.Before (downheap q hole).root q.elements ∧
      cells (downheap q hole).root 1 q.elements = cells q.root 1 q.elements := by
  have hMem : ∀ i, 1 ≤ i → i ≤ q.elements → q.root i ∈ cells q.root 1 q.elements :=
    fun i hi hin => mem_cells.mpr ⟨i, hi, hin, rfl⟩
  obtain ⟨hOrdered, hCells⟩ := downheapLoop_spec hc hPlain (hMem hole hPos hHole) q.elements
    q.root hole (by omega) hPos hHole (fun i hi hin _ => hMem i hi hin) hSift
  refine ⟨hOrdered, hCells.trans ?_⟩
  rw [update_eq_self]

/-- Removal makes a heap of the rest when the element that fills the hole may stand below
the parent of the hole. The removed element itself may be anywhere. -/
theorem queueRemove_of_except {idx : Nat} (hIdx : idx < q.elements)
    (hExcept : OrderedExcept q.Before q.root q.elements (idx + 1))
    (hSpans : Spans q.Before q.root q.elements (idx + 1))
    (hPlain : q.Plain (cells q.root 1 q.elements))
    (hParent : 1 ≤ idx → q.Before (q.root ((idx + 1) / 2)) (q.root q.elements)) :
    Ordered q.Before (queueRemove q idx).1.root (q.elements - 1) ∧
      q.root (idx + 1) ::ₘ cells (queueRemove q idx).1.root 1 (q.elements - 1) =
        cells q.root 1 q.elements := by
  have hAll : cells q.root 1 q.elements =
      q.root q.elements ::ₘ cells q.root 1 (q.elements - 1) := by
    obtain ⟨n, hn⟩ : ∃ n, q.elements = n + 1 := ⟨q.elements - 1, by omega⟩
    rw [hn, cells_succ (by omega)]
    rfl
  by_cases hLast : idx + 1 = q.elements
  · -- the hole is past the end of the shorter heap and the loop does not run
    have hRoot : (queueRemove q idx).1.root = q.root := by
      have hLoop : ∀ q' : Queue α, q'.elements = idx → ∀ root : Nat → α,
          downheapLoop q' (q.root q.elements) q'.elements root (idx + 1) = (root, idx + 1) := by
        intro q' hElements root
        rw [hElements]
        cases idx with
        | zero => rfl
        | succ idx =>
          unfold downheapLoop
          rw [if_neg]
          rw [half_eq, hElements]
          omega
      simp only [queueRemove, downheap]
      rw [update_self, hLoop _ (by dsimp only; omega)]
      rw [hLast, update_idem, update_eq_self]
    rw [hRoot, hAll, hLast]
    exact ⟨fun i hTwo hi => hExcept i hTwo (by omega) (by omega) (by omega), rfl⟩
  · let shorter : Queue α := { q with
      root := update q.root (idx + 1) (q.root q.elements)
      elements := q.elements - 1 }
    have hCells : q.root (idx + 1) ::ₘ cells shorter.root 1 (q.elements - 1) =
        cells q.root 1 q.elements := by
      rw [hAll]
      exact cells_update (by omega) (by omega) _
    have hPlain' : shorter.Plain (cells shorter.root 1 shorter.elements) := by
      refine hPlain.imp_right fun hNe x hx y hy => hNe x ?_ y ?_
      · rw [← hCells]
        exact Multiset.mem_cons_of_mem hx
      · rw [← hCells]
        exact Multiset.mem_cons_of_mem hy
    have hSift : SiftDown q.Before shorter.root shorter.elements (idx + 1)
        (shorter.root (idx + 1)) := by
      have hSelf : shorter.root (idx + 1) = q.root q.elements := update_self _ _ _
      have hOther : ∀ i, i ≠ idx + 1 → shorter.root i = q.root i := fun i hNe =>
        update_of_ne hNe _ _
      constructor
      · intro i hTwo hi hNe hUp
        rw [hOther i hNe, hOther _ hUp]
        exact hExcept i hTwo (le_trans hi (Nat.sub_le _ _)) hNe hUp
      · intro hTwo c hc' hcn hUp
        rw [hOther c (by omega), hOther _ (by omega)]
        exact hSpans hTwo c hc' (le_trans hcn (Nat.sub_le _ _)) hUp
      · intro hTwo
        rw [hSelf, hOther _ (by omega)]
        exact hParent (by omega)
    obtain ⟨hOrdered, hSame⟩ := downheap_spec (q := shorter) hc (by omega)
      (show idx + 1 ≤ q.elements - 1 by omega) hPlain' hSift
    refine ⟨hOrdered, ?_⟩
    rw [← hCells]
    exact congrArg (q.root (idx + 1) ::ₘ ·) hSame

/-- Removal keeps the heap when the element that fills the hole may stand below
the parent of the hole. -/
theorem queueRemove_spec (hHeap : Ordered q.Before q.root q.elements) {idx : Nat}
    (hIdx : idx < q.elements) (hPlain : q.Plain (cells q.root 1 q.elements))
    (hParent : 1 ≤ idx → q.Before (q.root ((idx + 1) / 2)) (q.root q.elements)) :
    Ordered q.Before (queueRemove q idx).1.root (q.elements - 1) ∧
      q.root (idx + 1) ::ₘ cells (queueRemove q idx).1.root 1 (q.elements - 1) =
        cells q.root 1 q.elements :=
  queueRemove_of_except hc hIdx (hHeap.except _) (hHeap.spans (Queue.before_trans hc) _) hPlain hParent

theorem queueReplaced_spec (hHeap : Ordered q.Before q.root q.elements) (hElements : 0 < q.elements)
    (x : α) (hPlain : q.Plain (cells (update q.root 1 x) 1 q.elements)) :
    Ordered q.Before (queueReplaced { q with root := update q.root 1 x }).root q.elements ∧
      cells (queueReplaced { q with root := update q.root 1 x }).root 1 q.elements =
        cells (update q.root 1 x) 1 q.elements := by
  refine downheap_spec (q := { q with root := update q.root 1 x }) hc le_rfl hElements
    hPlain ⟨fun i hTwo hi hNe hUp => ?_, fun hTwo => ?_, fun hTwo => ?_⟩
  · change q.Before (update q.root 1 x (i / 2)) (update q.root 1 x i)
    rw [update_of_ne hNe, update_of_ne hUp]
    exact hHeap i hTwo hi
  · omega
  · omega

theorem queueFix_spec (hSize : 8 * q.elements < 2 ^ 31) (hDirection : q.maxAtTop = 0#32 ∨
      ∀ x ∈ cells q.root 1 q.elements, ∀ y ∈ cells q.root 1 q.elements, q.compare x y = 0#32) :
    Ordered q.Before (queueFix q).root q.elements ∧
      cells (queueFix q).root 1 q.elements = cells q.root 1 q.elements := by
  obtain ⟨hAscending, hMoved⟩ := Qsort.qsort2_sorts hc q.root 1 q.elements le_rfl hSize
  rw [Nat.add_sub_cancel_left] at hAscending hMoved
  have hCells := hMoved.cells_eq le_rfl le_rfl
  refine ⟨ordered_of_ascending fun i j hi hij hj => ?_, hCells⟩
  unfold Queue.Before
  split_ifs with hFlag
  · exact hAscending i j hi hij hj
  · have hMem : ∀ k, 1 ≤ k → k ≤ q.elements → (queueFix q).root k ∈ cells q.root 1 q.elements := by
      intro k hk hkn
      rw [← hCells]
      exact mem_cells.mpr ⟨k, hk, hkn, rfl⟩
    rw [hDirection.resolve_left hFlag _ (hMem i hi (by omega)) _ (hMem j (by omega) hj)]
    rfl

end

end MySQL.Queues
