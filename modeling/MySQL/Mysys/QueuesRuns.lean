import MySQL.Mysys.QueuesHeap

/-! Runs of a queue. The state pairs the queue with the elements its callers have
put in and not yet taken out, which the array must hold in heap order. -/
namespace MySQL.Queues

open Library BinaryHeap Multiset Option

variable {α : Type}

structure State (α : Type) where
  queue : Queue α
  queued : Multiset α

/-- One call. `replaced` stores another element at the top first, and `fix` stores
another element in every cell of the heap first. -/
inductive Call (α : Type) where
  | insert (element : α)
  | remove (idx : Nat)
  | replaced (element : α)
  | fix (elements : Nat → α)

def Queue.change (q : Queue α) (elements : Nat → α) : Queue α :=
  { q with root := fun i => if 1 ≤ i ∧ i ≤ q.elements then elements i else q.root i }

/-- An insert needs room, a removal an index in use, a replacement a top element. -/
def system [DecidableEq α] : System (State α) (Call α) where
  step s
    | .insert element =>
      if s.queue.elements < s.queue.maxElements then
        some ⟨queueInsert s.queue element, element ::ₘ s.queued⟩
      else none
    | .remove idx =>
      if idx < s.queue.elements then
        some ⟨(queueRemove s.queue idx).1, s.queued.erase (queueRemove s.queue idx).2⟩
      else none
    | .replaced element =>
      if 0 < s.queue.elements then
        some ⟨queueReplaced { s.queue with root := Function.update s.queue.root 1 element },
          element ::ₘ s.queued.erase (queueTop s.queue)⟩
      else none
    | .fix elements =>
      some ⟨queueFix (s.queue.change elements), cells elements 1 s.queue.elements⟩

def start (memory : Nat → α) (maxElements : Nat) (maxAtTop : Bool)
    (compare : α → α → BitVec 32) : State α :=
  ⟨initQueue memory maxElements maxAtTop compare, 0⟩

/-- The array is a rearrangement of the queued elements in heap order, and so the
top may stand above every queued element. -/
structure HeapOfQueued (s : State α) : Prop where
  permutation : cells s.queue.root 1 s.queue.elements = s.queued
  ordered : Ordered s.queue.Before s.queue.root s.queue.elements
  top : ∀ x ∈ s.queued, s.queue.Before (queueTop s.queue) x

/-- The calls that keep the heap. Under `max_at_top` no comparison `_downheap` may
make answers -2; a removal below the top fills its hole with an element that may
stand below the hole's parent; and `queue_fix` sorts few enough elements in the
direction of the queue, unless they all compare equal. -/
def KeepsHeap (s : State α) : Call α → Prop
  | .insert _ => True
  | .remove idx =>
    s.queue.Plain (cells s.queue.root 1 s.queue.elements) ∧
      (1 ≤ idx → s.queue.Before (s.queue.root ((idx + 1) / 2)) (s.queue.root s.queue.elements))
  | .replaced element =>
    s.queue.Plain (cells (Function.update s.queue.root 1 element) 1 s.queue.elements)
  | .fix elements =>
    8 * s.queue.elements < 2 ^ 31 ∧
      (s.queue.maxAtTop = 0#32 ∨
        ∀ x ∈ cells elements 1 s.queue.elements, ∀ y ∈ cells elements 1 s.queue.elements,
          s.queue.compare x y = 0#32)

theorem heapOfQueued_of_ordered {s : State α} (hc : SignPreorder s.queue.compare)
    (hCells : cells s.queue.root 1 s.queue.elements = s.queued)
    (hOrdered : Ordered s.queue.Before s.queue.root s.queue.elements) : HeapOfQueued s := by
  refine ⟨hCells, hOrdered, fun x hx => ?_⟩
  rw [← hCells] at hx
  obtain ⟨i, hi, hin, rfl⟩ := mem_cells.mp hx
  exact hOrdered.top (Queue.before_refl hc) (Queue.before_trans hc) i hi hin

theorem cells_change (q : Queue α) (elements : Nat → α) :
    cells (q.change elements).root 1 q.elements = cells elements 1 q.elements := by
  apply cells_congr
  intro i hi hin
  exact if_pos ⟨hi, hin⟩

/-- One call that keeps the heap leads from a heap to a heap. -/
theorem step_heap [DecidableEq α] {s t : State α} {call : Call α}
    (hc : SignPreorder s.queue.compare) (hHeap : HeapOfQueued s) (hKeeps : KeepsHeap s call)
    (hStep : system.step s call = some t) :
    SignPreorder t.queue.compare ∧ HeapOfQueued t := by
  cases call with
  | insert element =>
    simp only [system, ite_none_right_eq_some, some.injEq] at hStep
    obtain ⟨-, rfl⟩ := hStep
    obtain ⟨hOrdered, hCells⟩ := queueInsert_spec hc hHeap.ordered element
    rw [hHeap.permutation] at hCells
    exact ⟨hc, heapOfQueued_of_ordered hc hCells hOrdered⟩
  | remove idx =>
    simp only [system, ite_none_right_eq_some, some.injEq] at hStep
    obtain ⟨hIdx, rfl⟩ := hStep
    obtain ⟨hOrdered, hCells⟩ := queueRemove_spec hc hHeap.ordered hIdx hKeeps.1 hKeeps.2
    refine ⟨hc, heapOfQueued_of_ordered hc ?_ hOrdered⟩
    rw [hHeap.permutation] at hCells
    have hErase := congrArg (erase · (s.queue.root (idx + 1))) hCells
    rw [erase_cons_head] at hErase
    exact hErase
  | replaced element =>
    simp only [system, ite_none_right_eq_some, some.injEq] at hStep
    obtain ⟨hElements, rfl⟩ := hStep
    obtain ⟨hOrdered, hCells⟩ := queueReplaced_spec hc hHeap.ordered hElements element hKeeps
    refine ⟨hc, heapOfQueued_of_ordered hc (hCells.trans ?_) hOrdered⟩
    have hSwap := cells_update (a := s.queue.root) le_rfl hElements element
    rw [hHeap.permutation] at hSwap
    have hErase := congrArg (erase · (s.queue.root 1)) hSwap
    rw [erase_cons_head] at hErase
    rw [hErase]
    by_cases hSame : element = s.queue.root 1
    · have hTop : s.queue.root 1 ∈ s.queued := by
        rw [← hHeap.permutation]
        exact mem_cells.mpr ⟨1, le_rfl, hElements, rfl⟩
      rw [hSame, erase_cons_head]
      exact (cons_erase hTop).symm
    · exact erase_cons_tail _ hSame
  | fix elements =>
    simp only [system, some.injEq] at hStep
    subst hStep
    obtain ⟨hOrdered, hCells⟩ := queueFix_spec (q := s.queue.change elements) hc hKeeps.1 (by
      change _ ∨ ∀ x ∈ cells (s.queue.change elements).root 1 s.queue.elements,
        ∀ y ∈ cells (s.queue.change elements).root 1 s.queue.elements, _
      rw [cells_change]
      exact hKeeps.2)
    exact ⟨hc, heapOfQueued_of_ordered hc (hCells.trans (cells_change _ _)) hOrdered⟩

/-- A step needs that the comparison is a preorder, and no call changes the comparison. -/
theorem heap_of_run [DecidableEq α] {memory : Nat → α} {maxElements : Nat} {maxAtTop : Bool}
    {compare : α → α → BitVec 32} (hc : SignPreorder compare) {s : State α}
    (run : system.Run KeepsHeap (start memory maxElements maxAtTop compare) s) :
    SignPreorder s.queue.compare ∧ HeapOfQueued s :=
  run.invariant (fun s => SignPreorder s.queue.compare ∧ HeapOfQueued s)
    ⟨hc, heapOfQueued_of_ordered hc rfl fun i hTwo hi =>
      absurd (show i ≤ 0 from hi) (by omega)⟩
    (fun a call b hInv => step_heap hInv.1 hInv.2)

/-- In every run of calls that keep the heap, the array holds the queued elements
in heap order and `queue_top` is a minimum, or a maximum under `max_at_top`. -/
theorem heapOfQueued_of_run [DecidableEq α] (memory : Nat → α) (maxElements : Nat)
    (maxAtTop : Bool) (compare : α → α → BitVec 32) (hc : SignPreorder compare) {s : State α}
    (run : system.Run KeepsHeap (start memory maxElements maxAtTop compare) s) :
    HeapOfQueued s :=
  (heap_of_run hc run).2

def compareNat (size : BitVec 32) (x y : Nat) : BitVec 32 :=
  if x < y then -size else if y < x then size else 0#32

theorem signPreorder_compareNat {size : BitVec 32} (hPos : size.toInt.sign = 1)
    (hNeg : (-size).toInt.sign = -1) : SignPreorder (compareNat size) := by
  have hPos' := Int.sign_eq_one_iff_pos.mp hPos
  have hNeg' := Int.sign_eq_neg_one_iff_neg.mp hNeg
  have hZero : (0#32).toInt = 0 := rfl
  constructor
  · intro x y
    unfold compareNat
    rcases lt_trichotomy x y with h | rfl | h
    · rw [if_pos h, if_neg (by omega), if_pos h, hPos, hNeg]
    · simp
    · rw [if_neg (by omega), if_pos h, if_pos h, hPos, hNeg, neg_neg]
  · intro x y z
    unfold compareNat
    split_ifs <;> omega

theorem heapOfQueued_insert_insert_remove :
    ∃ s, system.exec (start (fun _ => 0) 4 false (compareNat 1#32))
        [.insert 3, .insert 1, .remove 0] = some s ∧ HeapOfQueued s := by
  have hFirst : system.Run KeepsHeap (start (fun _ => 0) 4 false (compareNat 1#32)) _ :=
    System.Run.snoc Relation.ReflTransGen.refl (.insert 3) trivial rfl
  have hSecond := System.Run.snoc hFirst (.insert 1) trivial rfl
  have hThird := System.Run.snoc hSecond (.remove 0) ⟨.inl rfl, fun h => by omega⟩ rfl
  exact ⟨_, rfl, heapOfQueued_of_run (fun _ => 0) 4 false _
    (signPreorder_compareNat (by decide) (by decide)) hThird⟩

instance (q : Queue α) (x y : α) : Decidable (q.Before x y) := by
  dsimp only [Queue.Before]
  infer_instance

/-- A run to an array with an element that may not stand below its parent. -/
private theorem not_heap_of_exec [DecidableEq α] {s₀ : State α} (i : Nat) (hTwo : 2 ≤ i) (calls : List (Call α))
    (hRun : (system.exec s₀ calls).map (fun s => decide (i ≤ s.queue.elements ∧
      ¬ s.queue.Before (s.queue.root (i / 2)) (s.queue.root i))) = some true) :
    ¬ ∀ s, system.Reachable s₀ s → HeapOfQueued s := by
  intro h
  obtain ⟨s, hExec, hEq⟩ := map_eq_some_iff.mp hRun
  obtain ⟨hIn, hNot⟩ := of_decide_eq_true hEq
  exact hNot ((h s (System.reachable_of_exec hExec)).ordered i hTwo hIn)

/-- Total preorders for which a run leaves an array that is no heap: a removal
below the top filled by an element before the parent, a `queue_fix` under
`max_at_top`, and a comparison answering -2 under `max_at_top`. -/
theorem not_heapOfQueued_of_reachable :
    SignPreorder (compareNat 1#32) ∧ SignPreorder (compareNat 2#32) ∧
    (¬ ∀ s, system.Reachable (start (fun _ => 0) 8 false (compareNat 1#32)) s → HeapOfQueued s) ∧
    (¬ ∀ s, system.Reachable (start (fun _ => 0) 8 true (compareNat 1#32)) s → HeapOfQueued s) ∧
    (¬ ∀ s, system.Reachable (start (fun _ => 0) 8 true (compareNat 2#32)) s → HeapOfQueued s) := by
  refine ⟨signPreorder_compareNat (by decide) (by decide), signPreorder_compareNat (by decide) (by decide), ?_, ?_, ?_⟩
  · exact not_heap_of_exec 4 (by decide) [.insert 1, .insert 5, .insert 2, .insert 6, .insert 7, .insert 3, .insert 4,
      .remove 3] (by decide)
  · exact not_heap_of_exec 2 (by decide) [.insert 1, .insert 2, .fix fun i => i] (by decide)
  · exact not_heap_of_exec 2 (by decide) [.insert 1, .insert 2, .insert 3, .replaced 3] (by decide)

/-- The elements that `queue_remove` gives out when it takes the top a number of times. -/
def removeTops : Nat → Queue α → List α
  | 0, _ => []
  | count + 1, q => (queueRemove q 0).2 :: removeTops count (queueRemove q 0).1

/-- Removing the top of a heap over and over gives all its elements in order. -/
theorem removeTops_spec {q : Queue α} (hc : SignPreorder q.compare) (hPlain : q.Plain (cells q.root 1 q.elements))
    (hHeap : Ordered q.Before q.root q.elements) {count : Nat} (hCount : q.elements = count) :
    (removeTops count q : Multiset α) = cells q.root 1 q.elements ∧
      (removeTops count q).Pairwise q.Before := by
  induction count generalizing q with
  | zero => simp [removeTops, hCount, cells]
  | succ count ih =>
    obtain ⟨hOrdered, hCells⟩ := queueRemove_spec hc hHeap (show 0 < q.elements by omega) hPlain (by omega)
    have hElements : (queueRemove q 0).1.elements = q.elements - 1 := rfl
    have hSub : cells (queueRemove q 0).1.root 1 (q.elements - 1) ≤ cells q.root 1 q.elements :=
      hCells ▸ le_cons_self _ _
    obtain ⟨hRest, hSorted⟩ := ih (q := (queueRemove q 0).1) hc
      (hPlain.imp_right fun hNe x hx y hy => hNe x (mem_of_le hSub hx) y (mem_of_le hSub hy))
      hOrdered (by omega)
    rw [hElements] at hRest
    refine ⟨?_, List.pairwise_cons.mpr ⟨fun y hy => ?_, hSorted⟩⟩
    · rw [← hCells, ← hRest]
      rfl
    · have hMem : y ∈ cells q.root 1 q.elements :=
        mem_of_le hSub (hRest ▸ mem_coe.mpr hy)
      obtain ⟨i, hi, hin, rfl⟩ := mem_cells.mp hMem
      exact hHeap.top (Queue.before_refl hc) (Queue.before_trans hc) i hi hin

/-- In every run of calls that keep the heap, removing the top until the queue is empty gives
the queued elements in order. -/
theorem removeTops_of_run [DecidableEq α] (memory : Nat → α) (maxElements : Nat)
    (maxAtTop : Bool) (compare : α → α → BitVec 32) (hc : SignPreorder compare) {s : State α}
    (run : system.Run KeepsHeap (start memory maxElements maxAtTop compare) s)
    (hPlain : s.queue.Plain s.queued) :
    (removeTops s.queue.elements s.queue : Multiset α) = s.queued ∧
      (removeTops s.queue.elements s.queue).Pairwise s.queue.Before := by
  obtain ⟨hCompare, hHeap⟩ := heap_of_run hc run
  rw [← hHeap.permutation] at hPlain ⊢
  exact removeTops_spec hCompare hPlain hHeap.ordered rfl

theorem removeTops_insert_insert :
    ∃ s, system.exec (start (fun _ => 0) 4 false (compareNat 1#32)) [.insert 3, .insert 1] = some s ∧
      (removeTops s.queue.elements s.queue).Pairwise s.queue.Before := by
  have hFirst : system.Run KeepsHeap (start (fun _ => 0) 4 false (compareNat 1#32)) _ :=
    System.Run.snoc Relation.ReflTransGen.refl (.insert 3) trivial rfl
  have hSecond := System.Run.snoc hFirst (.insert 1) trivial rfl
  exact ⟨_, rfl, (removeTops_of_run (fun _ => 0) 4 false _
    (signPreorder_compareNat (by decide) (by decide)) hSecond (.inl rfl)).2⟩

end MySQL.Queues
