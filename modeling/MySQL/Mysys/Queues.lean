import MySQL.Mysys.Qsort

/-! Priority queues of `mysys/queues.c`. The comparison stands for the call
`compare(first_cmp_arg, x + offset_to_key, y + offset_to_key)`, and an element
carries its key, so that changing a key is storing another element. -/
namespace MySQL.Queues

open Library Function

variable {α : Type}

/-- `QUEUE`. Cell 0 of `root` is scratch space; the heap starts in cell 1. -/
structure Queue (α : Type) where
  root : Nat → α
  elements : Nat
  maxElements : Nat
  maxAtTop : BitVec 32
  compare : α → α → BitVec 32
  flag : maxAtTop = 0#32 ∨ maxAtTop = -1#32 ^^^ 1#32

/-- `init_queue`; `memory` is what the allocated array happens to hold. -/
def initQueue (memory : Nat → α) (maxElements : Nat) (maxAtTop : Bool)
    (compare : α → α → BitVec 32) : Queue α where
  root := memory
  elements := 0
  maxElements := maxElements
  maxAtTop := if maxAtTop then -1#32 ^^^ 1#32 else 0#32
  compare := compare
  flag := by cases maxAtTop <;> simp

/-- The loop of `queue_insert`: parents move down until one stays above `element`.
It answers the array and the cell left for `element`. -/
def insertLoop (q : Queue α) (element : α) : Nat → (Nat → α) → Nat → (Nat → α) × Nat
  | 0, root, idx => (root, idx)
  | fuel + 1, root, idx =>
    let next := idx >>> 1
    let cmp := q.compare element (root next)
    if cmp ≠ 0#32 ∧ (cmp ^^^ q.maxAtTop).toInt < 0 then
      insertLoop q element fuel (update root idx (root next)) next
    else (root, idx)

def queueInsert (q : Queue α) (element : α) : Queue α :=
  let root := update q.root 0 element
  let idx := q.elements + 1
  let (root, idx) := insertLoop q element (q.elements + 1) root idx
  { q with root := update root idx element, elements := q.elements + 1 }

def nextIndex (q : Queue α) (root : Nat → α) (idx : Nat) : Nat :=
  if idx + idx < q.elements ∧
      0 < (q.compare (root (idx + idx)) (root (idx + idx + 1)) ^^^ q.maxAtTop).toInt then
    idx + idx + 1
  else idx + idx

def downheapLoop (q : Queue α) (element : α) : Nat → (Nat → α) → Nat → (Nat → α) × Nat
  | 0, root, idx => (root, idx)
  | fuel + 1, root, idx =>
    if idx ≤ q.elements >>> 1 then
      let next := nextIndex q root idx
      let cmp := q.compare (root next) element
      if cmp = 0#32 ∨ 0 < (cmp ^^^ q.maxAtTop).toInt then (root, idx)
      else downheapLoop q element fuel (update root idx (root next)) next
    else (root, idx)

def downheap (q : Queue α) (idx : Nat) : Queue α :=
  let element := q.root idx
  let (root, idx) := downheapLoop q element q.elements q.root idx
  { q with root := update root idx element }

def queueRemove (q : Queue α) (idx : Nat) : Queue α × α :=
  let idx := idx + 1
  let element := q.root idx
  (downheap { q with
    root := update q.root idx (q.root q.elements)
    elements := q.elements - 1 } idx, element)

def queueReplaced (q : Queue α) : Queue α := downheap q 1

/-- `queue_fix` sorts with the plain comparison, whatever `max_at_top` says. -/
def queueFix (q : Queue α) : Queue α :=
  { q with root := Qsort.qsort2 q.compare q.root 1 q.elements }

def queueTop (q : Queue α) : α := q.root 1

end MySQL.Queues
