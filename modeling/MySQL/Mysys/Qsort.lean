import MySQL.Library.Cells
import MySQL.Library.Compare

/-! `qsort2` of `mysys/mf_qsort.c` on an array of pointers. A `char *` into the
array is the index of its cell, and the cell below the array exists, so that
`high_ptr` may step there. The range stack holds the ranges pushed so far;
popping the entry below them ends the loop. -/
namespace MySQL.Qsort

open Library

variable {α : Type} (cmp : α → α → BitVec 32)

def swapCells (a : Nat → α) (i j : Nat) : Nat → α :=
  Function.update (Function.update a i (a j)) j (a i)

def orderEnds (a : Nat → α) (low high : Nat) : Nat → α :=
  if (cmp (a high) (a low)).toInt < 0 then swapCells a high low else a

/-- The median of three goes to the middle. -/
def orderMiddle (a : Nat → α) (low mid high : Nat) : Nat → α :=
  if (cmp (a mid) (a low)).toInt < 0 then swapCells a mid low
  else if (cmp (a high) (a mid)).toInt < 0 then swapCells a mid high
  else a

/-- `MEDIAN`: put the median in the middle argument. -/
def median (a : Nat → α) (low mid high : Nat) : Nat → α :=
  orderMiddle cmp (orderEnds cmp a low high) low mid high

/-- The inner loop of the insertion sort. -/
def sink (low : Nat) : (Nat → α) → Nat → (Nat → α)
  | a, 0 => a
  | a, ptr + 1 =>
    if low < ptr + 1 ∧ 0 < (cmp (a ptr) (a (ptr + 1))).toInt then
      sink low (swapCells a (ptr + 1) ptr) ptr
    else a

/-- Short parts are sorted by insertion. -/
def insertSort (low : Nat) : Nat → (Nat → α) → Nat → (Nat → α)
  | 0, a, _ => a
  | rounds + 1, a, lowPtr => insertSort low rounds (sink cmp low a lowPtr) (lowPtr + 1)

def scanUp (a : Nat → α) (pivot : α) : Nat → Nat → Nat
  | 0, lowPtr => lowPtr
  | fuel + 1, lowPtr =>
    if (cmp (a lowPtr) pivot).toInt < 0 then scanUp a pivot fuel (lowPtr + 1) else lowPtr

def scanDown (a : Nat → α) (pivot : α) : Nat → Nat → Nat
  | 0, highPtr => highPtr
  | fuel + 1, highPtr =>
    if (cmp pivot (a highPtr)).toInt < 0 then scanDown a pivot fuel (highPtr - 1) else highPtr

/-- The partition loop. It answers the array and the final `low_ptr` and `high_ptr`. -/
def partitionLoop (pivot : α) : Nat → (Nat → α) → Nat → Nat → (Nat → α) × Nat × Nat
  | 0, a, lowPtr, highPtr => (a, lowPtr, highPtr)
  | fuel + 1, a, lowPtr, highPtr =>
    let lowPtr := scanUp cmp a pivot (highPtr + 1) lowPtr
    let highPtr := scanDown cmp a pivot (highPtr + 1) highPtr
    if lowPtr < highPtr then
      let a := swapCells a lowPtr highPtr
      let lowPtr := lowPtr + 1
      let highPtr := highPtr - 1
      if lowPtr ≤ highPtr then partitionLoop pivot fuel a lowPtr highPtr
      else (a, lowPtr, highPtr)
    else if lowPtr = highPtr then (a, lowPtr + 1, highPtr - 1)
    else (a, lowPtr, highPtr)

def choosePivot (a : Nat → α) (low high : Nat) : (Nat → α) × Nat × Nat × Nat :=
  let count := high - low + 1
  let mid := low + count / 2
  if 40 < count then
    let step := count / 8
    let a := median cmp a low (low + step) (low + step * 2)
    let a := median cmp a (mid - step) mid (mid + step)
    let a := median cmp a (high - 2 * step) (high - step) high
    let a := median cmp a (low + step) mid (high - step)
    (a, mid, low, high)
  else (median cmp a low mid high, mid, low + 1, high - 1)

/-- The pointers run towards each other and exchange what is on the wrong side. -/
def partition (a : Nat → α) (low high : Nat) : (Nat → α) × Nat × Nat :=
  let (a, mid, lowPtr, highPtr) := choosePivot cmp a low high
  partitionLoop cmp (a mid) (high - low + 1) a lowPtr highPtr

/-- `(int) (p - q)` for pointers into an array of eight byte cells: the byte
distance is cut to 32 bits. -/
def intDistance (p q : Nat) : Int := Int.bmod (8 * ((p : Int) - q)) (2 ^ 32)

/-- One round of the main loop on the range from `low` to `high`. It answers the
ranges left, the next one first: `POP` takes the top of the stack and `PUSH`
puts the larger part of the range below the smaller one. -/
def sortRound (a : Nat → α) (low high : Nat) (stack : List (Nat × Nat)) :
    (Nat → α) × List (Nat × Nat) :=
  if high - low + 1 < 10 then (insertSort cmp low (high - low) a (low + 1), stack)
  else
    let (a, lowPtr, highPtr) := partition cmp a low high
    if intDistance highPtr low ≤ 0 then
      if intDistance high lowPtr ≤ 0 then (a, stack) else (a, (lowPtr, high) :: stack)
    else if intDistance high lowPtr ≤ 0 then (a, (low, highPtr) :: stack)
    else if (highPtr : Int) - low > (high : Int) - lowPtr then
      (a, (lowPtr, high) :: (low, highPtr) :: stack)
    else (a, (low, highPtr) :: (lowPtr, high) :: stack)

/-- The main loop, with the parts that are still to be sorted on a stack. -/
def sortLoop : Nat → (Nat → α) → List (Nat × Nat) → (Nat → α)
  | _, a, [] => a
  | 0, a, _ => a
  | fuel + 1, a, (low, high) :: stack =>
    sortLoop fuel (sortRound cmp a low high stack).1 (sortRound cmp a low high stack).2

/-- The cells from `base` on are sorted. -/
def qsort2 (a : Nat → α) (base count : Nat) : Nat → α :=
  if count ≤ 1 then a else sortLoop cmp (2 * count) a [(base, base + count - 1)]

end MySQL.Qsort
