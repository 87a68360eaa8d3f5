import MySQL.Library.System

/-! Index pages: the heap of records, the record list and the page directory, from
`page/page0page.c`, `page/page0cur.c` and `include/page0page.ic`. A record is given by the
offset of its origin on the page. -/
namespace MySQL.Innobase.Index

open Library Function

def univPageSize : Nat := 16384

/-- `PAGE_DIR`, what stands behind the directory -/
def pageDir : Nat := 8

def pageDirSlotSize : Nat := 2

def pageDirSlotMinNOwned : Nat := 4

def pageDirSlotMaxNOwned : Nat := 8

def infimum (comp : Bool) : Nat := if comp then 99 else 101

def supremum (comp : Bool) : Nat := if comp then 112 else 116

def supremumEnd (comp : Bool) : Nat := if comp then 120 else 125

/-- What `rec_get_offsets` finds out about the content of a record: how many bytes stand
before and behind its origin. -/
structure Format (β : Type) where
  extraSize : β → Nat
  dataSize : β → Nat
  header : ∀ b, 5 ≤ extraSize b

def Format.size {β : Type} (fmt : Format β) (b : β) : Nat := fmt.extraSize b + fmt.dataSize b

/-- The direction of the last inserts, which guides page splits. -/
inductive Direction where
  | left
  | right
  | noDirection
deriving DecidableEq, Repr

/-- The header of a page, its records and its directory; 0 is a null pointer. A record at `r`
has the header fields `next r`, `nOwned r` and `heapNo r` and is `body r` otherwise. -/
structure Page (β : Type) where
  comp : Bool
  nDirSlots : Nat
  heapTop : Nat
  nHeap : Nat
  free : Nat
  garbage : Nat
  lastInsert : Nat
  direction : Direction
  nDirection : Nat
  nRecs : Nat
  next : Nat → Nat
  nOwned : Nat → Nat
  heapNo : Nat → Nat
  body : Nat → β
  slot : Nat → Nat

variable {β : Type}

namespace Page

/-- `page_rec_set_next` -/
def setNext (p : Page β) (r next : Nat) : Page β :=
  { p with next := update p.next r next }

/-- `rec_set_n_owned` -/
def setNOwned (p : Page β) (r n : Nat) : Page β :=
  { p with nOwned := update p.nOwned r n }

/-- `page_dir_slot_set_rec` -/
def setSlot (p : Page β) (i r : Nat) : Page β := { p with slot := update p.slot i r }

/-- `page_dir_slot_get_n_owned` -/
def slotNOwned (p : Page β) (i : Nat) : Nat := p.nOwned (p.slot i)

/-- `page_dir_slot_set_n_owned` -/
def setSlotNOwned (p : Page β) (i n : Nat) : Page β := p.setNOwned (p.slot i) n

end Page

/-- `page_create` on a frame that holds `p`, with the two system records -/
def pageCreate (p : Page β) (comp : Bool) (infimumBody supremumBody : β) : Page β where
  comp := comp
  nDirSlots := 2
  heapTop := supremumEnd comp
  nHeap := 2
  free := 0
  garbage := 0
  lastInsert := 0
  direction := .noDirection
  nDirection := 0
  nRecs := 0
  next := update (update p.next (infimum comp) (supremum comp)) (supremum comp) 0
  nOwned := update (update p.nOwned (infimum comp) 1) (supremum comp) 1
  heapNo := update (update p.heapNo (infimum comp) 0) (supremum comp) 1
  body := update (update p.body (infimum comp) infimumBody) (supremum comp)
    supremumBody
  slot := update (update p.slot 0 (infimum comp)) 1 (supremum comp)

/-- The slots that so many records may need. -/
def pageDirCalcReservedSpace (nRecs : Nat) : Nat :=
  (pageDirSlotSize * nRecs + pageDirSlotMinNOwned - 1) / pageDirSlotMinNOwned

def pageGetFreeSpaceOfEmpty (comp : Bool) : Nat :=
  univPageSize - supremumEnd comp - pageDir - 2 * pageDirSlotSize

/-- The bytes above the heap that are left for so many more records. -/
def pageGetMaxInsertSize (p : Page β) (nRecs : Nat) : Nat :=
  let occupied := p.heapTop - supremumEnd p.comp + pageDirCalcReservedSpace (nRecs + p.nHeap - 2)
  let freeSpace := pageGetFreeSpaceOfEmpty p.comp
  if freeSpace < occupied then 0 else freeSpace - occupied

variable (fmt : Format β)

/-- `page_mem_alloc`; the answer is the start of the buffer, the heap number and the page. -/
def pageMemAlloc (p : Page β) (need : Nat) : Option (Nat × Nat × Page β) :=
  if p.free ≠ 0 ∧ need ≤ fmt.size (p.body p.free) then
    some (p.free - fmt.extraSize (p.body p.free), p.heapNo p.free,
      { p with free := p.next p.free, garbage := p.garbage - need })
  else if need ≤ pageGetMaxInsertSize p 1 then
    some (p.heapTop, p.nHeap, { p with heapTop := p.heapTop + need, nHeap := p.nHeap + 1 })
  else none

/-- A record goes to the front of the free list, and its size to the garbage. -/
def pageMemFree (p : Page β) (r : Nat) : Page β :=
  { p.setNext r p.free with free := r, garbage := p.garbage + fmt.size (p.body r) }

/-- Only the last record of a group has a nonzero `n_owned`. -/
def findOwnerRecLoop (p : Page β) : (fuel r : Nat) → Option Nat
  | 0, _ => none
  | fuel + 1, r => if p.nOwned r = 0 then findOwnerRecLoop p fuel (p.next r) else some r

/-- `page_rec_find_owner_rec`; no list is longer than the page. -/
def pageRecFindOwnerRec (p : Page β) (r : Nat) : Option Nat := findOwnerRecLoop p univPageSize r

/-- The search of `page_dir_find_owner_slot` from slot `i` down; there is no answer where the
source calls `ut_error`. -/
def findSlotLoop (p : Page β) (r : Nat) : (i : Nat) → Option Nat
  | 0 => if p.slot 0 = r then some 0 else none
  | i + 1 => if p.slot (i + 1) = r then some (i + 1) else findSlotLoop p r i

/-- The slot of the group to which a record belongs. -/
def pageDirFindOwnerSlot (p : Page β) (r : Nat) : Option Nat :=
  (pageRecFindOwnerRec p r).bind fun owner => findSlotLoop p owner (p.nDirSlots - 1)

/-- The walk from `r2` to `r`; the answer is the record before `r`. -/
def prevLoop (p : Page β) (r : Nat) : (fuel prev r2 : Nat) → Option Nat
  | 0, _, _ => none
  | fuel + 1, prev, r2 => if r2 = r then some prev else prevLoop p r fuel r2 (p.next r2)

/-- `page_rec_get_prev`; also the loop of `page_cur_delete_rec`. There is no answer where the
source stops at an assertion. -/
def pageRecGetPrev (p : Page β) (r : Nat) : Option Nat :=
  match pageDirFindOwnerSlot p r with
  | none => none
  | some slotNo =>
    if slotNo = 0 then none
    else (prevLoop p r univPageSize 0 (p.slot (slotNo - 1))).filter (· ≠ 0)

/-- The slots above `start` move up to make room. -/
def addSlotsLoop (start : Nat) : (i : Nat) → (Nat → Nat) → Nat → Nat
  | 0, slot => slot
  | i + 1, slot =>
    if start < i + 1 then addSlotsLoop start i (update slot (i + 2) (slot (i + 1))) else slot

/-- `page_dir_add_slots` with one slot -/
def pageDirAddSlots (p : Page β) (start : Nat) : Page β :=
  { p with nDirSlots := p.nDirSlots + 1, slot := addSlotsLoop start (p.nDirSlots - 1) p.slot }

/-- The slots above a deleted one move down. -/
def deleteSlotsLoop : (count i : Nat) → (Nat → Nat) → Nat → Nat
  | 0, _, slot => slot
  | count + 1, i, slot => deleteSlotsLoop count (i + 1) (update slot (i - 1) (slot i))

/-- `page_dir_delete_slots` with one slot -/
def pageDirDeleteSlots (p : Page β) (start : Nat) : Page β :=
  let sumOwned := p.slotNOwned start
  let p := p.setSlotNOwned start 0
  let p := p.setSlotNOwned (start + 1) (sumOwned + p.slotNOwned (start + 1))
  { p with
    slot := deleteSlotsLoop (p.nDirSlots - (start + 1)) (start + 1) p.slot
    nDirSlots := p.nDirSlots - 1 }

def nextTimes (p : Page β) : (n r : Nat) → Nat
  | 0, r => r
  | n + 1, r => nextTimes p n (p.next r)

/-- A group that has become too large is divided into two. -/
def pageDirSplitSlot (p : Page β) (slotNo : Nat) : Page β :=
  let nOwned := p.slotNOwned slotNo
  let r := nextTimes p (nOwned / 2) (p.slot (slotNo - 1))
  let p := (pageDirAddSlots p (slotNo - 1)).setSlot slotNo r
  (p.setSlotNOwned slotNo (nOwned / 2)).setSlotNOwned (slotNo + 1) (nOwned - nOwned / 2)

/-- A group that has become too small takes a record from the next group or is merged with it. -/
def pageDirBalanceSlot (p : Page β) (slotNo : Nat) : Page β :=
  if slotNo = p.nDirSlots - 1 then p
  else
    let nOwned := p.slotNOwned slotNo
    let upNOwned := p.slotNOwned (slotNo + 1)
    if pageDirSlotMinNOwned < upNOwned then
      let oldRec := p.slot slotNo
      let newRec := p.next oldRec
      let p := ((p.setNOwned oldRec 0).setNOwned newRec (nOwned + 1)).setSlot slotNo newRec
      p.setSlotNOwned (slotNo + 1) (upNOwned - 1)
    else pageDirDeleteSlots p slotNo

/-- What step 6 of `page_cur_insert_rec_low` writes to the header -/
def setLastInsert (p : Page β) (cursor r : Nat) : Page β :=
  if p.lastInsert = 0 then
    { p with direction := .noDirection, nDirection := 0, lastInsert := r }
  else if p.lastInsert = cursor ∧ p.direction ≠ .left then
    { p with direction := .right, nDirection := p.nDirection + 1, lastInsert := r }
  else if p.next r = p.lastInsert ∧ p.direction ≠ .right then
    { p with direction := .left, nDirection := p.nDirection + 1, lastInsert := r }
  else { p with direction := .noDirection, nDirection := 0, lastInsert := r }

/-- Steps 3 to 6 of `page_cur_insert_rec_low`: the record is written and linked. -/
def linkRec (p : Page β) (cursor r heapNo : Nat) (body : β) : Page β :=
  let p := { p with body := update p.body r body }
  let p := (p.setNext r (p.next cursor)).setNext cursor r
  let p := { p with nRecs := p.nRecs + 1 }
  let p := { p.setNOwned r 0 with heapNo := update p.heapNo r heapNo }
  setLastInsert p cursor r

/-- Steps 7 and 8: the owner of the record at `r` counts it. -/
def ownRec (p : Page β) (r : Nat) : Option (Page β) :=
  (pageRecFindOwnerRec p r).bind fun ownerRec =>
    let nOwned := p.nOwned ownerRec
    let p := p.setNOwned ownerRec (nOwned + 1)
    if nOwned = pageDirSlotMaxNOwned then
      (pageDirFindOwnerSlot p ownerRec).map (pageDirSplitSlot p)
    else some p

/-- `page_cur_insert_rec_low`; the answer is the inserted record, if there was room, and the
page. There is none where a search of the source runs off the list or the directory. -/
def pageCurInsertRecLow (p : Page β) (cursor : Nat) (body : β) : Option (Option Nat × Page β) :=
  match pageMemAlloc fmt p (fmt.size body) with
  | none => some (none, p)
  | some (insertBuf, heapNo, p) =>
    let insertRec := insertBuf + fmt.extraSize body
    (ownRec (linkRec p cursor insertRec heapNo body) insertRec).map (some insertRec, ·)

/-- The record leaves its list and its group, which is then balanced. -/
def pageCurDeleteRec (p : Page β) (currentRec : Nat) : Option (Page β) :=
  match pageDirFindOwnerSlot p currentRec, pageRecGetPrev p currentRec with
  | some curSlotNo, some prevRec =>
    let curNOwned := p.slotNOwned curSlotNo
    let p := { p with lastInsert := 0 }
    let p := { p.setNext prevRec (p.next currentRec) with nRecs := p.nRecs - 1 }
    let p := if currentRec = p.slot curSlotNo then p.setSlot curSlotNo prevRec else p
    let p := pageMemFree fmt (p.setSlotNOwned curSlotNo (curNOwned - 1)) currentRec
    some (if curNOwned ≤ pageDirSlotMinNOwned then pageDirBalanceSlot p curSlotNo else p)
  | _, _ => none

/-- The first loop of `page_delete_rec_list_end`: how many records there are from `r2` on and
the sum of their sizes -/
def sumSizesLoop (p : Page β) : (fuel r2 nRecs size : Nat) → Option (Nat × Nat)
  | 0, _, _, _ => none
  | fuel + 1, r2, nRecs, size =>
    if r2 = supremum p.comp then some (nRecs, size)
    else sumSizesLoop p fuel (p.next r2) (nRecs + 1) (size + fmt.size (p.body r2))

/-- The caller may know how many records are cut off; otherwise they are counted. -/
def givenOrSummed (p : Page β) (r : Nat) : (nRecs size : Option Nat) → Option (Nat × Nat)
  | some nRecs, some size => some (nRecs, size)
  | _, _ => sumSizesLoop fmt p univPageSize r 0 0

def countToOwnerLoop (p : Page β) : (fuel r2 count : Nat) → Option (Nat × Nat)
  | 0, _, _ => none
  | fuel + 1, r2, count =>
    if p.nOwned r2 = 0 then countToOwnerLoop p fuel (p.next r2) (count + 1) else some (r2, count)

/-- The end of the list is cut off with its slots and goes to the free list as a whole. -/
def cutList (p : Page β) (r prevRec lastRec nRecs size : Nat) : Option (Page β) :=
  (countToOwnerLoop p univPageSize r 0).bind fun (r2, count) =>
    let nOwned := p.nOwned r2 - count
    (pageDirFindOwnerSlot p r2).map fun slotIndex =>
      let p := (p.setSlot slotIndex (supremum p.comp)).setSlotNOwned slotIndex nOwned
      let p := { p with nDirSlots := slotIndex + 1 }
      let p := (p.setNext prevRec (supremum p.comp)).setNext lastRec p.free
      { p with free := r, garbage := size + p.garbage, nRecs := p.nRecs - nRecs }

/-- `page_delete_rec_list_end`; `none` is `ULINT_UNDEFINED`. -/
def pageDeleteRecListEnd (p : Page β) (r : Nat) (nRecs size : Option Nat) : Option (Page β) :=
  let p := { p with lastInsert := 0 }
  let r := if r = infimum p.comp then p.next r else r
  if r = supremum p.comp then some p
  else
    match pageRecGetPrev p r, pageRecGetPrev p (supremum p.comp) with
    | some prevRec, some lastRec =>
      (givenOrSummed fmt p r nRecs size).bind fun (nRecs, size) => cutList p r prevRec lastRec nRecs size
    | _, _ => none

def recsFrom (p : Page β) : (fuel r : Nat) → List Nat
  | 0, _ => []
  | fuel + 1, r => if r = supremum p.comp then [] else r :: recsFrom p fuel (p.next r)

/-- The records between infimum and supremum. -/
def userRecs (p : Page β) : List Nat := recsFrom p univPageSize (p.next (infimum p.comp))

inductive Call (β : Type) where
  | insert (cursor : Nat) (body : β)
  | delete (currentRec : Nat)
  | deleteListEnd (r : Nat) (nRecs size : Option Nat)

/-- What a caller may ask: the cursor of an insert is not on the supremum, only user records
are deleted, and a number of records or a size that is given is the right one. -/
def Call.Allowed (p : Page β) : Call β → Prop
  | .insert cursor _ => cursor ∈ infimum p.comp :: userRecs p
  | .delete currentRec => currentRec ∈ userRecs p
  | .deleteListEnd r nRecs size =>
    r ∈ infimum p.comp :: userRecs p ++ [supremum p.comp] ∧
      let recs := recsFrom p univPageSize (if r = infimum p.comp then p.next r else r)
      (∀ n ∈ nRecs, n = recs.length) ∧ ∀ s ∈ size, s = (recs.map (fmt.size ∘ p.body)).sum

instance (p : Page β) (call : Call β) : Decidable (call.Allowed fmt p) := by
  cases call <;> dsimp only [Call.Allowed] <;> infer_instance

def Call.apply (p : Page β) : Call β → Option (Page β)
  | .insert cursor body => (pageCurInsertRecLow fmt p cursor body).map Prod.snd
  | .delete currentRec => pageCurDeleteRec fmt p currentRec
  | .deleteListEnd r nRecs size => pageDeleteRecListEnd fmt p r nRecs size

def system : System (Page β) (Call β) where
  step p call := if call.Allowed fmt p then call.apply fmt p else none

end MySQL.Innobase.Index
