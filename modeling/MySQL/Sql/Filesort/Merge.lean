import MySQL.Library.Bytes
import MySQL.Mysys.Queues

/-! Merging of sorted runs, from `sql/filesort.cc`. Pointers into the sort buffer and
positions in a file are counted in records, so that `sort_buffer` is a memory with one
record in a cell. The reads of a merge and the areas of its buffers are noted as events. -/
namespace MySQL.Filesort

open Library Queues

/-- The bytes of a record; the first `sort_length` of them are its sort key. -/
abbrev Record := List UInt8

def mergebuff : Nat := 7

def mergebuff2 : Nat := 15

/-- The comparison that `get_ptr_compare` chooses, on the bytes from `pos` on. -/
def ptrCompare (first last : Record) : (length pos : Nat) → BitVec 32
  | 0, _ => 0
  | length + 1, pos =>
    if first.getD pos 0 ≠ last.getD pos 0 then
      BitVec.ofInt 32 ((first.getD pos 0).toNat - (last.getD pos 0).toNat)
    else ptrCompare first last length (pos + 1)

/-- The part of `SORTPARAM` that a merge reads. `uniqueBuff` is the cell that
`unique_buff` points to. -/
structure SortParam where
  recLength : Nat
  sortLength : Nat
  resLength : Nat
  keys : Nat
  maxRows : Nat
  uniqueBuff : Option Nat

/-- `BUFFPEK`: what of a run is in the file, and where its records in memory are. -/
structure Buffpek where
  filePos : Nat
  base : Nat
  key : Nat
  count : Nat
  memCount : Nat
  maxKeys : Nat
deriving DecidableEq, Repr

/-- A part of the sort buffer. -/
structure Area where
  base : Nat
  maxKeys : Nat
deriving DecidableEq, Repr

def Buffpek.area (bp : Buffpek) : Area := ⟨bp.base, bp.maxKeys⟩

/-- What a merge does: a call of `merge_buffers` with its `maxcount`, a read of `count`
records to `base`, and the areas of the buffers in the queue at a turn of its loop. -/
inductive Event where
  | call (maxcount : Nat)
  | read (base count : Nat)
  | live (areas : List Area)
deriving DecidableEq, Repr

/-- The state that the functions of a merge work on: the two files, the sort buffer, the
array of `BUFFPEK`s, the queue of pointers into it and the local `max_rows`. -/
structure Merge where
  fromFile : List Record
  toFile : List Record
  cells : Nat → Record
  buffpek : Nat → Buffpek
  queue : Queue Nat
  maxRows : Nat
  events : List Event

/-- The counts are unsigned. -/
def decrement (n : Nat) : Nat := if n = 0 then 2 ^ 64 - 1 else n - 1

namespace Merge
variable (p : SortParam) (m : Merge)

def set (i : Nat) (bp : Buffpek) : Merge := { m with buffpek := Function.update m.buffpek i bp }

def note (e : Event) : Merge := { m with events := m.events ++ [e] }

/-- Runs are compared by the records that they stand at. -/
def compare (i j : Nat) : BitVec 32 :=
  ptrCompare (m.cells (m.buffpek i).key) (m.cells (m.buffpek j).key) p.sortLength 0

/-- The queue compares through the buffers as they are now. -/
def onQueue (f : Queue Nat → Queue Nat) : Merge :=
  { m with queue := f { m.queue with compare := m.compare p } }

def queued : List Nat := (List.range m.queue.elements).map fun i => m.queue.root (i + 1)

def areas : List Area := m.queued.map fun i => (m.buffpek i).area

end Merge

variable (p : SortParam)

/-- `my_pread` with the flags of a sort: a short read is an error. -/
def pread (file : List Record) (pos count : Nat) : Option (List Record) :=
  let data := (file.drop pos).take count
  if data.length = count then some data else none

/-- `read_to_buffer` reads as many records of a run as its part of the buffer can have. -/
def readToBuffer (m : Merge) (i : Nat) : Option (Merge × Nat) :=
  let bp := m.buffpek i
  let count := min bp.maxKeys bp.count
  if count = 0 then some (m, 0)
  else
    (pread m.fromFile bp.filePos count).map fun data =>
      let m := { m with cells := store m.cells bp.base data }
      let m := m.set i { bp with
        key := bp.base
        filePos := bp.filePos + count
        count := bp.count - count
        memCount := count }
      (m.note (.read bp.base count), count)

/-- The loop of `reuse_freed_buff` over the queue; the assertion behind it is not compiled
into a server. -/
def reuseLoop (reuse : Buffpek) : List Nat → Merge → Merge
  | [], m => m
  | i :: rest, m =>
    let bp := m.buffpek i
    if bp.base + bp.maxKeys = reuse.base then m.set i { bp with maxKeys := bp.maxKeys + reuse.maxKeys }
    else if bp.base = reuse.base + reuse.maxKeys then
      m.set i { bp with base := reuse.base, maxKeys := bp.maxKeys + reuse.maxKeys }
    else reuseLoop reuse rest m

/-- `reuse_freed_buff`: the part of an empty run goes to a run whose part is next to it. -/
def reuseFreedBuff (m : Merge) (reuse : Nat) : Merge := reuseLoop (m.buffpek reuse) m.queued m

/-- `merge_index` writes the results only, the other merges whole records. -/
def written (flag : Bool) (r : Record) : Record :=
  if flag then (r.drop (p.recLength - p.resLength)).take p.resLength else r

/-- Every run gets a part of the buffer and a place in the queue. -/
def fillLoop (maxcount : Nat) : List Nat → (strpos : Nat) → Merge → Option Merge
  | [], _, m => some m
  | i :: rest, strpos, m =>
    let m := m.set i { m.buffpek i with base := strpos, maxKeys := maxcount }
    match readToBuffer m i with
    | none => none
    | some (m, count) =>
      let m := m.set i { m.buffpek i with maxKeys := (m.buffpek i).memCount }
      let m := m.onQueue p (queueInsert · i)
      fillLoop maxcount rest (strpos + count) m

/-- The first key goes to `unique_buff` and to the file. The answer says whether that was
the last row. -/
def firstKey (m : Merge) (unique : Nat) : Merge × Bool :=
  let i := queueTop m.queue
  let bp := m.buffpek i
  let m := { m with
    cells := Function.update m.cells unique (m.cells bp.key)
    toFile := m.toFile ++ [m.cells bp.key]
    maxRows := decrement m.maxRows }
  let m := m.set i { bp with key := bp.key + 1, memCount := decrement bp.memCount }
  if m.maxRows = 0 then (m, true) else (m.onQueue p queueReplaced, false)

def isDuplicate (m : Merge) (key : Nat) : Bool :=
  match p.uniqueBuff with
  | none => false
  | some unique => ptrCompare (m.cells unique) (m.cells key) p.sortLength 0 = 0

/-- A record is written and counted. -/
def writeKey (flag : Bool) (m : Merge) (key : Nat) : Merge :=
  { m with
    cells := match p.uniqueBuff with
      | none => m.cells
      | some unique => Function.update m.cells unique (m.cells key)
    toFile := m.toFile ++ [written p flag (m.cells key)]
    maxRows := decrement m.maxRows }

/-- The code behind the label `skip_duplicate`. -/
def nextKey (m : Merge) (i : Nat) : Option Merge :=
  let bp := m.buffpek i
  let m := m.set i { bp with key := bp.key + 1, memCount := decrement bp.memCount }
  if (m.buffpek i).memCount = 0 then
    match readToBuffer m i with
    | none => none
    | some (m, 0) => some (reuseFreedBuff (m.onQueue p fun q => (queueRemove q 0).1) i)
    | some (m, _ + 1) => some (m.onQueue p queueReplaced)
  else some (m.onQueue p queueReplaced)

/-- One turn of the main loop: the least record is written, and its run moves on or ends. -/
def turn (flag : Bool) (m : Merge) : Option (Merge × Bool) :=
  let m := m.note (.live m.areas)
  let i := queueTop m.queue
  let key := (m.buffpek i).key
  if isDuplicate p m key then (nextKey p m i).map fun m => (m, false)
  else
    let m := writeKey p flag m key
    if m.maxRows = 0 then some (m, true) else (nextKey p m i).map fun m => (m, false)

/-- The two loops over the queue: the inner one is left when a buffer was removed, which
is when the test of the outer one can change. -/
def mergeLoop (flag : Bool) : (fuel : Nat) → Merge → Option (Merge × Bool)
  | 0, _ => none
  | fuel + 1, m =>
    if 1 < m.queue.elements then
      match turn p flag m with
      | none => none
      | some (m, true) => some (m, true)
      | some (m, false) => mergeLoop flag fuel m
    else some (m, false)

/-- The run that is left has the whole buffer. -/
def startLast (m : Merge) (i : Nat) : Merge :=
  let m := m.set i { m.buffpek i with base := 0, maxKeys := p.keys }
  let bp := m.buffpek i
  if isDuplicate p m bp.key then
    m.set i { bp with key := bp.key + 1, memCount := decrement bp.memCount }
  else m

/-- The run that is left is copied block by block. -/
def lastLoop (flag : Bool) (i : Nat) : (fuel : Nat) → Merge → Option Merge
  | 0, _ => none
  | fuel + 1, m =>
    let m := m.note (.live [(m.buffpek i).area])
    let bp := m.buffpek i
    let bp := if m.maxRows < bp.memCount then { bp with memCount := m.maxRows, count := 0 } else bp
    let m := { m with maxRows := m.maxRows - bp.memCount }
    let m := m.set i bp
    let m := { m with toFile := m.toFile ++ (load m.cells bp.key bp.memCount).map (written p flag) }
    match readToBuffer m i with
    | none => none
    | some (m, 0) => some m
    | some (m, _ + 1) => lastLoop flag i fuel m

/-- The code from the first loop to the label `end`. -/
def mergeQueue (fuel : Nat) (flag : Bool) (m : Merge) : Option Merge :=
  match mergeLoop p flag fuel m with
  | none => none
  | some (m, true) => some m
  | some (m, false) => lastLoop p flag (queueTop m.queue) fuel (startLast p m (queueTop m.queue))

/-- `merge_buffers` on the buffers from `fb` to `tb`; `fuel` bounds the turns of its loops. -/
def mergeBuffers (fuel : Nat) (flag : Bool) (m : Merge) (lastbuff fb tb : Nat) : Option Merge :=
  let maxcount := p.keys / (tb - fb + 1)
  let start := m.toFile.length
  let m := (m.note (.call maxcount))
  let m := { m with
    maxRows := p.maxRows
    queue := initQueue (fun _ => fb) (tb - fb + 1) false fun _ _ => 0 }
  let merged := do
    let m ← fillLoop p maxcount (List.range' fb (tb - fb + 1)) 0 m
    match p.uniqueBuff with
    | none => mergeQueue p fuel flag m
    | some unique =>
      match firstKey p m unique with
      | (m, true) => some m
      | (m, false) => mergeQueue p fuel flag m
  merged.map fun m => m.set lastbuff { m.buffpek lastbuff with
    count := min (p.maxRows - m.maxRows) p.maxRows
    filePos := start }

/-- One pass of `merge_many_buff` over groups of `MERGEBUFF` runs. -/
def groupLoop (fuel maxbuffer : Nat) : (turns : Nat) → Merge → (i lastbuff : Nat) →
    Option (Merge × Nat × Nat)
  | 0, _, _, _ => none
  | turns + 1, m, i, lastbuff =>
    if i + mergebuff * 3 / 2 ≤ maxbuffer then
      match mergeBuffers p fuel false m lastbuff i (i + mergebuff - 1) with
      | none => none
      | some m => groupLoop fuel maxbuffer turns m (i + mergebuff) (lastbuff + 1)
    else some (m, i, lastbuff)

/-- One pass over the runs; the answer has the new `maxbuffer`. The files change places. -/
def mergePass (fuel : Nat) (m : Merge) (maxbuffer : Nat) : Option (Merge × Nat) := do
  let (m, i, lastbuff) ← groupLoop p fuel maxbuffer (maxbuffer + 1) { m with toFile := [] } 0 0
  let m ← mergeBuffers p fuel false m lastbuff i maxbuffer
  some ({ m with fromFile := m.toFile, toFile := m.fromFile }, lastbuff)

/-- Passes until a single merge can take all runs. -/
def manyLoop (fuel : Nat) : (passes : Nat) → Merge → (maxbuffer : Nat) → Option (Merge × Nat)
  | 0, _, _ => none
  | passes + 1, m, maxbuffer =>
    if mergebuff2 ≤ maxbuffer then
      match mergePass p fuel m maxbuffer with
      | none => none
      | some (m, maxbuffer) => manyLoop fuel passes m maxbuffer
    else some (m, maxbuffer)

/-- `merge_many_buff`. -/
def mergeManyBuff (fuel : Nat) (m : Merge) (maxbuffer : Nat) : Option (Merge × Nat) :=
  manyLoop p fuel (maxbuffer + 1) m maxbuffer

/-- `merge_index` writes the results to an empty `outfile`. -/
def mergeIndex (fuel : Nat) (m : Merge) (maxbuffer : Nat) : Option Merge :=
  mergeBuffers p fuel true { m with toFile := [] } 0 0 maxbuffer

/-! The order of the sort keys. -/

/-- The difference of two bytes as a machine integer. -/
theorem toInt_sub_bytes (a b : UInt8) :
    (BitVec.ofInt 32 ((a.toNat : Int) - b.toNat)).toInt = (a.toNat : Int) - b.toNat := by
  have hFirst := a.toNat_lt
  have hSecond := b.toNat_lt
  rw [BitVec.toInt_ofInt]
  exact Int.bmod_eq_of_le (by omega) (by omega)

theorem signPreorder_byte (pos : Nat) : SignPreorder fun first last : Record =>
    BitVec.ofInt 32 (((first.getD pos 0).toNat : Int) - (last.getD pos 0).toNat) := by
  constructor
  · intro x y
    rw [toInt_sub_bytes, toInt_sub_bytes, ← Int.sign_neg, neg_sub]
  · intro x y z hFirst hSecond
    rw [toInt_sub_bytes] at *
    omega

theorem signPreorder_ptrCompare (length pos : Nat) :
    SignPreorder fun first last => ptrCompare first last length pos := by
  induction length generalizing pos with
  | zero => exact signPreorder_zero
  | succ length ih =>
    have hSame : (fun first last => ptrCompare first last (length + 1) pos) = fun first last =>
        let byte := BitVec.ofInt 32 (((first.getD pos 0).toNat) - (last.getD pos 0).toNat)
        if byte.toInt ≠ 0 then byte else ptrCompare first last length (pos + 1) := by
      funext first last
      have hZero : (first.getD pos 0 ≠ last.getD pos 0) ↔
          ((first.getD pos 0).toNat : Int) - (last.getD pos 0).toNat ≠ 0 := by
        rw [ne_eq, ← UInt8.toNat_inj]
        omega
      simp only [ptrCompare, hZero, toInt_sub_bytes]
    rw [hSame]
    exact (signPreorder_byte pos).lex (ih (pos + 1))

theorem take_succ_drop (r : Record) (length pos : Nat) (h : pos < r.length) :
    (r.drop pos).take (length + 1) = r.getD pos 0 :: (r.drop (pos + 1)).take length := by
  rw [List.drop_eq_getElem_cons h, List.take_succ_cons, List.getD_eq_getElem _ _ h]

section
variable (first last : Record) (length pos : Nat) (hFirst : pos + length ≤ first.length)
  (hLast : pos + length ≤ last.length)
include first last length pos hFirst hLast

/-- The comparison finds the first difference among the next bytes. -/
theorem ptrCompare_neg_iff : (ptrCompare first last length pos).toInt < 0 ↔
      (first.drop pos).take length < (last.drop pos).take length := by
  induction length generalizing pos with
  | zero => simp [ptrCompare]
  | succ length ih =>
    rw [take_succ_drop first length pos (by omega), take_succ_drop last length pos (by omega),
      List.cons_lt_cons_iff, ptrCompare]
    by_cases hByte : first.getD pos 0 = last.getD pos 0
    · rw [if_neg (not_not.mpr hByte), ih (pos + 1) (by omega) (by omega), hByte]
      simp [UInt8.lt_irrefl]
    · rw [if_pos hByte, toInt_sub_bytes, UInt8.lt_iff_toNat_lt]
      simp only [hByte, false_and, or_false]
      omega

end

/-- The order of the queue. -/
def keyLe (p : SortParam) (x y : Record) : Prop := (ptrCompare x y p.sortLength 0).toInt ≤ 0

variable {p : SortParam}

/-- On whole records the order is the one of the first `sort_length` bytes. -/
theorem keyLe_iff {x y : Record} (hx : p.sortLength ≤ x.length) (hy : p.sortLength ≤ y.length) :
    keyLe p x y ↔ x.take p.sortLength ≤ y.take p.sortLength := by
  have hOrder := signPreorder_ptrCompare p.sortLength 0
  have hLess := ptrCompare_neg_iff y x p.sortLength 0 (by omega) (by omega)
  rw [List.drop_zero, List.drop_zero] at hLess
  rw [keyLe, hOrder.nonpos_iff, ← not_lt, hLess]
  rfl

theorem keyLe_trans (x y z : Record) : keyLe p x y → keyLe p y z → keyLe p x z :=
  (signPreorder_ptrCompare p.sortLength 0).trans x y z

theorem keyLe_total (x y : Record) : keyLe p x y ∨ keyLe p y x := by
  have hSwap := (signPreorder_ptrCompare p.sortLength 0).nonpos_iff x y
  unfold keyLe
  omega

theorem keyLe_refl (x : Record) : keyLe p x x :=
  ((signPreorder_ptrCompare p.sortLength 0).self x).le

end MySQL.Filesort
