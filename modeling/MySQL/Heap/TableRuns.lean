import MySQL.Heap.Calls
import MySQL.Heap.Check
import MySQL.Library.System

/-! Runs of a HEAP table. -/
namespace MySQL.Heap

open List Library LinearHash Option

structure Allocator where
  malloc : Malloc
  ok : MallocOk malloc

/-- One call. A row is deleted or updated at the position it was read from. -/
inductive Call where
  | write (memory : Allocator) (record : Record)
  | delete (pos : Nat)
  | update (memory : Allocator) (pos : Nat) (new : Record)

def call (address : Addresses) (share : Share) : Call → Option (Answer × Share)
  | .write memory record => heapWrite address memory.malloc share record
  | .delete pos => if pos ∈ share.liveRows then heapDelete address share pos else none
  | .update memory pos new =>
    if pos ∈ share.liveRows then heapUpdate address memory.malloc share pos new else none

def system (address : Addresses) : System Share Call where
  step share c := (call address share c).map Prod.snd

/-- The calls that keep the indexes right: `hp_rec_key_cmp` takes no record for equal to
the new one that has another hash number or another place in an rb-tree, and an update
that leaves a key alone makes no duplicate. -/
def KeepsKeys (share : Share) : Call → Prop
  | .write _ record => share.Agrees record share.liveRows
  | .delete pos => pos ∈ share.liveRows
  | .update _ pos new => pos ∈ share.liveRows ∧ share.Agrees new share.liveRows ∧
      share.KeepsApart pos new share.liveRows

/-- A hash index that passes `check_one_key`: the chain of slot `i` starts there and has
the entries whose home is `i`, and there is one entry for each live row. -/
structure HashChecked (share : Share) (segs : List KeySeg) (block : Nat → Slot Nat)
    (hashBuckets : Nat) : Prop where
  passes : checkOneKey (homeOf (share.hashnr segs) share.records share.blength) block hashBuckets
    share.records = some false
  chained : ∃ chains, Chained (homeOf (share.hashnr segs) share.records share.blength)
      (Finset.range share.records) block chains ∧
    hashBuckets = ((Finset.range share.records).filter fun i => chains i ≠ []).card
  contents_eq : contents (Finset.range share.records) block = share.liveRows.val

structure Checked (share : Share) : Prop where
  sized : Sized share.records share.blength
  indexes : ∀ key ∈ share.keydef, ∀ block hashBuckets, key.index = .hash block hashBuckets →
    HashChecked share key.segs block hashBuckets
  records : share.liveRows.card = share.records
  deleted : ∃ free, Seg share.links share.delLink free none ∧ free.length = share.deleted ∧
    ∀ pos, pos ∈ free ↔ pos < share.records + share.deleted ∧ (share.rows pos).live = false

section
variable {address : Addresses} {share : Share} {live : Finset Nat}

theorem After.liveRows {share' : Share} {view : Nat → Record}
    (h : After address share share' view live) : Consistent address share' share'.liveRows := by
  have hLive := h.consistent.liveRows_eq
  exact hLive.symm ▸ h.consistent

theorem consistent_create (address : Addresses) (keydef : List KeyDef) (rows : Nat → Row)
    (hSorted : ∀ key ∈ keydef, key.Sorted) :
    Consistent address (heapCreate keydef rows) (heapCreate keydef rows).liveRows := by
  have hRows := RowsOk.create keydef rows
  rw [hRows.liveRows_eq]
  refine ⟨.zero, ⟨[], hRows⟩, ?_, ?_⟩
  all_goals
    intro key hKey
    obtain ⟨key, hMem, rfl⟩ := mem_map.mp hKey
  · cases hIndex : key.index with
    | hash block hashBuckets =>
      refine ⟨⟨fun _ => [], Valid.empty _ _⟩, rfl, rfl⟩
    | rbTree tree =>
      refine ⟨[], ⟨⟨.nil, ⟨rfl, trivial, nodup_nil, not_mem_nil, ?_⟩, rfl, ⟨0, .nil⟩, rfl⟩, rfl⟩,
        Pairwise.nil, rfl, by simp⟩
      simp [Trees.initTree, RedBlack.Links.colour]
  · refine ⟨fun hRb => hSorted key hMem ?_, by simp [KeyDef.Unique]⟩
    cases hIndex : key.index with
    | hash block hashBuckets => simp [KeyDef.isHash, hIndex, Index.create] at hRb
    | rbTree tree => simp [KeyDef.isHash, hIndex]

/-- A call that keeps the keys returns, and the table is consistent then. -/
theorem call_consistent (h : Consistent address share share.liveRows) {c : Call}
    (hKeeps : KeepsKeys share c) :
    ∃ answer share', call address share c = some (answer, share') ∧
      Consistent address share' share'.liveRows := by
  cases c with
  | write memory record =>
    rcases heapWrite_spec h memory.ok hKeeps with
      ⟨-, pos, share', -, hCall, hAfter⟩ | ⟨-, share', hCall, hAfter, -⟩
    · exact ⟨_, share', hCall, hAfter.liveRows⟩
    · exact ⟨_, share', hCall, hAfter.liveRows⟩
  | delete pos =>
    obtain ⟨share', hCall, hAfter⟩ := heapDelete_spec h hKeeps
    exact ⟨_, share', (if_pos hKeeps).trans hCall, hAfter.liveRows⟩
  | update memory pos new =>
    obtain ⟨hPos, hAgrees, hApart⟩ := hKeeps
    rcases heapUpdate_spec h memory.ok hPos hAgrees hApart with
      ⟨-, share', hCall, hAfter⟩ | ⟨-, share', hCall, hAfter, -⟩
    · exact ⟨_, share', (if_pos hPos).trans hCall, hAfter.liveRows⟩
    · exact ⟨_, share', (if_pos hPos).trans hCall, hAfter.liveRows⟩

theorem consistent_of_run_keeps {keydef : List KeyDef} {rows : Nat → Row}
    (hSorted : ∀ key ∈ keydef, key.Sorted)
    (run : (system address).Run KeepsKeys (heapCreate keydef rows) share) :
    Consistent address share share.liveRows := by
  refine run.invariant (fun share => Consistent address share share.liveRows)
    (consistent_create address keydef rows hSorted) ?_
  intro a c b ha hKeeps hStep
  obtain ⟨answer, share', hCall, hNext⟩ := call_consistent ha hKeeps
  simp only [system, hCall, map_some, some.injEq] at hStep
  exact hStep ▸ hNext

theorem Consistent.checked (h : Consistent address share share.liveRows) : Checked share := by
  obtain ⟨free, hRows⟩ := h.rows
  refine ⟨h.sized, fun key hKey block hashBuckets hIndex => ?_, hRows.card, free, hRows.linked,
    hRows.length, fun pos => ?_⟩
  · have hOk := h.keys key hKey
    rw [KeyOk, hIndex] at hOk
    obtain ⟨⟨chains, hValid⟩, hContents, hBuckets⟩ := hOk
    have hChained : Chained (homeOf (share.hashnr key.segs) share.records share.blength)
      (Finset.range share.records) block chains := hValid.chained
    refine ⟨hBuckets ▸ checkOneKey_spec hChained, ⟨chains, hChained, ?_⟩, hContents⟩
    rw [hBuckets]
    refine hChained.buckets_eq_card fun i => ?_
    rw [Finset.mem_filter]
    exact ⟨And.right, fun hSome => ⟨(hChained.head hSome).1, hSome⟩⟩
  · have hCover := hRows.cover pos
    simp only [isSome_none, Bool.toNat_false, add_zero, reduceCtorEq, or_false] at hCover
    rw [hCover]
    constructor
    · exact fun hFree => ⟨.inr hFree, hRows.free_rows pos hFree⟩
    · rintro ⟨hLive | hFree, hMarked⟩
      · rw [hRows.live_rows pos hLive] at hMarked
        exact absurd hMarked (by simp)
      · exact hFree

/-- In every run of calls that keep the keys, the hash indexes and the record area are what
`heap_check_heap` tests; and each such call returns. -/
theorem checked_of_run {keydef : List KeyDef} {rows : Nat → Row}
    (hSorted : ∀ key ∈ keydef, key.Sorted)
    (run : (system address).Run KeepsKeys (heapCreate keydef rows) share) :
    Checked share ∧ ∀ c, KeepsKeys share c → ((system address).step share c).isSome := by
  have hConsistent := consistent_of_run_keeps hSorted run
  refine ⟨hConsistent.checked, fun c hKeeps => ?_⟩
  obtain ⟨answer, share', hCall, -⟩ := call_consistent hConsistent hKeeps
  simp [system, hCall]

end

instance (key : KeyDef) (record other : Record) : Decidable (key.SameKey record other) :=
  inferInstanceAs (Decidable (if key.isHash then hpRecHashnr key.segs record = hpRecHashnr key.segs other
    else keyEqual key.segs record other = true))

instance (key : KeyDef) (record other : Record) : Decidable (key.Agrees record other) :=
  inferInstanceAs (Decidable (_ → _))

instance (share : Share) (record : Record) (live : Finset Nat) : Decidable (share.Agrees record live) :=
  inferInstanceAs (Decidable (∀ key ∈ _, ∀ pos ∈ _, KeyDef.Agrees _ _ _))

instance (share : Share) (pos : Nat) (new : Record) (live : Finset Nat) :
    Decidable (share.KeepsApart pos new live) :=
  inferInstanceAs (Decidable (∀ key ∈ _, _ = _ → ∀ p ∈ _, _ = _ → _ = _))

instance (share : Share) (c : Call) : Decidable (KeepsKeys share c) := by
  cases c <;> dsimp only [KeepsKeys] <;> infer_instance

def ascending : Addresses where
  compare := compareLinear
  order := signPreorder_compareLinear
  eq_of_zero := eq_of_compareLinear

def maxAddress (m : RedBlack.Links (Trees.Element RbKey)) : (fuel element : Nat) → Nat
  | 0, _ => 0
  | fuel + 1, element =>
    if element = 0 then 0
    else max element (max (maxAddress m fuel (m.cells element).left)
      (maxAddress m fuel (m.cells element).right))

open RedBlack in
theorem le_maxAddress {m : Links (Trees.Element RbKey)} {t : RedBlack.Tree (Nat × Trees.Element RbKey)}
    (hStored : Stored m.cells t) (hPos : 0 ∉ t.addrs) {fuel : Nat} (hFuel : t.entries.length ≤ fuel) :
    ∀ e ∈ t.entries, e.1 ≤ maxAddress m fuel t.addr := by
  induction t generalizing fuel with
  | nil => simp [RedBlack.Tree.entries]
  | node c x l r ihl ihr =>
    obtain ⟨hCell, hLeft, hRight⟩ := hStored
    simp only [Tree.addrs, RedBlack.Tree.entries, map_append, map_cons, mem_append,
      mem_cons, not_or] at hPos
    obtain ⟨hPosLeft, hPosSelf, hPosRight⟩ := hPos
    simp only [RedBlack.Tree.entries, length_append, length_cons] at hFuel
    obtain ⟨fuel, rfl⟩ := Nat.exists_eq_succ_of_ne_zero (show fuel ≠ 0 by omega)
    have hMax : maxAddress m (fuel + 1) x.1 =
        max x.1 (max (maxAddress m fuel l.addr) (maxAddress m fuel r.addr)) := by
      rw [maxAddress, if_neg (Ne.symm hPosSelf), hCell]
    intro e he
    simp only [RedBlack.Tree.entries, mem_append, mem_cons] at he
    rw [RedBlack.Tree.addr, hMax]
    rcases he with hl | rfl | hr
    · exact (ihl hLeft hPosLeft (by omega) e hl).trans (le_max_of_le_right (le_max_left ..))
    · exact le_max_left ..
    · exact (ihr hRight hPosRight (by omega) e hr).trans (le_max_of_le_right (le_max_right ..))

def firstFree : Allocator where
  malloc tree := maxAddress tree.links tree.elementsInTree tree.links.root + 1
  ok tree entries h := by
    obtain ⟨t, hLinked, rfl, -⟩ := h.holds
    refine ⟨Nat.succ_ne_zero _, fun hMem => ?_⟩
    obtain ⟨e, he, hEq⟩ := List.mem_map.mp hMem
    have hLe := le_maxAddress hLinked.stored hLinked.pos h.size.ge e he
    rw [← hLinked.root] at hLe
    exact Nat.not_succ_le_self _ (hEq ▸ hLe)

def ukrainianSeg (start : Nat) : KeySeg :=
  ⟨.text, simpleCharset fun byte => Ctype.cp1251UkrainianCi.getD byte.toNat 0, start, 1, 0, 0, 0, false⟩

def ukrainianKey : KeyDef :=
  ⟨[ukrainianSeg 0, ukrainianSeg 1], false, false, .hash (fun _ => ⟨none, 0⟩) 0⟩

def charRecord (bytes : List UInt8) : Record := fun i => bytes.getD i 0x20

def emptyRows : Nat → Row := fun _ => ⟨fun _ => 0, none, false⟩

def checkKeys (share : Share) : List (Option Bool) :=
  share.keydef.map fun key =>
    match key.index with
    | .hash block hashBuckets => checkOneKey (homeOf (share.hashnr key.segs) share.records share.blength)
        block hashBuckets share.records
    | .rbTree _ => none

theorem Checked.checkKeys {share : Share} (h : Checked share) : some true ∉ checkKeys share := by
  intro hMem
  obtain ⟨key, hKey, hEq⟩ := mem_map.mp hMem
  cases hIndex : key.index with
  | hash block hashBuckets =>
    have hPasses := (h.indexes key hKey block hashBuckets hIndex).passes
    simp [hIndex, hPasses] at hEq
  | rbTree tree => simp [hIndex] at hEq

theorem checked_write_write_update :
    ∃ share, ((system ascending).checked KeepsKeys).exec (heapCreate [ukrainianKey] emptyRows)
        [.write firstFree (charRecord [0x20, 0x41]), .write firstFree (charRecord [0x20, 0x42]),
          .update firstFree 0 (charRecord [0x43, 0x41])] = some share ∧ Checked share := by
  apply System.exists_exec (by decide +kernel)
  intro share hExec
  refine (checked_of_run ?_ (System.run_of_exec_checked hExec)).1
  simp [KeyDef.Sorted, KeyDef.isHash, ukrainianKey]

/-- Two rows, and then the space in one is changed to a grave accent, which sorts as a
space: the update leaves the index alone, but the hash number is another one. -/
theorem not_checked_of_reachable :
    ¬ ∀ share, (system ascending).Reachable (heapCreate [ukrainianKey] emptyRows) share →
      Checked share := by
  intro h
  have hRun : ((system ascending).exec (heapCreate [ukrainianKey] emptyRows)
      [.write firstFree (charRecord [0x20, 0x41]), .write firstFree (charRecord [0x20, 0x41]),
        .update firstFree 0 (charRecord [0x60, 0x41])]).map checkKeys = some [some true] := by
    decide +kernel
  obtain ⟨share, hExec, hCheck⟩ := map_eq_some_iff.mp hRun
  refine (h share (System.reachable_of_exec hExec)).checkKeys ?_
  rw [hCheck]
  exact mem_cons_self

end MySQL.Heap
