import MySQL.Heap.Rows
import MySQL.Heap.Table

/-! `heap_write`, `heap_delete` and `heap_update` on a consistent table. -/
namespace MySQL.Heap

open Finset Function Library LinearHash

/-- The index has exactly the live rows. -/
structure KeyDef.Holds (address : Addresses) (n b : Nat) (view : Nat → Record) (live : Finset Nat)
    (key key' : KeyDef) : Prop where
  same : key.SameDef key'
  ok : KeyOk address n b view live key'

/-- A live row has the key of the record already. -/
def KeyDef.violated (record : Record) (view : Nat → Record) (live : Finset Nat) (key : KeyDef) : Bool :=
  ∃ pos ∈ live, key.clashes record (view pos) = true

theorem KeyDef.violated_eq_false {record : Record} {view : Nat → Record} {live : Finset Nat}
    {key : KeyDef} : key.violated record view live = false ↔
      ∀ pos ∈ live, key.clashes record (view pos) = false := by
  simp [KeyDef.violated]

/-- The share while a call runs on it, with the place `pos` outside of its rows. -/
structure Ready (share : Share) (view : Nat → Record) (live : Finset Nat) (pos : Nat) : Prop where
  sized : Sized share.records share.blength
  rows : ∀ p ∈ live, (share.rows p).record = view p
  out : pos ∉ live

structure KeyDef.Fit (key : KeyDef) (view : Nat → Record) (live : Finset Nat) : Prop where
  sorted : key.Sorted
  unique : key.Unique view live

section
variable {address : Addresses} {malloc : Malloc} {share : Share} {view : Nat → Record}
  {live : Finset Nat} {pos : Nat} {key key' : KeyDef}

abbrev Without (address : Addresses) (share : Share) (view : Nat → Record) (live : Finset Nat) :
    KeyDef → KeyDef → Prop :=
  KeyDef.Holds address share.records share.blength view live

abbrev With (address : Addresses) (share : Share) (view : Nat → Record) (live : Finset Nat)
    (pos : Nat) (record : Record) : KeyDef → KeyDef → Prop :=
  KeyDef.Holds address (share.records + 1) (grown (share.records + 1) share.blength)
    (Function.update view pos record) (insert pos live)

variable (hReady : Ready share view live pos) (hFit : key.Fit view live) {record : Record}
include hReady hFit

section
variable (hMalloc : MallocOk malloc) (h : Without address share view live key key')
include hMalloc h

theorem Without.write (record : Record) : ∃ duplicate key'',
      writeKey address malloc share key' record pos = some (duplicate, key'') ∧
      WriteOk address share.records share.blength view live record pos key' duplicate key'' :=
  writeKey_spec h.ok (h.same.sorted hFit.sorted) hMalloc hReady.rows hReady.out
    (h.same.unique hFit.unique) record

/-- A record that is no duplicate is added. -/
theorem Without.write_new (hNone : key.violated record view live = false) :
    ∃ key'', writeKey address malloc share key' record pos = some (false, key'') ∧
      With address share view live pos record key key'' := by
  obtain ⟨duplicate, key'', hWrite, hOk⟩ := Without.write hReady hFit hMalloc h record
  have hNot : duplicate = false := by
    rw [Bool.eq_false_iff]
    intro hDuplicate
    obtain ⟨p, hp, hClash⟩ := hOk.clashes hDuplicate
    rw [h.same.clashes, KeyDef.violated_eq_false.mp hNone p hp] at hClash
    exact absurd hClash (by simp)
  subst hNot
  exact ⟨key'', hWrite, h.same.trans hOk.same, hOk.added (.inl rfl)⟩

/-- A duplicate is reported. It is added to a hash index. -/
theorem Without.write_duplicate (hAgrees : ∀ p ∈ live, key.Agrees record (view p))
    (hSome : key.violated record view live = true) :
    ∃ key'', writeKey address malloc share key' record pos = some (true, key'') ∧
      ((key''.isHash = true ∧ With address share view live pos record key key'') ∨
        (key''.isHash = false ∧ Without address share view live key key'')) := by
  obtain ⟨duplicate, key'', hWrite, hOk⟩ := Without.write hReady hFit hMalloc h record
  obtain ⟨p, hp, hClash⟩ := of_decide_eq_true hSome
  have hIs : duplicate = true := by
    refine hOk.found p hp ?_ (by rw [h.same.clashes, hClash])
    simpa [KeyDef.Agrees, KeyDef.SameKey, h.same.segs, h.same.isHash] using hAgrees p hp
  subst hIs
  refine ⟨key'', hWrite, ?_⟩
  rw [hOk.same.isHash]
  cases hHash : key'.isHash with
  | true => exact .inl ⟨rfl, h.same.trans hOk.same, hOk.added (.inr hHash)⟩
  | false => exact .inr ⟨rfl, h.same.trans hOk.same, hOk.refused rfl hHash⟩

end

theorem With.delete (h : With address share view live pos record key key') :
    ∃ key'', deleteKey address share key' record pos = some (false, key'') ∧
      Without address share view live key key'' := by
  have hSorted := h.same.sorted hFit.sorted
  have hOther (p : Nat) (hp : p ∈ live) : update view pos record p = view p :=
    update_of_ne (fun hEq : p = pos => hReady.out (hEq ▸ hp)) ..
  obtain ⟨key'', hDelete, hSame, hOk⟩ := deleteKey_spec h.ok hReady.sized hSorted
    (fun p hp hNe => by
      have hLive := mem_of_mem_insert_of_ne hp hNe
      rw [hOther p hLive, hReady.rows p hLive]) (mem_insert_self ..)
  rw [update_self] at hDelete
  rw [erase_insert hReady.out] at hOk
  refine ⟨key'', hDelete, h.same.trans hSame, hOk.congr (hSame.sorted hSorted) fun p hp => ?_⟩
  rw [hOther p hp]
  exact KeyDef.sameKey_refl (hSame.sorted hSorted) _

/-- What `heap_write` does to one index. -/
theorem writeNew_changes (hMalloc : MallocOk malloc) (h : Without address share view live key key)
    (hAgrees : ∀ p ∈ live, key.Agrees record (view p)) :
    Changes (writeNew address malloc share record pos) (KeyDef.violated record view live)
      (With address share view live pos record) (Without address share view live) key := by
  cases hClash : key.violated record view live with
  | false =>
    obtain ⟨key', hWrite, hWith⟩ := Without.write_new hReady hFit hMalloc h hClash
    exact .inl ⟨hClash, key', by rw [writeNew, hWrite]; rfl, hWith⟩
  | true =>
    obtain ⟨key', hWrite, hCases⟩ :=
      Without.write_duplicate hReady hFit hMalloc h hAgrees hClash
    have hStep : writeNew address malloc share record pos key =
        some (.duplicate key' key'.isHash) := by
      rw [writeNew, hWrite]
      rfl
    rcases hCases with ⟨hHash, hWith⟩ | ⟨hRb, hWithout⟩
    · exact .inr (.inl ⟨hClash, key', by rw [hStep, hHash], hWith⟩)
    · exact .inr (.inr ⟨hClash, key', by rw [hStep, hRb], hWithout⟩)

/-- What `heap_delete` does to one index. -/
theorem deleteOld_changes (h : With address share view live pos record key key) :
    Changes (deleteOld address share record pos) (fun _ => false) (Without address share view live)
      (With address share view live pos record) key := by
  obtain ⟨key', hDelete, hWithout⟩ := With.delete hReady hFit h
  exact .inl ⟨rfl, key', by rw [deleteOld, hDelete]; rfl, hWithout⟩

/-- The entry of a row stands for a record with the same key as well. -/
theorem With.change (h : With address share view live pos record key key') {new : Record}
    (hSame : key.SameKey record new) : With address share view live pos new key key' := by
  have hSorted := h.same.sorted hFit.sorted
  refine ⟨h.same, h.ok.congr hSorted fun p hp => ?_⟩
  rcases mem_insert.mp hp with rfl | hLive
  · rw [update_self]
    simpa [KeyDef.SameKey, h.same.segs, h.same.isHash] using hSame
  · have hNe : p ≠ pos := fun hEq => hReady.out (hEq ▸ hLive)
    rw [update_of_ne hNe, update_of_ne hNe]
    exact KeyDef.sameKey_refl hSorted _

variable {old new : Record} (hOld : key.violated old view live = false)
  (hSelf : key.Agrees new old)
include hOld hSelf

/-- What `heap_update` does to one index. -/
theorem updateKey_changes (hMalloc : MallocOk malloc)
    (hAgrees : ∀ p ∈ live, key.Agrees new (view p))
    (hApart : hpRecKeyCmp key.segs old new false = false → ∀ p ∈ live,
      key.clashes new (view p) = true → key.clashes old (view p) = true)
    (h : With address share view live pos old key key) :
    Changes (updateKey address malloc share old new pos) (KeyDef.violated new view live)
      (With address share view live pos new) (With address share view live pos old) key := by
  cases hDiffers : hpRecKeyCmp key.segs old new false with
  | false =>
    have hNone : key.violated new view live = false := by
      refine KeyDef.violated_eq_false.mpr fun p hp => Bool.eq_false_iff.mpr fun hClash => ?_
      have hClashOld := hApart hDiffers p hp hClash
      rw [KeyDef.violated_eq_false.mp hOld p hp] at hClashOld
      exact absurd hClashOld (by simp)
    have hSame := (hSelf (by rwa [hpRecKeyCmp_comm])).symm hFit.sorted
    exact .inl ⟨hNone, key, by rw [updateKey, hDiffers]; rfl, With.change hReady hFit h hSame⟩
  | true =>
    obtain ⟨key₁, hDelete, hWithout⟩ := With.delete hReady hFit h
    cases hClash : key.violated new view live with
    | false =>
      obtain ⟨key₂, hWrite, hWith⟩ := Without.write_new hReady hFit hMalloc hWithout hClash
      refine .inl ⟨hClash, key₂, ?_, hWith⟩
      rw [updateKey, if_pos hDiffers, hDelete]
      simp only [hWrite]
    | true =>
      obtain ⟨key₂, hWrite, ⟨hHash, hWith⟩ | ⟨hRb, hWithout₂⟩⟩ :=
        Without.write_duplicate hReady hFit hMalloc hWithout hAgrees hClash
      · refine .inr (.inl ⟨hClash, key₂, ?_, hWith⟩)
        rw [updateKey, if_pos hDiffers, hDelete]
        simp only [hWrite]
        cases hIndex : key₂.index with
        | hash block hashBuckets => rfl
        | rbTree tree => simp [KeyDef.isHash, hIndex] at hHash
      · obtain ⟨key₃, hBack, hWith⟩ := Without.write_new hReady hFit hMalloc hWithout₂ hOld
        refine .inr (.inr ⟨hClash, key₃, ?_, hWith⟩)
        rw [updateKey, if_pos hDiffers, hDelete]
        simp only [hWrite]
        cases hIndex : key₂.index with
        | hash block hashBuckets => simp [KeyDef.isHash, hIndex] at hRb
        | rbTree tree => simp [hBack]

/-- An index of an update that is undone. -/
theorem restoreKey_spec (hMalloc : MallocOk malloc)
    (h : With address share view live pos new key key') :
    ∃ key'', restoreKey address malloc share old new pos key' = some (false, key'') ∧
      With address share view live pos old key key'' := by
  cases hDiffers : hpRecKeyCmp key.segs old new false with
  | false =>
    refine ⟨key', by rw [restoreKey, h.same.segs, hDiffers]; rfl, ?_⟩
    exact With.change hReady hFit h (hSelf (by rwa [hpRecKeyCmp_comm]))
  | true =>
    obtain ⟨key₁, hDelete, hWithout⟩ := With.delete hReady hFit h
    obtain ⟨key₂, hWrite, hWith⟩ := Without.write_new hReady hFit hMalloc hWithout hOld
    refine ⟨key₂, ?_, hWith⟩
    rw [restoreKey, h.same.segs, if_pos hDiffers, hDelete]
    exact hWrite

end

def Share.view (share : Share) (pos : Nat) : Record := (share.rows pos).record

theorem Share.free_view (share : Share) (pos p : Nat) : (share.free pos).view p = share.view p := by
  simp only [Share.view, Share.free, update_apply]
  split <;> simp_all

theorem Share.setRow_view (share : Share) (keydef : List KeyDef) (pos p : Nat) (row : Row) :
    Share.view { share with keydef, rows := update share.rows pos row } p =
      update share.view pos row.record p := by
  simp only [Share.view, update_apply]
  split <;> rfl

def Share.liveRows (share : Share) : Finset Nat :=
  (Finset.range (share.records + share.deleted)).filter fun pos => (share.rows pos).live = true

/-- The table with the rows in `live`: the record area, the indexes, and no duplicates. -/
structure Consistent (address : Addresses) (share : Share) (live : Finset Nat) : Prop where
  sized : Sized share.records share.blength
  rows : ∃ free, RowsOk share live free none
  keys : ∀ key ∈ share.keydef, KeyOk address share.records share.blength share.view live key
  fit : ∀ key ∈ share.keydef, key.Fit share.view live

theorem RowsOk.liveRows_eq {share : Share} {live : Finset Nat} {free : List Nat}
    (h : RowsOk share live free none) : share.liveRows = live := by
  ext pos
  have hCover := h.cover pos
  simp only [Option.isSome_none, Bool.toNat_false, add_zero, reduceCtorEq, or_false] at hCover
  rw [Share.liveRows, mem_filter, mem_range, hCover]
  constructor
  · rintro ⟨hLive | hFree, hMarked⟩
    · exact hLive
    · rw [h.free_rows pos hFree] at hMarked
      exact absurd hMarked (by simp)
  · exact fun hLive => ⟨.inl hLive, h.live_rows pos hLive⟩

theorem Consistent.liveRows_eq {address : Addresses} {share : Share} {live : Finset Nat}
    (h : Consistent address share live) : share.liveRows = live := by
  obtain ⟨free, hRows⟩ := h.rows
  exact hRows.liveRows_eq

/-- A call has left a consistent share in which these rows are live. -/
structure After (address : Addresses) (share share' : Share) (view : Nat → Record)
    (live : Finset Nat) : Prop where
  consistent : Consistent address share' live
  view_eq : ∀ pos ∈ live, share'.view pos = view pos
  keydef : List.Forall₂ KeyDef.SameDef share.keydef share'.keydef

section
variable {address : Addresses} {malloc : Malloc} {share share' : Share} {view : Nat → Record}
  {live : Finset Nat} {free : List Nat} {pos : Nat} {record : Record}

theorem KeyDef.Fit.congr {key : KeyDef} (h : key.Fit view live) {view' : Nat → Record}
    (hView : ∀ pos ∈ live, view' pos = view pos) : key.Fit view' live := by
  refine ⟨h.sorted, fun p hp q hq hNe => ?_⟩
  rw [hView p hp, hView q hq]
  exact h.unique p hp q hq hNe

theorem after_of_holds (hSized : Sized share'.records share'.blength)
    (hRows : RowsOk share' live free none)
    (hKeys : List.Forall₂ (KeyDef.Holds address share'.records share'.blength view live)
      share.keydef share'.keydef)
    (hView : ∀ pos ∈ live, share'.view pos = view pos)
    (hFit : ∀ key ∈ share.keydef, key.Fit view live) : After address share share' view live := by
  have hKey (key' : KeyDef) (hMem : key' ∈ share'.keydef) : key'.Fit view live ∧
      KeyOk address share'.records share'.blength view live key' := by
    obtain ⟨⟨i, hi'⟩, rfl⟩ := List.get_of_mem hMem
    have hi : i < share.keydef.length := hKeys.length_eq ▸ hi'
    have hHolds := hKeys.get hi hi'
    have hOld := hFit _ (List.get_mem share.keydef ⟨i, hi⟩)
    exact ⟨⟨hHolds.same.sorted hOld.sorted, hHolds.same.unique hOld.unique⟩, hHolds.ok⟩
  refine ⟨⟨hSized, ⟨free, hRows⟩, fun key' hMem => ?_, fun key' hMem => (hKey key' hMem).1.congr hView⟩,
    hView, hKeys.imp fun _ _ hHolds => hHolds.same⟩
  obtain ⟨hFit', hOk⟩ := hKey key' hMem
  refine hOk.congr hFit'.sorted fun pos hPos => ?_
  rw [hView pos hPos]
  exact KeyDef.sameKey_refl hFit'.sorted _

def Share.violated (share : Share) (record : Record) (live : Finset Nat) : Bool :=
  share.keydef.any (KeyDef.violated record share.view live)

/-- The index that `errkey` names. -/
def Share.firstViolated (share : Share) (record : Record) (live : Finset Nat) : Nat :=
  share.keydef.findIdx (KeyDef.violated record share.view live)

def Share.Agrees (share : Share) (record : Record) (live : Finset Nat) : Prop :=
  ∀ key ∈ share.keydef, ∀ pos ∈ live, key.Agrees record (share.view pos)

/-- The record is written to a new row, unless it is a duplicate; then the call fails and
leaves the table as it was. -/
theorem heapWrite_spec (h : Consistent address share live) (hMalloc : MallocOk malloc)
    (hAgrees : share.Agrees record live) :
    (share.violated record live = false ∧ ∃ pos share', pos ∉ live ∧
      heapWrite address malloc share record = some (.ok, share') ∧
      After address share share' (update share.view pos record) (insert pos live)) ∨
    (share.violated record live = true ∧ ∃ share', heapWrite address malloc share record =
        some (.duplicate (share.firstViolated record live), share') ∧
      After address share share' share.view live ∧
      share'.records = share.records ∧ share'.blength = share.blength) := by
  obtain ⟨free, hRows⟩ := h.rows
  obtain ⟨pos, delLink, deleted, free', hNext, hOut⟩ := hRows.next
  set share₁ : Share := { share with delLink, deleted }
  have hNotLive := (hOut.out_apart pos rfl).1
  have hReady : Ready share₁ share.view live pos := ⟨h.sized, fun _ _ => rfl, hNotLive⟩
  have hSame (key : KeyDef) (hKey : key ∈ share.keydef) : Without address share₁ share.view live key key :=
    ⟨.refl key, h.keys key hKey⟩
  rcases changeKeys_undoKeys
    (fun key hKey => writeNew_changes hReady (h.fit key hKey) hMalloc (hSame key hKey) (hAgrees key hKey))
    hSame (fun key hKey key' => With.delete hReady (h.fit key hKey)) with
    ⟨hNone, keys, hChange, hKeys⟩ | ⟨hSome, back, rest, keys, hChange, hUndo, hKeys⟩
  · have hRows' := ((hOut.setRow { share.rows pos with record, live := true }).withKeys keys).more
      (by simp)
    have hFit (key : KeyDef) (hKey : key ∈ share.keydef) :
        key.Fit (update share.view pos record) (insert pos live) := by
      refine ⟨(h.fit key hKey).sorted, (h.fit key hKey).unique.insert (h.fit key hKey).sorted hNotLive ?_⟩
      refine KeyDef.violated_eq_false.mp (Bool.eq_false_iff.mpr ?_)
      exact List.any_eq_false.mp hNone key hKey
    refine .inl ⟨hNone, pos, _, hNotLive, ?_, after_of_holds h.sized.grow hRows' hKeys
        (fun p _ => Share.setRow_view share₁ keys pos p _) hFit⟩
    simp only [heapWrite, hNext]
    rw [hChange]
  · refine .inr ⟨hSome, { share₁ with keydef := keys }.free pos, ?_,
      after_of_holds h.sized (hOut.withKeys keys).release hKeys ?_ h.fit, rfl, rfl⟩
    · simp only [heapWrite, hNext]
      rw [hChange]
      simp only [hUndo, Option.map_some]
      rfl
    · exact fun p _ => Share.free_view _ pos p

/-! The table while a live row is out. -/

theorem KeyDef.Fit.erase {key : KeyDef} (h : key.Fit view live) (pos : Nat) :
    key.Fit view (live.erase pos) :=
  ⟨h.sorted, fun p hp q hq => h.unique p (mem_of_mem_erase hp) q (mem_of_mem_erase hq)⟩

section
variable (h : Consistent address share live) (hPos : pos ∈ live)
include h hPos

/-- The counters come back. -/
theorem Consistent.more_less : share.less.records + 1 = share.records ∧
      grown (share.less.records + 1) share.less.blength = share.blength ∧
      Sized share.less.records share.less.blength := by
  obtain ⟨free, hRows⟩ := h.rows
  obtain ⟨n, hn⟩ := Nat.exists_eq_add_of_lt (hRows.card ▸ card_pos.mpr ⟨pos, hPos⟩)
  rw [zero_add] at hn
  have hSized := h.sized
  rw [hn] at hSized
  have hLess : share.less.records = n := by rw [Share.less, hn, Nat.add_sub_cancel]
  have hShrunk : share.less.blength = shrunk n share.blength := by
    rw [Share.less, hn, Nat.add_sub_cancel]
  rw [hLess, hShrunk]
  exact ⟨hn.symm, hSized.grown_shrunk, hSized.shrink⟩

theorem Consistent.ready : Ready share.less share.view (live.erase pos) pos :=
  ⟨(h.more_less hPos).2.2, fun _ _ => rfl, notMem_erase pos live⟩

theorem Consistent.full (key : KeyDef) (hKey : key ∈ share.keydef) :
    With address share.less share.view (live.erase pos) pos (share.view pos) key key := by
  obtain ⟨hRecords, hBlength, -⟩ := h.more_less hPos
  refine ⟨.refl key, ?_⟩
  rw [hBlength, hRecords, update_eq_self, insert_erase hPos]
  exact h.keys key hKey

/-- A row is deleted. -/
theorem heapDelete_spec : ∃ share', heapDelete address share pos = some (.ok, share') ∧
      After address share share' share.view (live.erase pos) := by
  obtain ⟨free, hRows⟩ := h.rows
  have hOut := hRows.less hPos
  have hFull := h.full hPos
  have hReady := h.ready hPos
  have hFit (key : KeyDef) (hKey : key ∈ share.keydef) := (h.fit key hKey).erase pos
  rcases changeKeys_spec (fun key hKey => deleteOld_changes hReady (hFit key hKey) (hFull key hKey))
    hFull .nil with ⟨-, keys, hChange, hKeys⟩ | ⟨hSome, -⟩
  · refine ⟨{ share.less with keydef := keys }.free pos, ?_, after_of_holds hReady.sized
      (hOut.withKeys keys).release hKeys ?_ hFit⟩
    · simp only [heapDelete]
      exact hChange ▸ rfl
    · exact fun p _ => Share.free_view _ pos p
  · simp at hSome

end

def Share.KeepsApart (share : Share) (pos : Nat) (new : Record) (live : Finset Nat) : Prop :=
  ∀ key ∈ share.keydef, hpRecKeyCmp key.segs (share.view pos) new false = false →
    ∀ p ∈ live.erase pos, key.clashes new (share.view p) = true →
      key.clashes (share.view pos) (share.view p) = true

/-- A row is changed, unless another row makes the new record a duplicate; then the call
fails and leaves the table as it was. -/
theorem heapUpdate_spec (h : Consistent address share live) (hMalloc : MallocOk malloc)
    (hPos : pos ∈ live) {new : Record} (hAgrees : share.Agrees new live)
    (hApart : share.KeepsApart pos new live) :
    (share.violated new (live.erase pos) = false ∧ ∃ share',
      heapUpdate address malloc share pos new = some (.ok, share') ∧
      After address share share' (update share.view pos new) live) ∨
    (share.violated new (live.erase pos) = true ∧ ∃ share',
      heapUpdate address malloc share pos new =
        some (.duplicate (share.firstViolated new (live.erase pos)), share') ∧
      After address share share' share.view live ∧
      share'.records = share.records ∧ share'.blength = share.blength) := by
  obtain ⟨free, hRows⟩ := h.rows
  obtain ⟨hRecords, hBlength, hSized⟩ := h.more_less hPos
  have hOut := hRows.less hPos
  have hFull := h.full hPos
  have hReady := h.ready hPos
  have hInsert : insert pos (live.erase pos) = live := insert_erase hPos
  have hFit (key : KeyDef) (hKey : key ∈ share.keydef) := (h.fit key hKey).erase pos
  have hOld (key : KeyDef) (hKey : key ∈ share.keydef) :
      key.violated (share.view pos) share.view (live.erase pos) = false :=
    KeyDef.violated_eq_false.mpr fun p hp => (h.fit key hKey).unique pos hPos p
      (mem_of_mem_erase hp) (ne_of_mem_erase hp).symm
  have hSelf (key : KeyDef) (hKey : key ∈ share.keydef) := hAgrees key hKey pos hPos
  rcases changeKeys_undoKeys
    (fun key hKey => updateKey_changes hReady (hFit key hKey) (hOld key hKey) (hSelf key hKey) hMalloc
      (fun p hp => hAgrees key hKey p (mem_of_mem_erase hp)) (hApart key hKey) (hFull key hKey))
    hFull (fun key hKey key' hWith => restoreKey_spec hReady (hFit key hKey) (hOld key hKey)
      (hSelf key hKey) hMalloc hWith) with
    ⟨hNone, keys, hChange, hKeys⟩ | ⟨hSome, back, rest, keys, hChange, hUndo, hKeys⟩
  · have hRows' := ((hOut.setRow { share.rows pos with record := new }).withKeys keys).more
      (by simp [hRows.live_rows pos hPos])
    have hFit' (key : KeyDef) (hKey : key ∈ share.keydef) :
        key.Fit (update share.view pos new) (insert pos (live.erase pos)) := by
      refine ⟨(h.fit key hKey).sorted, (hFit key hKey).unique.insert (h.fit key hKey).sorted
        hReady.out ?_⟩
      refine KeyDef.violated_eq_false.mp (Bool.eq_false_iff.mpr ?_)
      exact List.any_eq_false.mp hNone key hKey
    refine .inl ⟨hNone, _, ?_, hInsert ▸ after_of_holds hSized.grow hRows' hKeys
      (fun p _ => Share.setRow_view share.less keys pos p _) hFit'⟩
    simp only [heapUpdate]
    exact hChange ▸ rfl
  · have hRows' := (hOut.withKeys keys).more (hRows.live_rows pos hPos)
    refine .inr ⟨hSome, { share.less with keydef := keys }.more, ?_, ?_, hRecords, hBlength⟩
    · have hLoop : changeKeys (updateKey address malloc share.less (share.less.rows pos).record new
          pos) [] share.less.keydef = _ := hChange
      have hBack : undoKeys (restoreKey address malloc share.less (share.less.rows pos).record new
          pos) back rest = _ := hUndo
      simp only [heapUpdate, hLoop, hBack, Option.map_some]
      rfl
    · rw [hInsert] at hRows'
      rw [With, update_eq_self, hInsert] at hKeys
      exact after_of_holds hSized.grow hRows' hKeys (fun _ _ => rfl) h.fit

end

end MySQL.Heap
