import MySQL.Heap.HashIndex
import MySQL.Heap.RbIndex

/-! The indexes of a table, of either kind: what a write and a delete of one entry do, and
the loops over all of them. -/
namespace MySQL.Heap

open Function List Library LinearHash

/-! ### Equal keys -/

section
variable (segs : List KeySeg) (rec₁ rec₂ : Record)

theorem segDiffers_comm (seg : KeySeg) (flag : Bool) :
    segDiffers seg rec₁ rec₂ flag = segDiffers seg rec₂ rec₁ flag := by
  by_cases hNull : seg.null rec₁ = seg.null rec₂
  · simp only [segDiffers, hNull, ne_eq, not_true_eq_false, if_false]
    cases seg.type with
    | text => simp only [seg.charset.comm _]
    | varText1 => simp only [seg.charset.comm _]
    | other pack compare => simp only [@eq_comm _ _]
  · simp [segDiffers, hNull, Ne.symm hNull]

theorem segDiffers_flag (seg : KeySeg) (flag : Bool) :
    segDiffers seg rec₁ rec₂ flag = segDiffers seg rec₁ rec₂ false := by
  simp only [segDiffers]
  cases seg.type with
  | text => rfl
  | varText1 => simp only [seg.charset.endspace _ _]
  | other pack compare => rfl

theorem hpRecKeyCmp_comm (flag : Bool) :
    hpRecKeyCmp segs rec₁ rec₂ flag = hpRecKeyCmp segs rec₂ rec₁ flag := by
  simp only [hpRecKeyCmp, segDiffers_comm rec₁ rec₂]

theorem hpRecKeyCmp_flag (flag : Bool) :
    hpRecKeyCmp segs rec₁ rec₂ flag = hpRecKeyCmp segs rec₁ rec₂ false := by
  simp only [hpRecKeyCmp, segDiffers_flag rec₁ rec₂ _ flag]

variable {segs rec₁ rec₂}

/-- Equal keys are NULL in the same parts. -/
theorem hpIfNullInKey_congr {flag : Bool} (h : hpRecKeyCmp segs rec₁ rec₂ flag = false) :
    hpIfNullInKey segs rec₁ = hpIfNullInKey segs rec₂ := by
  simp only [hpRecKeyCmp, any_eq_false] at h
  have hNull (seg : KeySeg) (hSeg : seg ∈ segs) : seg.null rec₁ = seg.null rec₂ := by
    by_contra hNe
    exact h seg hSeg (by simp [segDiffers, hNe])
  rw [Bool.eq_iff_iff]
  simp only [hpIfNullInKey, any_eq_true, decide_eq_true_eq]
  exact exists_congr fun seg => and_congr_right fun hSeg => by rw [hNull seg hSeg]

end

/-! ### One index -/

def KeyDef.isHash (key : KeyDef) : Bool :=
  match key.index with
  | .hash _ _ => true
  | .rbTree _ => false

def KeyOk (address : Addresses) (n b : Nat) (view : Nat → Record) (live : Finset Nat)
    (key : KeyDef) : Prop :=
  match key.index with
  | .hash block hashBuckets => HashOk key.segs n b view live block hashBuckets
  | .rbTree tree => RbOk address key.segs view live tree

def KeyDef.clashes (key : KeyDef) (record other : Record) : Bool :=
  if key.isHash then key.checks record && !hpRecKeyCmp key.segs record other true
  else key.noSame && keyEqual key.segs record other

def KeyDef.Unique (key : KeyDef) (view : Nat → Record) (live : Finset Nat) : Prop :=
  ∀ p ∈ live, ∀ q ∈ live, p ≠ q → key.clashes (view p) (view q) = false

def KeyDef.SameKey (key : KeyDef) (record other : Record) : Prop :=
  if key.isHash then hpRecHashnr key.segs record = hpRecHashnr key.segs other
  else keyEqual key.segs record other = true

def KeyDef.Agrees (key : KeyDef) (record other : Record) : Prop :=
  hpRecKeyCmp key.segs record other false = false → key.SameKey record other

def KeyDef.Sorted (key : KeyDef) : Prop := key.isHash = false → SegsOrdered key.segs

structure KeyDef.SameDef (key key' : KeyDef) : Prop where
  segs : key'.segs = key.segs
  noSame : key'.noSame = key.noSame
  nullPartKey : key'.nullPartKey = key.nullPartKey
  isHash : key'.isHash = key.isHash

namespace KeyDef.SameDef
variable {key key' : KeyDef} (h : key.SameDef key')
include h

theorem clashes (record other : Record) : key'.clashes record other = key.clashes record other := by
  simp only [KeyDef.clashes, checks, h.segs, h.noSame, h.nullPartKey, h.isHash]

theorem unique {view : Nat → Record} {live : Finset Nat} (hUnique : key.Unique view live) :
    key'.Unique view live :=
  fun p hp q hq hNe => (h.clashes _ _).trans (hUnique p hp q hq hNe)

theorem sorted (hSorted : key.Sorted) : key'.Sorted := by
  intro hRb
  rw [h.isHash] at hRb
  rw [h.segs]
  exact hSorted hRb

end KeyDef.SameDef

theorem KeyDef.SameDef.refl (key : KeyDef) : key.SameDef key := ⟨rfl, rfl, rfl, rfl⟩

theorem KeyDef.SameDef.trans {key key' key'' : KeyDef} (h : key.SameDef key')
    (h' : key'.SameDef key'') : key.SameDef key'' :=
  ⟨h'.segs.trans h.segs, h'.noSame.trans h.noSame, h'.nullPartKey.trans h.nullPartKey,
    h'.isHash.trans h.isHash⟩

theorem KeyDef.clashes_comm {key : KeyDef} (hSorted : key.Sorted) (record other : Record) :
    key.clashes record other = key.clashes other record := by
  cases hHash : key.isHash with
  | true =>
    simp only [clashes, hHash, if_true]
    rw [hpRecKeyCmp_comm key.segs other record]
    cases hSame : hpRecKeyCmp key.segs record other true with
    | true => simp
    | false => simp only [checks, hpIfNullInKey_congr hSame]
  | false =>
    have hParts := signPreorder_compareParts (hSorted hHash)
    simp only [clashes, hHash, Bool.false_eq_true, if_false, keyEqual]
    rw [decide_eq_decide.mpr (hParts.zero_iff _ _)]

/-- A new row that is no duplicate. -/
theorem KeyDef.Unique.insert {key : KeyDef} {view : Nat → Record} {live : Finset Nat}
    {recpos : Nat} {record : Record} (h : key.Unique view live) (hSorted : key.Sorted)
    (hNew : recpos ∉ live) (hNone : ∀ pos ∈ live, key.clashes record (view pos) = false) :
    key.Unique (update view recpos record) (insert recpos live) := by
  have hOther (pos : Nat) (hPos : pos ∈ live) : update view recpos record pos = view pos :=
    update_of_ne (fun hEq : pos = recpos => hNew (hEq ▸ hPos)) ..
  intro p hp q hq hNe
  rcases Finset.mem_insert.mp hp with rfl | hpLive
  · have hqLive := (Finset.mem_insert.mp hq).resolve_left (Ne.symm hNe)
    rw [update_self, hOther q hqLive]
    exact hNone q hqLive
  · rcases Finset.mem_insert.mp hq with rfl | hqLive
    · rw [update_self, hOther p hpLive, KeyDef.clashes_comm hSorted]
      exact hNone p hpLive
    · rw [hOther p hpLive, hOther q hqLive]
      exact h p hpLive q hqLive hNe

/-- The entries also stand for records with the same keys. -/
theorem KeyOk.congr {address : Addresses} {n b : Nat} {view view' : Nat → Record}
    {live : Finset Nat} {key : KeyDef} (h : KeyOk address n b view live key)
    (hSorted : key.Sorted) (hSame : ∀ pos ∈ live, key.SameKey (view pos) (view' pos)) :
    KeyOk address n b view' live key := by
  cases hIndex : key.index with
  | hash block hashBuckets =>
    rw [KeyOk, hIndex] at h ⊢
    refine HashOk.congr h view' fun pos hPos => ?_
    have hNr := hSame pos hPos
    rw [KeyDef.SameKey, if_pos (by rw [KeyDef.isHash, hIndex])] at hNr
    exact hNr.symm
  | rbTree tree =>
    have hRb : key.isHash = false := by rw [KeyDef.isHash, hIndex]
    rw [KeyOk, hIndex] at h ⊢
    obtain ⟨entries, hHolds⟩ := h
    refine ⟨entries, hHolds.has, hHolds.ordered, hHolds.positions, fun e he => ?_⟩
    have hEqual := hSame _ ((hHolds.mem_live _).mpr ⟨e, he, rfl⟩)
    rw [KeyDef.SameKey, if_neg (by simp [hRb]), keyEqual, decide_eq_true_iff] at hEqual
    exact (signPreorder_compareParts (hSorted hRb)).zero_trans _ _ _ (hHolds.keys e he) hEqual

theorem KeyDef.sameKey_refl {key : KeyDef} (hSorted : key.Sorted) (record : Record) :
    key.SameKey record record := by
  cases hHash : key.isHash with
  | true => simp [SameKey, hHash]
  | false =>
    simp only [SameKey, hHash, Bool.false_eq_true, if_false, keyEqual, decide_eq_true_iff]
    exact (signPreorder_compareParts (hSorted hHash)).self _

theorem KeyDef.SameKey.symm {key : KeyDef} {record other : Record} (h : key.SameKey record other)
    (hSorted : key.Sorted) : key.SameKey other record := by
  cases hHash : key.isHash with
  | true =>
    simp only [SameKey, hHash, if_true] at h ⊢
    exact h.symm
  | false =>
    simp only [SameKey, hHash, Bool.false_eq_true, if_false, keyEqual,
      decide_eq_true_iff] at h ⊢
    exact ((signPreorder_compareParts (hSorted hHash)).zero_iff _ _).mp h

/-! ### Writing and deleting an entry -/

section
variable {address : Addresses} {malloc : Malloc} {share : Share} {key : KeyDef}
  {view : Nat → Record} {live : Finset Nat} {recpos : Nat}

/-- What `writeKey` makes of an index of `n` entries: a duplicate is reported, and it is
added to a hash index only. -/
structure WriteOk (address : Addresses) (n b : Nat) (view : Nat → Record) (live : Finset Nat)
    (record : Record) (recpos : Nat) (key : KeyDef) (duplicate : Bool) (key' : KeyDef) : Prop where
  same : key.SameDef key'
  clashes : duplicate = true → ∃ pos ∈ live, key.clashes record (view pos) = true
  found : ∀ pos ∈ live, key.Agrees record (view pos) → key.clashes record (view pos) = true →
    duplicate = true
  added : duplicate = false ∨ key.isHash = true →
    KeyOk address (n + 1) (grown (n + 1) b) (Function.update view recpos record)
      (insert recpos live) key'
  refused : duplicate = true → key.isHash = false → KeyOk address n b view live key'

theorem writeKey_spec (h : KeyOk address share.records share.blength view live key)
    (hSorted : key.Sorted) (hMalloc : MallocOk malloc)
    (hRows : ∀ pos ∈ live, (share.rows pos).record = view pos) (hNew : recpos ∉ live)
    (hUnique : key.Unique view live) (record : Record) :
    ∃ duplicate key', writeKey address malloc share key record recpos = some (duplicate, key') ∧
      WriteOk address share.records share.blength view live record recpos key duplicate key' := by
  cases hIndex : key.index with
  | hash block hashBuckets =>
    have hHash : key.isHash = true := by rw [KeyDef.isHash, hIndex]
    rw [KeyOk, hIndex] at h
    obtain ⟨chains, hValid⟩ := h.valid
    obtain ⟨duplicate, block', hashBuckets', hWrite, hOk, hIff⟩ := hpWriteKey_spec h hRows hNew record
    refine ⟨duplicate, key.withHash block' hashBuckets', by rw [writeKey, hIndex]; exact hWrite,
      ⟨rfl, rfl, rfl, by rw [hHash]; rfl⟩, ?_, ?_, fun _ => hOk, by simp [hHash]⟩
    all_goals
      rw [hIff]
      simp only [KeyDef.clashes, hHash, if_true, Bool.and_eq_true, Bool.not_eq_true']
    · rintro ⟨hChecks, pos, hPos, -, hSame⟩
      exact ⟨pos, hPos, hChecks, hSame⟩
    · rintro pos hPos hAgrees ⟨hChecks, hSame⟩
      refine ⟨hChecks, pos, hPos, ?_, hSame⟩
      have hNr := hAgrees (by rwa [hpRecKeyCmp_flag] at hSame)
      rw [KeyDef.SameKey, if_pos hHash] at hNr
      rw [hValid.sized.mask_grown, hNr]
  | rbTree tree =>
    have hRb : key.isHash = false := by rw [KeyDef.isHash, hIndex]
    have hStep (record : Record) : writeKey address malloc share key record recpos =
        hpRbWriteKey address malloc key tree record recpos := by rw [writeKey, hIndex]
    rw [KeyOk, hIndex] at h
    cases hNoSame : key.noSame with
    | false =>
      obtain ⟨tree', hWrite, hOk⟩ :=
        hpRbWriteKey_nonunique h (hSorted hRb) hMalloc hNew hNoSame record
      refine ⟨false, key.withTree tree', by rw [hStep, hWrite], ⟨rfl, rfl, rfl, by rw [hRb]; rfl⟩,
        by simp, ?_, fun _ => hOk, by simp⟩
      simp [KeyDef.clashes, hRb, hNoSame]
    | true =>
      have hClash (r₁ r₂ : Record) : key.clashes r₁ r₂ = keyEqual key.segs r₁ r₂ := by
        simp [KeyDef.clashes, hRb, hNoSame]
      rcases hpRbWriteKey_unique h (hSorted hRb) hMalloc hNew hNoSame
        (fun p hp q hq hNe => hClash _ _ ▸ hUnique p hp q hq hNe) record with
        ⟨pos, hPos, hEqual, tree', hWrite, hOk⟩ | ⟨hNone, tree', hWrite, hOk⟩
      · refine ⟨true, key.withTree tree', by rw [hStep, hWrite],
          ⟨rfl, rfl, rfl, by rw [hRb]; rfl⟩, fun _ => ⟨pos, hPos, by rw [hClash, hEqual]⟩,
          fun _ _ _ _ => rfl, by simp [hRb], fun _ _ => hOk⟩
      · refine ⟨false, key.withTree tree', by rw [hStep, hWrite],
          ⟨rfl, rfl, rfl, by rw [hRb]; rfl⟩, by simp, ?_, fun _ => hOk, by simp⟩
        intro pos hPos _ hIs
        rw [hClash, hNone pos hPos] at hIs
        exact absurd hIs (by simp)

theorem deleteKey_spec
    (h : KeyOk address (share.records + 1) (grown (share.records + 1) share.blength) view live key)
    (hSized : Sized share.records share.blength) (hSorted : key.Sorted)
    (hRows : ∀ pos ∈ live, pos ≠ recpos → (share.rows pos).record = view pos)
    (hLive : recpos ∈ live) :
    ∃ key', deleteKey address share key (view recpos) recpos = some (false, key') ∧
      key.SameDef key' ∧
      KeyOk address share.records share.blength view (live.erase recpos) key' := by
  cases hIndex : key.index with
  | hash block hashBuckets =>
    rw [KeyOk, hIndex] at h
    obtain ⟨block', hashBuckets', hDelete, hOk⟩ := hpDeleteKey_spec h hSized hRows hLive
    refine ⟨key.withHash block' hashBuckets', by rw [deleteKey, hIndex]; exact hDelete,
      ⟨rfl, rfl, rfl, by rw [KeyDef.isHash, KeyDef.isHash, hIndex]; rfl⟩, hOk⟩
  | rbTree tree =>
    have hRb : key.isHash = false := by rw [KeyDef.isHash, hIndex]
    rw [KeyOk, hIndex] at h
    obtain ⟨tree', hDelete, hOk⟩ := hpRbDeleteKey_spec h (hSorted hRb) hLive
    refine ⟨key.withTree tree', by rw [deleteKey, hIndex]; exact hDelete,
      ⟨rfl, rfl, rfl, by rw [hRb]; rfl⟩, hOk⟩

end

/-! ### The loops -/

section
variable {change : KeyDef → Option Outcome} {undo : KeyDef → Option (Bool × KeyDef)}
  {clash : KeyDef → Bool} {Done Same : KeyDef → KeyDef → Prop} {keydef : List KeyDef}

/-- What a change does to one index: it is `Done`, unless there is a duplicate; then the
index is done all the same and is to be undone, or it is the `Same`. -/
def Changes (change : KeyDef → Option Outcome) (clash : KeyDef → Bool)
    (Done Same : KeyDef → KeyDef → Prop) (key : KeyDef) : Prop :=
  (clash key = false ∧ ∃ key', change key = some (.done key') ∧ Done key key') ∨
  (clash key = true ∧ ∃ key', change key = some (.duplicate key' true) ∧ Done key key') ∨
  clash key = true ∧ ∃ key', change key = some (.duplicate key' false) ∧ Same key key'

/-- The loop comes to the end, or to the first index with a duplicate. -/
theorem changeKeys_spec {front past todo : List KeyDef}
    (hChange : ∀ key ∈ todo, Changes change clash Done Same key) (hSame : ∀ key ∈ todo, Same key key)
    (hPast : List.Forall₂ Done front past) :
    (todo.any clash = false ∧ ∃ keys, changeKeys change past todo = some (.all keys) ∧
      List.Forall₂ Done (front.reverse ++ todo) keys) ∨
    (todo.any clash = true ∧ ∃ front' todo' undo rest,
      changeKeys change past todo = some (.duplicate (front.length + todo.findIdx clash) undo rest) ∧
      front.reverse ++ todo = front'.reverse ++ todo' ∧
      List.Forall₂ Done front' undo ∧ List.Forall₂ Same todo' rest) := by
  induction todo generalizing front past with
  | nil =>
    refine .inl ⟨rfl, past.reverse, rfl, ?_⟩
    rw [append_nil]
    exact rel_reverse hPast
  | cons key todo ih =>
    have hRest : Forall₂ Same todo todo :=
      forall₂_same.mpr fun k hk => hSame k (mem_cons_of_mem _ hk)
    have hShift : front.reverse ++ key :: todo = (key :: front).reverse ++ todo := by simp
    rcases hChange key mem_cons_self with ⟨hClash, key', hStep, hDone⟩ |
      ⟨hClash, key', hStep, hDone⟩ | ⟨hClash, key', hStep, hKept⟩
    · have hNext := ih (fun k hk => hChange k (mem_cons_of_mem _ hk))
        (fun k hk => hSame k (mem_cons_of_mem _ hk)) (Forall₂.cons hDone hPast)
      have hLength : front.length + (key :: todo).findIdx clash =
          (key :: front).length + todo.findIdx clash := by
        rw [findIdx_cons, hClash, length_cons, cond_false]
        omega
      rw [changeKeys, hStep, any_cons, hClash, Bool.false_or, hLength, hShift]
      exact hNext
    all_goals
      refine .inr ⟨by rw [any_cons, hClash, Bool.true_or], ?_⟩
      rw [changeKeys, hStep, findIdx_cons, hClash, cond_true, add_zero, hPast.length_eq]
    · exact ⟨key :: front, todo, key' :: past, todo, rfl, hShift, .cons hDone hPast, hRest⟩
    · exact ⟨front, key :: todo, past, key' :: todo, rfl, rfl, hPast, .cons hKept hRest⟩

theorem undoKeys_spec {front keys todo rest : List KeyDef}
    (hUndo : ∀ key ∈ front, ∀ key', Done key key' →
      ∃ key'', undo key' = some (false, key'') ∧ Same key key'')
    (hFront : List.Forall₂ Done front keys) (hRest : List.Forall₂ Same todo rest) :
    ∃ keys', undoKeys undo keys rest = some keys' ∧
      List.Forall₂ Same (front.reverse ++ todo) keys' := by
  induction hFront generalizing todo rest with
  | nil => exact ⟨rest, rfl, hRest⟩
  | @cons key key' front keys hDone hFront ih =>
    obtain ⟨key'', hStep, hSame⟩ := hUndo key mem_cons_self key' hDone
    obtain ⟨keys', hKeys, hAll⟩ := ih (fun k hk => hUndo k (mem_cons_of_mem _ hk))
      (Forall₂.cons hSame hRest)
    refine ⟨keys', by rw [undoKeys, hStep]; exact hKeys, ?_⟩
    simpa using hAll

/-- All indexes are done, or there is a duplicate and all are the same after undoing. -/
theorem changeKeys_undoKeys (hChange : ∀ key ∈ keydef, Changes change clash Done Same key)
    (hSame : ∀ key ∈ keydef, Same key key)
    (hUndo : ∀ key ∈ keydef, ∀ key', Done key key' →
      ∃ key'', undo key' = some (false, key'') ∧ Same key key'') :
    (keydef.any clash = false ∧ ∃ keys, changeKeys change [] keydef = some (.all keys) ∧
      List.Forall₂ Done keydef keys) ∨
    (keydef.any clash = true ∧ ∃ back rest keys,
      changeKeys change [] keydef = some (.duplicate (keydef.findIdx clash) back rest) ∧
      undoKeys undo back rest = some keys ∧ List.Forall₂ Same keydef keys) := by
  rcases changeKeys_spec hChange hSame .nil with hAll | ⟨hAny, front, todo, back, rest, hStep, hSplit,
    hFront, hRest⟩
  · exact .inl hAll
  · rw [reverse_nil, nil_append] at hSplit
    subst hSplit
    obtain ⟨keys, hKeys, hForall⟩ := undoKeys_spec
      (fun k hk => hUndo k (mem_append_left _ (mem_reverse.mpr hk))) hFront hRest
    exact .inr ⟨hAny, back, rest, keys, by simpa using hStep, hKeys, hForall⟩

end

end MySQL.Heap
