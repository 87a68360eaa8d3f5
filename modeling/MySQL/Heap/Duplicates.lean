import MySQL.Heap.TableRuns

/-! A call that fails with a duplicate key is undone. -/
namespace MySQL.Heap

open List Library LinearHash

def KeyDef.holdsEqual (record : Record) (view : Nat → Record) (live : Finset Nat) (key : KeyDef) : Bool :=
  key.noSame && !hpIfNullInKey key.segs record &&
    decide (∃ pos ∈ live, keyEqual key.segs record (view pos) = true)

def Call.conflicts (share : Share) : Call → KeyDef → Bool
  | .write _ record => KeyDef.holdsEqual record share.view share.liveRows
  | .delete _ => fun _ => false
  | .update _ pos new => KeyDef.holdsEqual new share.view (share.liveRows.erase pos)

/-- What the code finds in a unique index: `hp_rec_key_cmp` in a hash index, unless NULL exempts the
record there, and `ha_key_cmp` in an rb-tree, where two NULLs are equal. -/
def Call.clashes (share : Share) : Call → KeyDef → Bool
  | .write _ record => KeyDef.violated record share.view share.liveRows
  | .delete _ => fun _ => false
  | .update _ pos new => KeyDef.violated new share.view (share.liveRows.erase pos)

/-- In the first index in which the code finds a duplicate or another row has an equal key without
NULL, both are the case. -/
def Exact (share : Share) (c : Call) : Prop :=
  ∀ before key after, share.keydef = before ++ key :: after →
    (∀ k ∈ before, c.clashes share k = false ∧ c.conflicts share k = false) →
    c.clashes share key = c.conflicts share key

def SameEntries (records : Nat) (key key' : KeyDef) : Prop :=
  match key.index, key'.index with
  | .hash block hashBuckets, .hash block' hashBuckets' =>
    contents (Finset.range records) block' = contents (Finset.range records) block ∧
      hashBuckets' = hashBuckets
  | .rbTree tree, .rbTree tree' => ∃ entries entries', tree.Has entries ∧ tree'.Has entries' ∧
      (entries'.map fun e => e.2.key.recpos).Perm (entries.map fun e => e.2.key.recpos) ∧
      ∀ e ∈ entries, ∀ e' ∈ entries', e.2.key.recpos = e'.2.key.recpos →
        (compareParts key.segs e.2.key.parts e'.2.key.parts).toInt = 0
  | _, _ => False

structure Unchanged (share share' : Share) : Prop where
  liveRows : share'.liveRows = share.liveRows
  rows : ∀ pos ∈ share.liveRows, share'.view pos = share.view pos
  records : share'.records = share.records
  entries : List.Forall₂ (SameEntries share.records) share.keydef share'.keydef

/-- The call returns. It fails with a duplicate key when a unique index holds a different
row with an equal key without NULL; then it names the first such index, and the table is
unchanged. -/
def Undoes (address : Addresses) (share : Share) (c : Call) : Prop :=
  ∃ answer share', call address share c = some (answer, share') ∧
    ((∃ errkey, answer = .duplicate errkey) ↔ ∃ key ∈ share.keydef, c.conflicts share key = true) ∧
    ∀ errkey, answer = .duplicate errkey →
      errkey = share.keydef.findIdx (c.conflicts share) ∧ Unchanged share share'

section
variable {address : Addresses} {share share' : Share} {live : Finset Nat}

theorem sameEntries_of_keyOk {n b : Nat} {view view' : Nat → Record} {key key' : KeyDef}
    (hSame : key.SameDef key') (hSorted : key.Sorted) (hView : ∀ pos ∈ live, view' pos = view pos)
    (h : KeyOk address n b view live key) (h' : KeyOk address n b view' live key') :
    SameEntries n key key' := by
  have hOk' : KeyOk address n b view live key' := by
    refine h'.congr (hSame.sorted hSorted) fun pos hPos => ?_
    rw [hView pos hPos]
    exact KeyDef.sameKey_refl (hSame.sorted hSorted) _
  cases hIndex : key.index with
  | hash block hashBuckets =>
    cases hIndex' : key'.index with
    | rbTree tree => simpa [KeyDef.isHash, hIndex, hIndex'] using hSame.isHash
    | hash block' hashBuckets' =>
      rw [KeyOk, hIndex] at h
      rw [KeyOk, hIndex', hSame.segs] at hOk'
      rw [SameEntries, hIndex, hIndex']
      exact ⟨hOk'.contents_eq.trans h.contents_eq.symm, HashOk.buckets_unique hOk' h⟩
  | rbTree tree =>
    cases hIndex' : key'.index with
    | hash block' hashBuckets' => simpa [KeyDef.isHash, hIndex, hIndex'] using hSame.isHash
    | rbTree tree' =>
      have hParts := signPreorder_compareParts (hSorted (by simp [KeyDef.isHash, hIndex]))
      rw [KeyOk, hIndex] at h
      rw [KeyOk, hIndex', hSame.segs] at hOk'
      rw [SameEntries, hIndex, hIndex']
      obtain ⟨entries, hHolds⟩ := h
      obtain ⟨entries', hHolds'⟩ := hOk'
      refine ⟨entries, entries', hHolds.has, hHolds'.has,
        Multiset.coe_eq_coe.mp (hHolds'.positions.trans hHolds.positions.symm),
        fun e he e' he' hPos => ?_⟩
      have hKey' := hHolds'.keys e' he'
      rw [← hPos] at hKey'
      exact hParts.zero_trans _ _ _ (hHolds.keys e he) ((hParts.zero_iff _ _).mp hKey')

theorem After.unchanged (h : Consistent address share live)
    (hAfter : After address share share' share.view live) (hRecords : share'.records = share.records)
    (hBlength : share'.blength = share.blength) : Unchanged share share' := by
  refine ⟨hAfter.consistent.liveRows_eq.trans h.liveRows_eq.symm, ?_, hRecords, ?_⟩
  · rw [h.liveRows_eq]
    exact hAfter.view_eq
  · refine forall₂_iff_zip.mpr ⟨hAfter.keydef.length_eq, fun {key key'} hMem => ?_⟩
    obtain ⟨hKey, hKey'⟩ := of_mem_zip hMem
    have hOk' := hAfter.consistent.keys key' hKey'
    rw [hRecords, hBlength] at hOk'
    exact sameEntries_of_keyOk (forall₂_zip hAfter.keydef hMem) (h.fit key hKey).sorted
      hAfter.view_eq (h.keys key hKey) hOk'

/-- Two tests find the same place exactly if they agree where one of them first succeeds. -/
theorem findIdx_eq_iff {α : Type} {p q : α → Bool} {l : List α} : l.findIdx p = l.findIdx q ↔
    ∀ before x after, l = before ++ x :: after → (∀ y ∈ before, p y = false ∧ q y = false) → p x = q x := by
  induction l with
  | nil => simp
  | cons x l ih =>
    have hFirst (h : ∀ before y after, x :: l = before ++ y :: after →
        (∀ z ∈ before, p z = false ∧ q z = false) → p y = q y) : p x = q x := h [] x l rfl (by simp)
    rw [findIdx_cons, findIdx_cons]
    cases hp : p x with
    | true =>
      cases hq : q x with
      | true =>
        refine ⟨fun _ before y after hSplit hBefore => ?_, fun _ => rfl⟩
        cases before with
        | nil =>
          obtain ⟨rfl, -⟩ := cons.inj hSplit
          rw [hp, hq]
        | cons z before =>
          obtain ⟨rfl, -⟩ := cons.inj hSplit
          simp [hp] at hBefore
      | false => exact ⟨by simp, fun h => by cases hp.symm.trans ((hFirst h).trans hq)⟩
    | false =>
      cases hq : q x with
      | true => exact ⟨by simp, fun h => by cases hp.symm.trans ((hFirst h).trans hq)⟩
      | false =>
        simp only [cond_false, Nat.add_right_cancel_iff, ih]
        constructor
        · intro h before y after hSplit hBefore
          cases before with
          | nil =>
            obtain ⟨rfl, -⟩ := cons.inj hSplit
            rw [hp, hq]
          | cons z before =>
            obtain ⟨rfl, hRest⟩ := cons.inj hSplit
            exact h before y after hRest fun w hw => hBefore w (mem_cons_of_mem _ hw)
        · intro h before y after hSplit hBefore
          exact h (x :: before) y after (by rw [hSplit]; rfl) (forall_mem_cons.mpr ⟨⟨hp, hq⟩, hBefore⟩)

theorem exact_iff_findIdx {c : Call} :
    Exact share c ↔ share.keydef.findIdx (c.clashes share) = share.keydef.findIdx (c.conflicts share) :=
  findIdx_eq_iff.symm

theorem undoes_iff_of_cases {c : Call}
    (h : (share.keydef.any (c.clashes share) = false ∧ ∃ share', call address share c = some (.ok, share')) ∨
      (share.keydef.any (c.clashes share) = true ∧ ∃ share',
        call address share c = some (.duplicate (share.keydef.findIdx (c.clashes share)), share') ∧
        Unchanged share share')) : Undoes address share c ↔ Exact share c := by
  rw [exact_iff_findIdx]
  rcases h with ⟨hNone, share', hCall⟩ | ⟨hSome, share', hCall, hUnchanged⟩
  · have hLast : share.keydef.findIdx (c.clashes share) = share.keydef.length :=
      findIdx_eq_length.mpr fun key hKey => by simpa using any_eq_false.mp hNone key hKey
    rw [hLast]
    constructor
    · rintro ⟨answer, share₁, hCall₁, hIff, -⟩
      obtain ⟨rfl, rfl⟩ := Prod.mk.inj (Option.some.inj (hCall.symm.trans hCall₁))
      refine (findIdx_eq_length.mpr fun key hKey => Bool.eq_false_iff.mpr fun hIs => ?_).symm
      obtain ⟨errkey, hAnswer⟩ := hIff.mpr ⟨key, hKey, hIs⟩
      cases hAnswer
    · intro hSame
      refine ⟨_, share', hCall, ?_, by simp⟩
      simp only [reduceCtorEq, exists_false, false_iff, not_exists, not_and, Bool.not_eq_true]
      exact findIdx_eq_length.mp hSame.symm
  · have hThere : share.keydef.findIdx (c.clashes share) < share.keydef.length := by
      obtain ⟨key, hKey, hIs⟩ := any_eq_true.mp hSome
      exact findIdx_lt_length_of_exists ⟨key, hKey, hIs⟩
    constructor
    · rintro ⟨answer, share₁, hCall₁, -, hFirst⟩
      obtain ⟨rfl, rfl⟩ := Prod.mk.inj (Option.some.inj (hCall.symm.trans hCall₁))
      exact (hFirst _ rfl).1
    · intro hSame
      refine ⟨_, share', hCall, ?_, ?_⟩
      · simp only [Answer.duplicate.injEq, exists_eq', true_iff]
        exact findIdx_lt_length.mp (hSame ▸ hThere)
      · rintro errkey ⟨⟩
        exact ⟨hSame, hUnchanged⟩

end

def tinyintSeg (start : Nat) (nullBit : UInt8) : KeySeg :=
  ⟨.other id fun a b => compareLinear (a.headD 0).toInt8.toInt (b.headD 0).toInt8.toInt,
    simpleCharset id, start, 1, nullBit, 0, 0, false⟩

def tinyintKeys : List KeyDef :=
  [⟨[tinyintSeg 1 1], true, true, .hash (fun _ => ⟨none, 0⟩) 0⟩,
    ⟨[tinyintSeg 2 2], true, true, .rbTree ⟨⟨0, fun _ => ⟨0, 0, .black, ⟨0, ⟨[], 0⟩⟩⟩⟩, 0, false⟩⟩]

theorem tinyintKeys_sorted : ∀ key ∈ tinyintKeys, key.Sorted := by
  intro key hKey hRb
  rcases mem_cons.mp hKey with rfl | hKey
  · simp [KeyDef.isHash] at hRb
  · obtain rfl := mem_singleton.mp hKey
    intro seg hSeg
    obtain rfl := mem_singleton.mp hSeg
    exact signPreorder_compareLinear.comap fun a : List UInt8 => (a.headD 0).toInt8.toInt

instance (share : Share) (c : Call) : Decidable (Exact share c) := decidable_of_iff _ exact_iff_findIdx.symm

end MySQL.Heap
