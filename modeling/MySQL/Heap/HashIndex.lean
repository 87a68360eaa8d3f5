import MySQL.Heap.Share

/-! `hp_write_key` and `hp_delete_key` keep a hash index chained. The index is described
by a view: the record that each of its entries was made for. -/
namespace MySQL.Heap

open Library LinearHash Function Multiset

def viewHashnr (segs : List KeySeg) (view : Nat → Record) (pos : Nat) : Nat :=
  hpRecHashnr segs (view pos)

structure HashOk (segs : List KeySeg) (n b : Nat) (view : Nat → Record) (live : Finset Nat)
    (block : Nat → Slot Nat) (hashBuckets : Nat) : Prop where
  valid : ∃ chains, Valid (viewHashnr segs view) n b block chains
  contents_eq : contents (Finset.range n) block = live.val
  buckets_eq : hashBuckets = buckets (homeOf (viewHashnr segs view) n b) (Finset.range n) block

variable {segs : List KeySeg} {n b : Nat} {view : Nat → Record} {live : Finset Nat}
  {block : Nat → Slot Nat} {hashBuckets : Nat}

theorem HashOk.congr (h : HashOk segs n b view live block hashBuckets) (view' : Nat → Record)
    (hSame : ∀ pos ∈ live, viewHashnr segs view' pos = viewHashnr segs view pos) :
    HashOk segs n b view' live block hashBuckets := by
  obtain ⟨⟨chains, hValid⟩, hContents, hBuckets⟩ := h
  have hAgree : Agree (viewHashnr segs view') (viewHashnr segs view) n block := fun pos hPos =>
    hSame pos (by rwa [hContents] at hPos)
  refine ⟨⟨chains, hValid.congr hAgree⟩, hContents, hBuckets.trans ?_⟩
  rw [hValid.chained.buckets_eq_homes, (hValid.congr hAgree).chained.buckets_eq_homes]
  congr 2
  refine map_congr rfl fun pos hPos => ?_
  rw [homeOf, homeOf, hAgree pos hPos]

/-- The number of buckets depends on the rows alone. -/
theorem HashOk.buckets_unique {block' : Nat → Slot Nat} {hashBuckets' : Nat}
    (h : HashOk segs n b view live block hashBuckets)
    (h' : HashOk segs n b view live block' hashBuckets') : hashBuckets = hashBuckets' := by
  obtain ⟨⟨chains, hValid⟩, hContents, hBuckets⟩ := h
  obtain ⟨⟨chains', hValid'⟩, hContents', hBuckets'⟩ := h'
  rw [hBuckets, hBuckets', hValid.chained.buckets_eq_homes, hValid'.chained.buckets_eq_homes,
    hContents, hContents']

def KeyDef.withHash (key : KeyDef) (block : Nat → Slot Nat) (hashBuckets : Nat) : KeyDef :=
  { key with index := .hash block hashBuckets }

def KeyDef.checks (key : KeyDef) (record : Record) : Bool :=
  key.noSame && !(key.nullPartKey && hpIfNullInKey key.segs record)

section
variable {share : Share} {key : KeyDef} {recpos : Nat}

/-- The entry is added, and a duplicate is reported when a row of the same home has an
equal key. -/
theorem hpWriteKey_spec (h : HashOk key.segs share.records share.blength view live block hashBuckets)
    (hRows : ∀ pos ∈ live, (share.rows pos).record = view pos) (hNew : recpos ∉ live)
    (record : Record) :
    ∃ duplicate block' hashBuckets', hpWriteKey share key block hashBuckets record recpos =
        some (duplicate, key.withHash block' hashBuckets') ∧
      HashOk key.segs (share.records + 1) (grown (share.records + 1) share.blength)
        (update view recpos record) (insert recpos live) block' hashBuckets' ∧
      (duplicate = true ↔ key.checks record = true ∧ ∃ pos ∈ live,
        mask (hpRecHashnr key.segs (view pos)) (grown (share.records + 1) share.blength)
            (share.records + 1) =
          mask (hpRecHashnr key.segs record) share.blength (share.records + 1) ∧
        hpRecKeyCmp key.segs record (view pos) true = false) := by
  set view' := update view recpos record with hView'
  have hOther (pos : Nat) (hPos : pos ∈ live) : view' pos = view pos :=
    update_of_ne (fun hEq : pos = recpos => hNew (hEq ▸ hPos)) ..
  have hSelf : viewHashnr key.segs view' recpos = hpRecHashnr key.segs record := by
    rw [viewHashnr, hView', update_self]
  obtain ⟨⟨chains, hValid⟩, hContents, hBuckets⟩ :=
    h.congr view' fun pos hPos => by rw [viewHashnr, viewHashnr, hOther pos hPos]
  have hMem (pos : Nat) : pos ∈ contents (Finset.range share.records) block ↔ pos ∈ live := by
    rw [hContents, Finset.mem_val]
  have hAgree : Agree (share.hashnr key.segs) (viewHashnr key.segs view') share.records block := by
    intro pos hPos
    rw [hMem] at hPos
    rw [Share.hashnr, viewHashnr, hRows pos hPos, hOther pos hPos]
  obtain ⟨block', chains', empty, both, fresh, hInsert, hInserted⟩ :=
    insertRec_spec hValid hAgree recpos
  rw [hSelf] at hInsert
  have hOk : HashOk key.segs (share.records + 1) (grown (share.records + 1) share.blength) view'
      (insert recpos live) block' (hashBuckets + both.toNat + fresh.toNat) := by
    refine ⟨⟨chains', hInserted.valid⟩, ?_, ?_⟩
    · rw [hInserted.contents_eq, hContents, Finset.insert_val_of_notMem hNew]
    · rw [hBuckets, hInserted.buckets_eq]
  have hHome (pos : Nat) (hPos : pos ∈ live) :
      homeOf (viewHashnr key.segs view') (share.records + 1)
        (grown (share.records + 1) share.blength) pos =
      mask (hpRecHashnr key.segs (view pos)) (grown (share.records + 1) share.blength)
        (share.records + 1) := by
    rw [homeOf, viewHashnr, hOther pos hPos]
  have hStep : hpWriteKey share key block hashBuckets record recpos =
      if !fresh && key.checks record then
        (findSlot (fun pos => !hpRecKeyCmp key.segs record (share.rows pos).record true) block'
          (share.records + 1) none empty).map fun found =>
            (found.isSome, key.withHash block' (hashBuckets + both.toNat + fresh.toNat))
      else some (false, key.withHash block' (hashBuckets + both.toNat + fresh.toNat)) := by
    simp only [hpWriteKey, hInsert, KeyDef.checks, Bool.and_assoc]
    rfl
  rw [hStep]
  cases fresh with
  | true =>
    refine ⟨false, block', _, rfl, hOk, by simp, ?_⟩
    rintro ⟨-, pos, hPos, hSame, -⟩
    refine absurd ?_ (hInserted.home_ne ((hMem pos).mpr hPos))
    rw [hHome pos hPos, hSame, hSelf]
  | false =>
    cases hChecks : key.checks record with
    | false => exact ⟨false, block', _, rfl, hOk, by simp⟩
    | true =>
      obtain ⟨answer, hFind, hIff⟩ := hInserted.find_rest
        fun pos => !hpRecKeyCmp key.segs record (share.rows pos).record true
      refine ⟨answer.isSome, block', _, by rw [hFind]; rfl, hOk, ?_⟩
      rw [hIff]
      simp only [true_and, hSelf]
      constructor
      · rintro ⟨pos, hPos, hSame, hFound⟩
        rw [hMem] at hPos
        refine ⟨pos, hPos, by rw [← hHome pos hPos, hSame], ?_⟩
        simpa [hRows pos hPos] using hFound
      · rintro ⟨pos, hPos, hSame, hFound⟩
        refine ⟨pos, (hMem pos).mpr hPos, by rw [hHome pos hPos, hSame], ?_⟩
        simpa [hRows pos hPos] using hFound

/-- The entry of a row is taken out; the record in the row itself is not read. -/
theorem hpDeleteKey_spec
    (h : HashOk key.segs (share.records + 1) (grown (share.records + 1) share.blength) view live
      block hashBuckets)
    (hSized : Sized share.records share.blength)
    (hRows : ∀ pos ∈ live, pos ≠ recpos → (share.rows pos).record = view pos)
    (hLive : recpos ∈ live) :
    ∃ block' hashBuckets', hpDeleteKey share key block hashBuckets (view recpos) recpos =
        some (false, key.withHash block' hashBuckets') ∧
      HashOk key.segs share.records share.blength view (live.erase recpos) block' hashBuckets' := by
  obtain ⟨⟨chains, hValid⟩, hContents, hBuckets⟩ := h
  have hMem : recpos ∈ contents (Finset.range (share.records + 1)) block := by
    rw [hContents]
    exact hLive
  obtain ⟨j, hj, hData⟩ := mem_contents.mp hMem
  have hChainMem := hValid.chained.complete j hj
  rw [hData] at hChainMem
  have hFuel : (Finset.range (share.records + 1)).card ≤ share.records + 1 := by simp
  rcases hValid.chained.findSlot_chain (fun pos => pos = recpos) (List.ne_nil_of_mem hChainMem)
    hFuel with ⟨-, hAll⟩ | ⟨front, pos, back, hChain, hFound, hFind⟩
  · exact absurd (hAll j hChainMem) (by simp [hData])
  · have hPosData : (block pos).data = recpos := by simpa using hFound
    have hShrunk : shrunk share.records (grown (share.records + 1) share.blength) = share.blength :=
      hSized.shrunk_grown
    have hAgree (rest : Multiset Nat)
        (hRest : (block pos).data ::ₘ rest = contents (Finset.range (share.records + 1)) block)
        (q : Nat) (hq : q ∈ rest) : share.hashnr key.segs q = viewHashnr key.segs view q := by
      have hNodup := live.nodup
      rw [← hContents, ← hRest, hPosData, nodup_cons] at hNodup
      have hqLive : q ∈ live := by
        rw [← Finset.mem_val, ← hContents, ← hRest]
        exact mem_cons_of_mem hq
      rw [Share.hashnr, viewHashnr, hRows q hqLive fun hEq => hNodup.1 (hEq ▸ hq)]
    obtain ⟨block', chains', fewer, hRemove, hRemoved⟩ := removeRec_spec hValid hChain hAgree
    rw [hShrunk] at hRemove
    have hContents' := hRemoved.contents_eq
    have hValid' := hRemoved.valid
    have hBuckets' := hRemoved.buckets_eq
    rw [hShrunk] at hValid' hBuckets'
    refine ⟨block', hashBuckets - fewer, ?_, ⟨chains', hValid'⟩, ?_, ?_⟩
    · simp only [hpDeleteKey]
      rw [show mask (hpRecHashnr key.segs (view recpos)) (grown (share.records + 1) share.blength)
        (share.records + 1) = homeOf (viewHashnr key.segs view) _
          (grown _ share.blength) recpos from rfl, hFind]
      simp only [hRemove]
      rfl
    · rw [hPosData, hContents] at hContents'
      rw [Finset.erase_val, ← hContents', erase_cons_head]
    · omega

end

end MySQL.Heap
