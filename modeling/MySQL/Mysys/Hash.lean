import MySQL.Library.LinearHash.Table

/-! The hash table of mysys/hash.c. A record is a pointer `ρ`; `recHashnr` is the hash
number of the key that the record has now. Counters are unbounded. -/
namespace MySQL.Hashes

open Finset Function Library LinearHash

variable {ρ : Type}

/-- `HASH`, with its array of `HASH_LINK`; `none` is `NO_RECORD`. -/
structure Hash (ρ : Type) where
  records : Nat
  blength : Nat
  array : Nat → Slot ρ
  currentRecord : Option Nat

def hashInit (array : Nat → Slot ρ) : Hash ρ := ⟨0, 1, array, none⟩

def myHashReset (hash : Hash ρ) : Hash ρ :=
  { hash with records := 0, blength := 1, currentRecord := none }

def recMask (hash : Hash ρ) (recHashnr : ρ → Nat) (r : ρ) : Nat :=
  mask (recHashnr r) hash.blength hash.records

/-- The answer `true` reports an error. `memory` tells whether `alloc_dynamic` has a
slot to give. -/
def myHashInsert (recHashnr : ρ → Nat) (hash : Hash ρ) (memory : Bool) (record : ρ) :
    Option (Bool × Hash ρ) :=
  if memory then
    (insertRec recHashnr hash.array hash.records hash.blength record (recHashnr record)).map
      fun (array, _) =>
        (false, ⟨hash.records + 1, grown (hash.records + 1) hash.blength, array, none⟩)
  else some (true, hash)

def hashDelete [DecidableEq ρ] (recHashnr : ρ → Nat) (hash : Hash ρ) (record : ρ) :
    Option (Bool × Hash ρ) :=
  match hash.records with
  | 0 => some (true, hash)
  | records + 1 =>
    match findSlot (fun r => r = record) hash.array hash.records none
      (recMask hash recHashnr record) with
    | none => none
    | some none => some (true, hash)
    | some (some (prev, pos)) =>
      let blength := shrunk records hash.blength
      (removeRec recHashnr hash.array records hash.blength blength prev pos).map
        fun (array, _) => (false, ⟨records, blength, array, none⟩)

/-- Put `record` into the chain of `newIndex`, with `empty` as the free slot. -/
def relink (home : ρ → Nat) (array : Nat → Slot ρ) (fuel empty newIndex : Nat) (record : ρ) :
    Option (Nat → Slot ρ) :=
  let newPosIndex := home (array newIndex).data
  if newIndex ≠ newPosIndex then
    (moveLink (Function.update array empty (array newIndex)) (some newIndex) (some empty) fuel
      newPosIndex).map fun array => Function.update array newIndex ⟨none, record⟩
  else
    some (setNext (Function.update array empty ⟨(array newIndex).next, record⟩) newIndex
      (some empty))

/-- `oldHashnr` is the hash number of the old key, while the record has its new key. An
index past the records has no slot to read. -/
def hashUpdate [DecidableEq ρ] (recHashnr : ρ → Nat) (hash : Hash ρ) (record : ρ)
    (oldHashnr : Nat) : Option (Bool × Hash ρ) :=
  let idx := mask oldHashnr hash.blength hash.records
  let newIndex := recMask hash recHashnr record
  if idx = newIndex then some (false, hash)
  else if hash.records ≤ idx then none
  else
    match findSlot (fun r => r = record) hash.array hash.records none idx with
    | none => none
    | some none => some (true, hash)
    | some (some (prev, pos)) =>
      let (array, empty, _) := unlink hash.array prev pos
      (relink (recMask hash recHashnr) array hash.records empty newIndex record).map
        fun array => (false, { hash with array, currentRecord := none })

def freedSlot [DecidableEq ρ] (hash : Hash ρ) (record : ρ) (idx : Nat) : Option Nat :=
  match findSlot (fun r => r = record) hash.array hash.records none idx with
  | some (some (prev, pos)) => some (unlink hash.array prev pos).2.1
  | _ => none

/-- What `hash_check` tests, and that the table holds the records `stored`. -/
structure Consistent (recHashnr : ρ → Nat) (hash : Hash ρ) (stored : Multiset ρ) : Prop where
  sized : Sized hash.records hash.blength
  inRange : ∀ i < hash.records, ∀ j, (hash.array i).next = some j → j < hash.records
  chained : ∃ chains, Chained (recMask hash recHashnr) (Finset.range hash.records) hash.array chains
  stored_eq : contents (Finset.range hash.records) hash.array = stored

variable {recHashnr : ρ → Nat} {hash : Hash ρ} {stored : Multiset ρ}

/-- The links of a chained table stay in its range. -/
theorem consistent_of_valid {chains : Nat → List Nat}
    (h : Valid recHashnr hash.records hash.blength hash.array chains)
    (hStored : contents (Finset.range hash.records) hash.array = stored) :
    Consistent recHashnr hash stored := by
  refine ⟨h.sized, fun i hi j hNext => ?_, ⟨chains, h.chained⟩, hStored⟩
  exact mem_range.mp (h.chained.next_mem (mem_range.mpr hi) hNext)

theorem Consistent.exists_valid (h : Consistent recHashnr hash stored) :
    ∃ chains, Valid recHashnr hash.records hash.blength hash.array chains :=
  h.chained.imp fun _ hChained => ⟨h.sized, hChained⟩

/-- The key of one record changed. -/
theorem Consistent.congr {recHashnr' : ρ → Nat} (h : Consistent recHashnr hash stored)
    (hSame : ∀ r ∈ stored, recMask hash recHashnr' r = recMask hash recHashnr r) :
    Consistent recHashnr' hash stored := by
  obtain ⟨chains, hChained⟩ := h.chained
  refine ⟨h.sized, h.inRange, ⟨chains, hChained.congr (fun _ _ => rfl) fun j hj => ?_⟩, h.stored_eq⟩
  exact hSame _ (h.stored_eq ▸ mem_contents.mpr ⟨j, hj, rfl⟩)

theorem consistent_empty (recHashnr : ρ → Nat) (array : Nat → Slot ρ) (currentRecord : Option Nat) :
    Consistent recHashnr ⟨0, 1, array, currentRecord⟩ 0 :=
  consistent_of_valid (Valid.empty recHashnr array) rfl

theorem myHashInsert_spec (h : Consistent recHashnr hash stored) (record : ρ) :
    ∃ hash', myHashInsert recHashnr hash true record = some (false, hash') ∧
      Consistent recHashnr hash' (record ::ₘ stored) := by
  obtain ⟨chains, hValid⟩ := h.exists_valid
  obtain ⟨array, chains', empty, both, fresh, hInsert, hInserted⟩ :=
    insertRec_spec hValid (fun _ _ => rfl) record
  refine ⟨_, by rw [myHashInsert, if_pos rfl, hInsert]; rfl, consistent_of_valid hInserted.valid ?_⟩
  rw [hInserted.contents_eq, h.stored_eq]

variable [DecidableEq ρ]

/-- The search for a record from its home. -/
theorem findSlot_record {n b : Nat} {array : Nat → Slot ρ} {chains : Nat → List Nat}
    (h : Valid recHashnr n b array chains) (hn : 0 < n) (record : ρ) :
    (record ∉ contents (Finset.range n) array ∧
      findSlot (fun r => r = record) array n none (mask (recHashnr record) b n) = some none) ∨
    ∃ front pos back, chains (mask (recHashnr record) b n) = front ++ pos :: back ∧
      (array pos).data = record ∧
      findSlot (fun r => r = record) array n none (mask (recHashnr record) b n) =
        some (some (front.getLast?, pos)) := by
  have hFuel : (range n).card ≤ n := by simp
  by_cases hStored : record ∈ contents (range n) array
  · obtain ⟨j, hj, hData⟩ := mem_contents.mp hStored
    have hMem := h.chained.complete j hj
    rw [hData] at hMem
    rcases h.chained.findSlot_chain (fun r => r = record) (List.ne_nil_of_mem hMem) hFuel with
      ⟨-, hAll⟩ | ⟨front, pos, back, hChain, hFound, hEq⟩
    · exact absurd (hAll j hMem) (by simp [hData])
    · exact .inr ⟨front, pos, back, hChain, by simpa using hFound, hEq⟩
  · refine .inl ⟨hStored, h.chained.findSlot_absent ?_ hFuel fun r hr => ?_⟩
    · exact mem_range.mpr (h.sized.mask_lt _ hn)
    · simpa using fun hEq : r = record => hStored (hEq ▸ hr)

theorem hashDelete_spec (h : Consistent recHashnr hash stored) (record : ρ) :
    (record ∉ stored ∧ hashDelete recHashnr hash record = some (true, hash)) ∨
    (record ∈ stored ∧ ∃ hash', hashDelete recHashnr hash record = some (false, hash') ∧
      Consistent recHashnr hash' (stored.erase record)) := by
  obtain ⟨chains, hValid⟩ := h.exists_valid
  obtain ⟨records, blength, array, currentRecord⟩ := hash
  cases records with
  | zero =>
    refine .inl ⟨?_, rfl⟩
    rw [← h.stored_eq]
    simp [contents]
  | succ records =>
    simp only [hashDelete, recMask]
    rcases findSlot_record hValid (Nat.succ_pos records) record with
      ⟨hAbsent, hFind⟩ | ⟨front, pos, back, hChain, hData, hFind⟩
    · rw [h.stored_eq] at hAbsent
      exact .inl ⟨hAbsent, by rw [hFind]⟩
    · obtain ⟨array', chains', fewer, hRemove, hRemoved⟩ :=
        removeRec_spec hValid hChain fun _ _ _ _ => rfl
      have hContents := hRemoved.contents_eq
      rw [hData] at hContents
      have hStored := h.stored_eq
      simp only at hStored
      rw [hStored] at hContents
      refine .inr ⟨hContents ▸ Multiset.mem_cons_self .., _, by rw [hFind]; simp only [hRemove]; rfl,
        consistent_of_valid hRemoved.valid ?_⟩
      rw [← hContents, Multiset.erase_cons_head]

omit [DecidableEq ρ] in
theorem relink_spec {home look : ρ → Nat} {live : Finset Nat} {array : Nat → Slot ρ}
    {chains : Nat → List Nat} {fuel e idx : Nat} {record : ρ} (h : Chained home live array chains)
    (hLook : ∀ j ∈ live, look (array j).data = home (array j).data) (he : e ∉ live)
    (hIdx : idx ∈ live) (hHome : home record = idx) (hFuel : live.card ≤ fuel) :
    ∃ array' chains', relink look array fuel e idx record = some array' ∧
      Chained home (insert e live) array' chains' ∧
      contents (insert e live) array' = record ::ₘ contents live array := by
  have hNe : idx ≠ e := fun hEq => he (hEq ▸ hIdx)
  simp only [relink, hLook idx hIdx]
  by_cases hOwn : idx = home (array idx).data
  · rw [if_neg (by simpa using hOwn)]
    set array' := setNext _ idx (some e) with hArray'
    have hFirst : array' idx = ⟨some e, (array idx).data⟩ := by
      rw [hArray', setNext, update_self, update_of_ne hNe]
    have hSecond : array' e = ⟨(array idx).next, record⟩ := by
      rw [hArray', setNext_of_ne hNe.symm, update_self]
    have hOther (j : Nat) (hj : j ∈ live) (hji : j ≠ idx) : array' j = array j := by
      rw [hArray', setNext_of_ne hji, update_of_ne fun hEq : j = e => he (hEq ▸ hj)]
    obtain ⟨rest, -, hPushed⟩ := h.push hIdx hOwn.symm hOwn.symm hHome hFirst hSecond hOther
    refine ⟨array', _, rfl, hPushed, ?_⟩
    rw [contents_insert he, hSecond]
    congr 1
    refine contents_congr fun j hj => ?_
    by_cases hji : j = idx
    · rw [hji, hFirst]
    · rw [hOther j hj hji]
  · rw [if_pos hOwn]
    obtain ⟨array₁, chains₁, hMove, hMoved⟩ := h.relocate_copy he hIdx (Ne.symm hOwn) hFuel
    have hFree : idx ∉ insert e (live.erase idx) := by simp [hNe]
    have hSame (j : Nat) (hj : j ∈ insert e (live.erase idx)) :
        update array₁ idx ⟨none, record⟩ j = array₁ j :=
      update_of_ne (fun hEq : j = idx => hFree (hEq ▸ hj)) ..
    have hFilled := (hMoved.chained.congr hSame fun _ _ => rfl).fill hFree hHome (update_self ..)
    have hLive : insert idx (insert e (live.erase idx)) = insert e live := by
      rw [insert_comm, insert_erase hIdx]
    refine ⟨_, _, by rw [hMove]; rfl, hLive ▸ hFilled, ?_⟩
    rw [← hLive, contents_insert hFree, update_self,
      contents_congr fun j hj => by rw [hSame j hj], hMoved.contents_eq]

/-- `hash_update` is right when the record's link is not in the slot, or first copied from
the slot, that is the home of the new key. -/
theorem hashUpdate_spec {recHashnr' : ρ → Nat} {record : ρ} (h : Consistent recHashnr hash stored)
    (hOther : ∀ r, r ≠ record → recHashnr' r = recHashnr r)
    (hOk : recMask hash recHashnr record = recMask hash recHashnr' record ∨
      0 < hash.records ∧ stored.count record ≤ 1 ∧
        freedSlot hash record (recMask hash recHashnr record) ≠
          some (recMask hash recHashnr' record)) :
    ∃ error hash', hashUpdate recHashnr' hash record (recHashnr record) = some (error, hash') ∧
      Consistent recHashnr' hash' stored := by
  by_cases hIdx : recMask hash recHashnr record = recMask hash recHashnr' record
  · refine ⟨false, hash, if_pos hIdx, h.congr fun r _ => ?_⟩
    by_cases hr : r = record
    · rw [hr, hIdx]
    · rw [recMask, recMask, hOther r hr]
  · obtain ⟨hPos, hOnce, hFreed⟩ := hOk.resolve_left hIdx
    obtain ⟨chains, hValid⟩ := h.exists_valid
    have hRead : ¬hash.records ≤ recMask hash recHashnr record :=
      not_le.mpr (h.sized.mask_lt _ hPos)
    rcases findSlot_record hValid hPos record with
      ⟨hAbsent, hFind⟩ | ⟨front, pos, back, hChain, hData, hFind⟩
    · rw [h.stored_eq] at hAbsent
      refine ⟨true, hash, (if_neg hIdx).trans ((if_neg hRead).trans (by rw [hFind])), h.congr fun r hr => ?_⟩
      rw [recMask, recMask, hOther r fun hEq => hAbsent (hEq ▸ hr)]
    · have hFreedSlot : freedSlot hash record (recMask hash recHashnr record) =
          some (unlink hash.array front.getLast? pos).2.1 := by
        rw [freedSlot, recMask, hFind]
      have hRelink : hashUpdate recHashnr' hash record (recHashnr record) =
          (relink (recMask hash recHashnr') (unlink hash.array front.getLast? pos).1 hash.records
            (unlink hash.array front.getLast? pos).2.1 (recMask hash recHashnr' record) record).map
            fun array => (false, { hash with array, currentRecord := none }) :=
        (if_neg hIdx).trans ((if_neg hRead).trans (by rw [hFind]))
      obtain ⟨chains₁, hUnlinked⟩ := unlink_spec hValid.chained hChain
      rw [hFreedSlot] at hFreed
      generalize unlink hash.array front.getLast? pos = unlinked at hUnlinked hFreed hRelink
      obtain ⟨array₁, hole, gone⟩ := unlinked
      simp only at hUnlinked hFreed hRelink
      obtain ⟨hHole, hChained₁, hContents₁, -⟩ := hUnlinked
      rw [hData, h.stored_eq] at hContents₁
      have hGone : record ∉ contents ((Finset.range hash.records).erase hole) array₁ := by
        rw [← hContents₁, Multiset.count_cons_self] at hOnce
        exact Multiset.count_eq_zero.mp (by omega)
      -- the other records keep their keys
      have hMoved : Chained (recMask hash recHashnr') ((Finset.range hash.records).erase hole) array₁
          chains₁ := by
        refine hChained₁.congr (fun _ _ => rfl) fun j hj => ?_
        rw [recMask, homeOf, hOther]
        exact fun hEq => hGone (hEq ▸ mem_contents.mpr ⟨j, hj, rfl⟩)
      have hNew : recMask hash recHashnr' record ∈ (Finset.range hash.records).erase hole :=
        mem_erase.mpr ⟨fun hEq => hFreed (by rw [hEq]), mem_range.mpr (h.sized.mask_lt _ hPos)⟩
      have hFuel : ((Finset.range hash.records).erase hole).card ≤ hash.records := by
        rw [card_erase_of_mem hHole, card_range]
        omega
      obtain ⟨array', chains', hEq, hChained, hContents⟩ :=
        relink_spec hMoved (fun _ _ => rfl) (notMem_erase hole _) hNew rfl hFuel
      rw [insert_erase hHole] at hChained hContents
      have hValid' : Valid recHashnr' hash.records hash.blength array' chains' :=
        ⟨h.sized, hChained⟩
      refine ⟨false, { hash with array := array', currentRecord := none },
        by rw [hRelink, hEq]; rfl, consistent_of_valid hValid' ?_⟩
      rw [hContents, hContents₁]

end MySQL.Hashes
