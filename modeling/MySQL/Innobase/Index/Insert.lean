import MySQL.Innobase.Index.Heap

/-! `page_cur_insert_rec_low`: the new record takes a place on the heap, enters the list behind
the cursor and is counted by the owner of the group it falls into. -/
namespace MySQL.Innobase.Index

open Function List Library MySQL.Innobase.Index.Group

variable {β : Type} {fmt : Format β} {p p' p₁ : Page β} {live freed : List Nat} {cursor : Nat} {body : β}

theorem setLastInsert_eq (p : Page β) (cursor r : Nat) : ∃ direction nDirection,
    setLastInsert p cursor r = { p with direction, nDirection, lastInsert := r } := by
  unfold setLastInsert
  split_ifs <;> exact ⟨_, _, rfl⟩

/-- What writing and linking the new record leaves, up to the insert direction -/
theorem linkRec_eq (p : Page β) (cursor r heapNo : Nat) (body : β) : ∃ direction nDirection,
    linkRec p cursor r heapNo body = { p with
        next := update (update p.next r (p.next cursor)) cursor r
        nOwned := update p.nOwned r 0
        heapNo := update p.heapNo r heapNo
        body := update p.body r body
        nRecs := p.nRecs + 1
        lastInsert := r
        direction := direction
        nDirection := nDirection } := by
  obtain ⟨direction, nDirection, h⟩ := setLastInsert_eq _ cursor r
  exact ⟨direction, nDirection, h⟩

section Heap

variable {x no : Nat} {l : List Nat}

/-- The record `body` is written at `x` and numbered `no`, apart from the records `l`. -/
theorem Blocks.insert (h : Blocks fmt p l) (hBody : p'.body = update p.body x body)
    (hNo : p'.heapNo = update p.heapNo x no) (hComp : p'.comp = p.comp)
    (hTop : p.heapTop ≤ p'.heapTop) (hHeap : p.nHeap ≤ p'.nHeap)
    (hApart : ∀ r ∈ l, x + fmt.dataSize body + fmt.extraSize (p.body r) ≤ r ∨
      r + fmt.dataSize (p.body r) + fmt.extraSize body ≤ x)
    (hInside : supremumEnd p.comp + fmt.extraSize body ≤ x ∧ x + fmt.dataSize body ≤ p'.heapTop)
    (hDistinct : ∀ r ∈ l, no ≠ p.heapNo r) (hNumbered : 2 ≤ no ∧ no < p'.nHeap) :
    Blocks fmt p' (x :: l) := by
  have hNe : ∀ r ∈ l, r ≠ x := by
    rintro r hr rfl
    have := fmt.header body
    have := fmt.header (p.body r)
    rcases hApart r hr with h | h <;> omega
  have hBody' : ∀ r ∈ l, p'.body r = p.body r := fun r hr => by
    rw [hBody, update_of_ne (hNe r hr)]
  have hNo' : ∀ r ∈ l, p'.heapNo r = p.heapNo r := fun r hr => by
    rw [hNo, update_of_ne (hNe r hr)]
  have hBodyX : p'.body x = body := by rw [hBody, update_self]
  have hNoX : p'.heapNo x = no := by rw [hNo, update_self]
  refine (h.congr hComp hTop hHeap hBody' hNo').cons ?_ ?_ ?_ ?_
  · intro r hr
    rw [Apart, hBodyX, hBody' r hr]
    exact hApart r hr
  · rwa [hComp, hBodyX]
  · intro r hr
    rw [hNoX, hNo' r hr]
    exact hDistinct r hr
  · rwa [hNoX]

theorem Heap.free_eq_zero (h : Heap fmt p live []) : p.free = 0 := by
  have := h.first
  simpa using this.symm

theorem Heap.zero_notMem (h : Heap fmt p live freed) : 0 ∉ live ++ freed := by
  intro hMem
  have := h.blocks.above_supremum hMem
  omega

structure Linked (p p' : Page β) (cursor x no : Nat) (body : β) : Prop where
  comp : p'.comp = p.comp
  next : p'.next = update (update p.next x (p.next cursor)) cursor x
  heapNo : p'.heapNo = update p.heapNo x no
  body : p'.body = update p.body x body
  nRecs : p'.nRecs = p.nRecs + 1
  nOwned : p'.nOwned = update p.nOwned x 0
  slot : p'.slot = p.slot
  nDirSlots : p'.nDirSlots = p.nDirSlots

theorem linked_linkRec {need buf : Nat} (h : pageMemAlloc fmt p need = some (buf, no, p₁)) (cursor x : Nat)
    (body : β) : Linked p (linkRec p₁ cursor x no body) cursor x no body := by
  obtain ⟨direction, nDirection, hLink⟩ := linkRec_eq p₁ cursor x no body
  obtain ⟨heapTop, nHeap, free, garbage, rfl⟩ := pageMemAlloc_same h
  rw [hLink]
  exact ⟨rfl, rfl, rfl, rfl, rfl, rfl, rfl, rfl⟩

namespace Linked

variable (h : Linked p p' cursor x no body)
include h

theorem body_of_ne {r : Nat} (hr : r ≠ x) : p'.body r = p.body r := by
  rw [h.body, update_of_ne hr]

theorem body_self : p'.body x = body := by rw [h.body, update_self]

/-- The heap with the new record, once it has its block. The free list is not touched. -/
theorem heap (hBlocks : Blocks fmt p' (x :: (live ++ freed))) (hChained : Chained p.next (freed ++ [0]))
    (hCursor : cursor ∉ freed) (hFirst : (freed ++ [0]).head? = some p'.free)
    (hHeap : p'.nHeap = live.length + freed.length + 3) (hRecs : p.nRecs = live.length)
    (hTop : p'.heapTop = supremumEnd p.comp + (fmt.size body + sizesOf fmt p live) + p'.garbage)
    (hGarbage : sizesOf fmt p freed ≤ p'.garbage)
    (hRoom : p'.heapTop + pageDirCalcReservedSpace (p'.nHeap - 2) + pageDir + 2 * pageDirSlotSize ≤
      univPageSize) : Heap fmt p' (x :: live) freed := by
  have hNotMem := (nodup_cons.mp hBlocks.nodup).1
  rw [mem_append, not_or] at hNotMem
  have hSame {l : List Nat} (hx : x ∉ l) : sizesOf fmt p' l = sizesOf fmt p l :=
    sizesOf_congr fmt fun r hr => h.body_of_ne (ne_of_mem_of_not_mem hr hx)
  refine ⟨hBlocks, hChained.congr fun r hr => ?_, hFirst, ?_, ?_, ?_, ?_, hRoom⟩
  · rw [h.next, update_of_ne (ne_of_mem_of_not_mem hr hCursor),
      update_of_ne (ne_of_mem_of_not_mem hr hNotMem.2)]
  · rw [hHeap, length_cons]
    omega
  · rw [h.nRecs, hRecs, length_cons]
  · rw [hTop, h.comp, sizesOf_cons, h.body_self, hSame hNotMem.1]
  · rw [hSame hNotMem.2]
    exact hGarbage

end Linked

/-- The first freed record gives its place to a record that is not larger. -/
theorem Heap.insert_reuse {f : Nat} (h : Heap fmt p live (f :: freed)) (hCursor : cursor ∉ freed)
    (hNeed : fmt.size body ≤ fmt.size (p.body f))
    (hx : x + fmt.extraSize (p.body f) = f + fmt.extraSize body)
    (hLinked : Linked p p' cursor x (p.heapNo f) body) (hTop : p'.heapTop = p.heapTop)
    (hHeap : p'.nHeap = p.nHeap) (hFree : p'.free = p.next f)
    (hGarbage : p'.garbage = p.garbage - fmt.size body) : Heap fmt p' (x :: live) freed := by
  have hOld : Blocks fmt p (f :: (live ++ freed)) := h.blocks.perm perm_middle
  have hApart := (pairwise_cons.mp hOld.apart).1
  have hInside := hOld.inside f (by simp)
  have hDistinct := (nodup_cons.mp hOld.distinct).1
  simp only [Format.size] at hNeed
  have hBlocks : Blocks fmt p' (x :: (live ++ freed)) := by
    refine hOld.of_cons.insert hLinked.body hLinked.heapNo hLinked.comp hTop.ge hHeap.ge ?_ ?_ ?_ ?_
    · intro r hr
      rcases hApart r hr with h | h
      · left
        omega
      · right
        omega
    · omega
    · intro r hr hNo
      exact hDistinct (hNo ▸ mem_map_of_mem hr)
    · rw [hHeap]
      exact hOld.numbered f (by simp)
  have hSizes := h.garbage
  rw [sizesOf_cons, Format.size] at hSizes
  rw [Format.size] at hGarbage
  refine hLinked.heap hBlocks (IsChain.tail h.chained) hCursor ?_ ?_ h.nRecs ?_ (by omega) ?_
  · rw [hFree]
    exact Chained.head?_eq h.chained
  · rw [hHeap, h.nHeap, length_cons]
    omega
  · rw [hTop, h.heapTop, hGarbage, Format.size]
    omega
  · rw [hTop, hHeap]
    exact h.room

/-- The record is written above the top of the heap. -/
theorem Heap.insert_grow (h : Heap fmt p live freed) (hCursor : cursor ∉ freed)
    (hNeed : fmt.size body ≤ pageGetMaxInsertSize p 1) (hx : x = p.heapTop + fmt.extraSize body)
    (hLinked : Linked p p' cursor x p.nHeap body) (hTop : p'.heapTop = p.heapTop + fmt.size body)
    (hHeap : p'.nHeap = p.nHeap + 1) (hFree : p'.free = p.free) (hGarbage : p'.garbage = p.garbage) :
    Heap fmt p' (x :: live) freed := by
  have hHeader := fmt.header body
  have hSize : fmt.size body = fmt.extraSize body + fmt.dataSize body := rfl
  have hBlocks : Blocks fmt p' (x :: (live ++ freed)) := by
    refine h.blocks.insert hLinked.body hLinked.heapNo hLinked.comp (by omega) (by omega) ?_ ?_ ?_ ?_
    · intro r hr
      have := (h.blocks.inside r hr).2
      right
      omega
    · have := h.heapTop
      omega
    · intro r hr
      have := (h.blocks.numbered r hr).2
      omega
    · have := h.nHeap
      omega
  refine hLinked.heap hBlocks h.chained hCursor (hFree ▸ h.first) ?_ h.nRecs ?_
    (hGarbage ▸ h.garbage) ?_
  · rw [hHeap, h.nHeap]
  · rw [hTop, h.heapTop, hGarbage]
    omega
  · rw [hTop, hHeap]
    have hUsed := h.heapTop
    exact room_of_maxInsertSize (by omega) hNeed (by omega)

/-- The new record has its own block: the first part of a freed one, or new heap space. -/
theorem Heap.insert {buf : Nat} (h : Heap fmt p live freed)
    (hAlloc : pageMemAlloc fmt p (fmt.size body) = some (buf, no, p₁)) (hCursor : cursor ∉ freed)
    (hx : x = buf + fmt.extraSize body) :
    ∃ freed', Heap fmt (linkRec p₁ cursor x no body) (x :: live) freed' := by
  obtain ⟨direction, nDirection, hLink⟩ := linkRec_eq p₁ cursor x no body
  have hLinked := linked_linkRec hAlloc cursor x body
  rcases pageMemAlloc_cases hAlloc with ⟨hFree, hNeed, rfl, rfl, rfl⟩ | ⟨hNeed, rfl, rfl, rfl⟩
  · cases freed with
    | nil => exact absurd h.free_eq_zero hFree
    | cons f freed =>
      obtain rfl : f = p.free := by simpa using h.first
      have hInside := h.blocks.inside p.free (by simp)
      have hRest : cursor ∉ freed := fun hMem => hCursor (mem_cons_of_mem _ hMem)
      refine ⟨freed, h.insert_reuse hRest hNeed (by omega) hLinked ?_ ?_ ?_ ?_⟩ <;> rw [hLink]
  · refine ⟨freed, h.insert_grow hCursor hNeed hx hLinked ?_ ?_ ?_ ?_⟩ <;> rw [hLink]

end Heap

section Directory

variable {G₁ G₂ : List Group} {a b front : List Nat} {o x : Nat}

/-- The record at `x` enters the group of the record behind the cursor; its owner does not count
it yet. -/
theorem Directory.insert (h : Directory p (G₁ ++ [⟨a ++ b, o⟩] ++ G₂)) (hFront : recsOf G₁ ++ a = front ++ [cursor])
    (hx : x ∉ recsOf (G₁ ++ [⟨a ++ b, o⟩] ++ G₂))
    (hNext : p'.next = update (update p.next x (p.next cursor)) cursor x)
    (hOwned : p'.nOwned = update (update p.nOwned x 0) o (a.length + b.length + 2))
    (hSlot : p'.slot = p.slot) (hCount : p'.nDirSlots = p.nDirSlots) :
    Directory p' (G₁ ++ [⟨a ++ x :: b, o⟩] ++ G₂) := by
  obtain ⟨behind, back, hBack⟩ : ∃ behind back, b ++ [o] ++ recsOf G₂ = behind :: back := by
    cases b <;> simp
  have hRecs : recsOf (G₁ ++ [⟨a ++ b, o⟩] ++ G₂) = front ++ cursor :: behind :: back := by
    calc recsOf (G₁ ++ [⟨a ++ b, o⟩] ++ G₂) = (recsOf G₁ ++ a) ++ (b ++ [o] ++ recsOf G₂) := by
          simp [members]
      _ = front ++ cursor :: behind :: back := by simp [hFront, hBack]
  have hRecs' : recsOf (G₁ ++ [⟨a ++ x :: b, o⟩] ++ G₂) = front ++ cursor :: x :: behind :: back := by
    calc recsOf (G₁ ++ [⟨a ++ x :: b, o⟩] ++ G₂) = (recsOf G₁ ++ a) ++ x :: (b ++ [o] ++ recsOf G₂) := by
          simp [members]
      _ = front ++ cursor :: x :: behind :: back := by simp [hFront, hBack]
  have hChained := hRecs ▸ h.chained
  have hNodup := hRecs ▸ h.nodup
  have hNotMem := hRecs ▸ hx
  have hNew : (front ++ cursor :: x :: behind :: back).Nodup := by
    rw [append_cons, nodup_middle, ← append_cons]
    exact nodup_cons.mpr ⟨hNotMem, hNodup⟩
  have hOld := h.owned ⟨a ++ b, o⟩ (by simp)
  have hParts : (recsOf G₁ ++ (a ++ b ++ [o]) ++ recsOf G₂).Nodup := by
    simpa [members] using h.nodup
  have hApart : x ∉ recsOf G₁ ++ (a ++ b ++ [o]) ++ recsOf G₂ := by simpa [members] using hx
  refine h.replace ?_ (hRecs' ▸ hNew) ?_ ?_ ?_ ?_ ?_
  · rw [hRecs', hNext, hChained.next_eq]
    exact hChained.insert hNodup hNotMem
  · rw [hCount, h.nDirSlots]
    simp
  · rw [hSlot]
    simpa [SlotsAt.append, SlotsAt] using h.slots
  · intro r hr
    rw [hOwned, update_of_ne (by grind), update_of_ne (by grind)]
  · simp [hOwned, size]
    omega
  · intro g hg r hr
    obtain rfl := mem_singleton.mp hg
    rw [hOwned, update_of_ne (by grind)]
    rcases mem_cons.mp (perm_middle.mem_iff.mp hr) with rfl | hMem
    · rw [update_self]
    · rw [update_of_ne (by grind), hOld r hMem]

/-- The owner counts the new record, and its slot is split when it owns too many. -/
theorem ownRec_spec {comp : Bool} (h : Directory p (G₁ ++ [⟨a ++ b, o⟩] ++ G₂)) (hBelow : G₁ ≠ [])
    (hFront : recsOf G₁ ++ a = front ++ [cursor]) (hx : x ∉ recsOf (G₁ ++ [⟨a ++ b, o⟩] ++ G₂))
    (hSized : Sized comp ⟨a ++ b, o⟩) {no : Nat} (hLinked : Linked p p' cursor x no body) :
    ∃ p'' H, ownRec p' x = some p'' ∧ SameHeap p' p'' ∧ Directory p'' (G₁ ++ H ++ G₂) ∧
      recsOf H = a ++ x :: b ++ [o] ∧ ∀ g ∈ H, Sized comp g := by
  obtain ⟨G₁, g, rfl⟩ := (eq_nil_or_concat' G₁).resolve_left hBelow
  have hNe : o ≠ x := by
    rintro rfl
    simp [members] at hx
  have hSize : p.nOwned o = a.length + b.length + 1 := by simpa [size] using h.owners ⟨a ++ b, o⟩ (by simp)
  have hSize' : p'.nOwned o = a.length + b.length + 1 := by
    rw [hLinked.nOwned, update_of_ne hNe, hSize]
  simp only [Sized, size, length_append, pageDirSlotMaxNOwned, pageDirSlotMinNOwned] at hSized
  have hNew : Directory (p'.setNOwned o (a.length + b.length + 2)) (G₁ ++ [g] ++ [⟨a ++ x :: b, o⟩] ++ G₂) :=
    h.insert hFront hx hLinked.next (by simp [Page.setNOwned, hLinked.nOwned]) hLinked.slot hLinked.nDirSlots
  have hFind : pageRecFindOwnerRec p' x = some o := by
    have hRecs : recsOf (G₁ ++ [g] ++ [⟨a ++ x :: b, o⟩] ++ G₂) =
        recsOf G₁ ++ g.members ++ a ++ ((x :: b ++ [o]) ++ recsOf G₂) := by
      simp [members]
    have hChained : Chained p'.next (x :: b ++ [o]) := (hRecs ▸ hNew.chained).right.left
    refine findOwnerRecLoop_eq (hChained.walk rfl ?_) ?_ (by omega)
    · simp only [univPageSize, length_cons]
      omega
    · intro r hr
      rw [hLinked.nOwned]
      rcases mem_cons.mp hr with rfl | hMem
      · rw [update_self]
      · rw [update_of_ne]
        · exact h.owned ⟨a ++ b, o⟩ (by simp) r (mem_append_right a hMem)
        · rintro rfl
          simp [members, hMem] at hx
  rw [ownRec, hFind, Option.bind_some, hSize']
  by_cases hFull : a.length + b.length + 1 = pageDirSlotMaxNOwned
  · have hSlotNo : pageDirFindOwnerSlot (p'.setNOwned o (a.length + b.length + 2)) o =
        some (G₁.length + 1) := by
      have hGroups : Directory (p'.setNOwned o (a.length + b.length + 2))
          ((G₁ ++ [g]) ++ ⟨(a ++ x :: b) ++ [], o⟩ :: G₂) := by simpa using hNew
      simpa using hGroups.findOwnerSlot rfl (by decide)
    obtain ⟨f₁, m, f₂, hHalves, hLower⟩ : ∃ f₁ m f₂, a ++ x :: b = f₁ ++ m :: f₂ ∧ f₁.length = 3 := by
      rw [pageDirSlotMaxNOwned] at hFull
      have hLong : 3 < (a ++ x :: b).length := by simp; omega
      exact ⟨(a ++ x :: b).take 3, (a ++ x :: b)[3], (a ++ x :: b).drop 4, by simp, by simp; omega⟩
    have hUpper : f₂.length = 4 := by
      have := congrArg length hHalves
      simp [pageDirSlotMaxNOwned] at this hFull
      omega
    rw [hHalves] at hNew
    refine ⟨_, [⟨f₁, m⟩, ⟨f₂, o⟩], ?_, (SameHeap.setNOwned ..).trans (SameHeap.pageDirSplitSlot ..),
      hNew.split (by omega), by simp [members, hHalves], ?_⟩
    · rw [if_pos hFull, hSlotNo, Option.map_some]
    · simp [Sized, size, pageDirSlotMaxNOwned, pageDirSlotMinNOwned, hLower, hUpper]
  · refine ⟨_, [⟨a ++ x :: b, o⟩], if_neg hFull, SameHeap.setNOwned .., hNew, by simp [members], ?_⟩
    rw [pageDirSlotMaxNOwned] at hFull
    simp only [forall_mem_singleton, Sized, size, length_append, length_cons,
      pageDirSlotMaxNOwned, pageDirSlotMinNOwned]
    omega

end Directory

/-- `page_cur_insert_rec_low` returns; it leaves the page alone or puts the new record behind
the cursor. -/
theorem Shape.insert {groups : List Group} {u v s : List Nat} (h : Shape fmt p groups (u ++ v) freed)
    (hCursor : infimum p.comp :: u = s ++ [cursor]) (body : β) :
    (pageCurInsertRecLow fmt p cursor body = some (none, p) ∧ pageGetMaxInsertSize p 1 < fmt.size body) ∨
      ∃ x p' groups' freed', pageCurInsertRecLow fmt p cursor body = some (some x, p') ∧
        p'.body = update p.body x body ∧ Shape fmt p' groups' (u ++ x :: v) freed' := by
  rw [pageCurInsertRecLow]
  cases hAlloc : pageMemAlloc fmt p _ with
  | none =>
    rw [pageMemAlloc] at hAlloc
    split_ifs at hAlloc with _ hRoom
    exact .inl ⟨rfl, not_le.mp hRoom⟩
  | some found =>
    obtain ⟨buf, no, p₁⟩ := found
    right
    have hOutside : cursor ∉ freed := by
      refine h.notMem_freed ?_
      rw [← cons_append, hCursor]
      simp
    obtain ⟨freed', hHeap⟩ := h.heap.insert hAlloc hOutside rfl
    have hLinked := linked_linkRec hAlloc cursor (buf + fmt.extraSize body) body
    dsimp only
    generalize buf + fmt.extraSize body = x at hHeap hLinked ⊢
    generalize linkRec p₁ cursor x no body = p₂ at hHeap hLinked ⊢
    have hx : supremumEnd p.comp < x := hLinked.comp ▸ hHeap.blocks.above_supremum (by simp)
    have hNew : x ∉ u ++ v := by
      have := (nodup_cons.mp hHeap.blocks.nodup).1
      exact fun hMem => this (mem_append_left freed' hMem)
    have hNotMem : x ∉ recsOf (⟨[], infimum p.comp⟩ :: groups) := fun hMem =>
      hNew ((h.mem_recsOf_iff hx).mp hMem)
    obtain ⟨K, a, b, o, G₂, rfl, rfl, hv⟩ := h.locate rfl
    have hDirectory : Directory p (⟨[], infimum p.comp⟩ :: K ++ [⟨a ++ b, o⟩] ++ G₂) := h.directory
    obtain ⟨p', H, hOwn, hSameHeap, hDirectory, hRecs, hSized⟩ :=
      ownRec_spec hDirectory (by simp) (by simpa [members] using hCursor) hNotMem
        (h.sized ⟨a ++ b, o⟩ (by simp)) hLinked
    have hComp : p'.comp = p.comp := hSameHeap.comp.trans hLinked.comp
    have hNo : p'.heapNo = update p.heapNo x no := hSameHeap.heapNo.trans hLinked.heapNo
    refine ⟨x, p', K ++ H ++ G₂, freed', by rw [hOwn, Option.map_some], ?_, ?_⟩
    · exact hSameHeap.body.trans hLinked.body
    · constructor
      · rw [hComp]
        exact hDirectory
      · have : x :: (b ++ [o] ++ recsOf G₂) = x :: v ++ [supremum p.comp] := by rw [← hv, cons_append]
        rw [hComp]
        simpa [hRecs] using this
      · have hOld := h.sized
        rw [hComp]
        simp only [forall_mem_append] at hOld ⊢
        exact ⟨⟨hOld.1.1, hSized⟩, hOld.2⟩
      · exact (hHeap.congr hSameHeap).perm perm_middle.symm
      · rw [hComp, hNo, update_of_ne, h.infimumNo]
        have := Shape.infimum_lt p.comp
        omega
      · rw [hComp, hNo, update_of_ne, h.supremumNo]
        have := Shape.supremum_lt p.comp
        omega

end MySQL.Innobase.Index
