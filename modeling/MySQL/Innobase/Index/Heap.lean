import MySQL.Innobase.Index.Slots

/-! The record heap: the blocks of live and of freed records do not overlap, their heap numbers
differ, and the header accounts for their sizes. -/
namespace MySQL.Innobase.Index

open List Library

variable {β : Type} {fmt : Format β} {p p' : Page β}

def Apart (fmt : Format β) (body : Nat → β) (a b : Nat) : Prop :=
  a + fmt.dataSize (body a) + fmt.extraSize (body b) ≤ b ∨
    b + fmt.dataSize (body b) + fmt.extraSize (body a) ≤ a

theorem Apart.symm {body : Nat → β} {a b : Nat} (h : Apart fmt body a b) : Apart fmt body b a := Or.symm h

theorem Apart.ne {body : Nat → β} {a b : Nat} (h : Apart fmt body a b) : a ≠ b := by
  rintro rfl
  have := fmt.header (body a)
  rcases h with h | h <;> omega

structure Blocks (fmt : Format β) (p : Page β) (l : List Nat) : Prop where
  apart : l.Pairwise (Apart fmt p.body)
  inside : ∀ r ∈ l, supremumEnd p.comp + fmt.extraSize (p.body r) ≤ r ∧
    r + fmt.dataSize (p.body r) ≤ p.heapTop
  distinct : (l.map p.heapNo).Nodup
  numbered : ∀ r ∈ l, 2 ≤ p.heapNo r ∧ p.heapNo r < p.nHeap

namespace Blocks

variable {l l' : List Nat} {x : Nat}

section
variable (h : Blocks fmt p l)
include h

theorem nodup : l.Nodup := h.apart.imp fun hab => hab.ne

theorem perm (hPerm : l.Perm l') : Blocks fmt p l' where
  apart := hPerm.pairwise h.apart fun hab => hab.symm
  inside r hr := h.inside r (hPerm.mem_iff.mpr hr)
  distinct := (hPerm.map _).nodup_iff.mp h.distinct
  numbered r hr := h.numbered r (hPerm.mem_iff.mpr hr)

/-- Only what the page keeps about the records of the list matters. -/
theorem congr (hComp : p'.comp = p.comp) (hTop : p.heapTop ≤ p'.heapTop)
    (hHeap : p.nHeap ≤ p'.nHeap) (hBody : ∀ r ∈ l, p'.body r = p.body r)
    (hNo : ∀ r ∈ l, p'.heapNo r = p.heapNo r) : Blocks fmt p' l where
  apart := by
    refine Pairwise.imp_of_mem ?_ h.apart
    intro a b ha hb hab
    rwa [Apart, hBody a ha, hBody b hb]
  inside r hr := by
    rw [hComp, hBody r hr]
    exact ⟨(h.inside r hr).1, (h.inside r hr).2.trans hTop⟩
  distinct := by
    rw [map_congr_left hNo]
    exact h.distinct
  numbered r hr := by
    rw [hNo r hr]
    exact ⟨(h.numbered r hr).1, (h.numbered r hr).2.trans_le hHeap⟩

theorem cons (hApart : ∀ r ∈ l, Apart fmt p.body x r)
    (hInside : supremumEnd p.comp + fmt.extraSize (p.body x) ≤ x ∧
      x + fmt.dataSize (p.body x) ≤ p.heapTop)
    (hDistinct : ∀ r ∈ l, p.heapNo x ≠ p.heapNo r)
    (hNumbered : 2 ≤ p.heapNo x ∧ p.heapNo x < p.nHeap) : Blocks fmt p (x :: l) where
  apart := pairwise_cons.mpr ⟨hApart, h.apart⟩
  inside := forall_mem_cons.mpr ⟨hInside, h.inside⟩
  distinct := by
    refine nodup_cons.mpr ⟨?_, h.distinct⟩
    rintro hMem
    obtain ⟨r, hr, hNo⟩ := mem_map.mp hMem
    exact hDistinct r hr hNo.symm
  numbered := forall_mem_cons.mpr ⟨hNumbered, h.numbered⟩

end

theorem of_cons (h : Blocks fmt p (x :: l)) : Blocks fmt p l where
  apart := (pairwise_cons.mp h.apart).2
  inside r hr := h.inside r (mem_cons_of_mem x hr)
  distinct := (nodup_cons.mp h.distinct).2
  numbered r hr := h.numbered r (mem_cons_of_mem x hr)

theorem above_supremum (h : Blocks fmt p l) (hx : x ∈ l) : supremumEnd p.comp < x := by
  have := (h.inside x hx).1
  have := fmt.header (p.body x)
  omega

end Blocks

def sizesOf (fmt : Format β) (p : Page β) (l : List Nat) : Nat := (l.map (fmt.size ∘ p.body)).sum

structure Heap (fmt : Format β) (p : Page β) (live freed : List Nat) : Prop where
  blocks : Blocks fmt p (live ++ freed)
  chained : Chained p.next (freed ++ [0])
  first : (freed ++ [0]).head? = some p.free
  nHeap : p.nHeap = live.length + freed.length + 2
  nRecs : p.nRecs = live.length
  heapTop : p.heapTop = supremumEnd p.comp + sizesOf fmt p live + p.garbage
  garbage : sizesOf fmt p freed ≤ p.garbage
  room : p.heapTop + pageDirCalcReservedSpace (p.nHeap - 2) + pageDir + 2 * pageDirSlotSize ≤ univPageSize

@[simp] theorem sizesOf_cons (fmt : Format β) (p : Page β) (r : Nat) (l : List Nat) :
    sizesOf fmt p (r :: l) = fmt.size (p.body r) + sizesOf fmt p l := rfl

@[simp] theorem sizesOf_append (fmt : Format β) (p : Page β) (l l' : List Nat) :
    sizesOf fmt p (l ++ l') = sizesOf fmt p l + sizesOf fmt p l' := by
  simp [sizesOf]

theorem sizesOf_congr (fmt : Format β) {l : List Nat} (h : ∀ r ∈ l, p'.body r = p.body r) :
    sizesOf fmt p' l = sizesOf fmt p l := by
  have hMap : l.map (fmt.size ∘ p'.body) = l.map (fmt.size ∘ p.body) :=
    map_congr_left fun r hr => congrArg fmt.size (h r hr)
  rw [sizesOf, hMap, sizesOf]

theorem sizesOf_perm {l l' : List Nat} (h : l.Perm l') : sizesOf fmt p l = sizesOf fmt p l' :=
  (h.map _).sum_eq

section
variable {need buf no : Nat} {p₁ : Page β} (h : pageMemAlloc fmt p need = some (buf, no, p₁))
include h

/-- What `page_mem_alloc` leaves alone -/
theorem pageMemAlloc_same :
    ∃ heapTop nHeap free garbage, p₁ = { p with heapTop, nHeap, free, garbage } := by
  unfold pageMemAlloc at h
  split_ifs at h <;> cases h <;> exact ⟨_, _, _, _, rfl⟩

/-- How `page_mem_alloc` finds room: the first free record, or the heap above its top. -/
theorem pageMemAlloc_cases :
    (p.free ≠ 0 ∧ need ≤ fmt.size (p.body p.free) ∧ buf = p.free - fmt.extraSize (p.body p.free) ∧
        no = p.heapNo p.free ∧ p₁ = { p with free := p.next p.free, garbage := p.garbage - need }) ∨
      (need ≤ pageGetMaxInsertSize p 1 ∧ buf = p.heapTop ∧ no = p.nHeap ∧
        p₁ = { p with heapTop := p.heapTop + need, nHeap := p.nHeap + 1 }) := by
  unfold pageMemAlloc at h
  split at h
  next hFree =>
    cases h
    exact .inl ⟨hFree.1, hFree.2, rfl, rfl, rfl⟩
  next =>
    split at h
    next hRoom =>
      cases h
      exact .inr ⟨hRoom, rfl, rfl, rfl⟩
    next => cases h

end

theorem room_of_maxInsertSize {need : Nat} (hNeed : 0 < need) (h : need ≤ pageGetMaxInsertSize p 1)
    (hTop : supremumEnd p.comp ≤ p.heapTop) :
    p.heapTop + need + pageDirCalcReservedSpace (p.nHeap + 1 - 2) + pageDir + 2 * pageDirSlotSize ≤
      univPageSize := by
  rw [pageGetMaxInsertSize, add_comm 1 p.nHeap] at h
  generalize pageDirCalcReservedSpace _ = reserved at h ⊢
  split_ifs at h
  · omega
  · simp only [pageGetFreeSpaceOfEmpty, univPageSize, pageDir, pageDirSlotSize] at *
    omega

/-- How many records a slot may own: the supremum's may own fewer than the others. -/
def Sized (comp : Bool) (g : Group) : Prop :=
  g.size ≤ pageDirSlotMaxNOwned ∧ (g.owner ≠ supremum comp → pageDirSlotMinNOwned ≤ g.size)

/-- A page whose list is `live`, cut into the `groups` above the infimum, and whose free list is
`freed` -/
structure Shape (fmt : Format β) (p : Page β) (groups : List Group) (live freed : List Nat) : Prop where
  directory : Directory p (⟨[], infimum p.comp⟩ :: groups)
  recs : recsOf groups = live ++ [supremum p.comp]
  sized : ∀ g ∈ groups, Sized p.comp g
  heap : Heap fmt p live freed
  infimumNo : p.heapNo (infimum p.comp) = 0
  supremumNo : p.heapNo (supremum p.comp) = 1

namespace Shape

variable {groups : List Group} {live freed u v : List Nat}

/-- Where the list of user records is cut, a group is cut. -/
theorem locate (h : Shape fmt p groups live freed) (hCut : live = u ++ v) :
    ∃ K a b o G₂, groups = K ++ [⟨a ++ b, o⟩] ++ G₂ ∧ u = recsOf K ++ a ∧
      v ++ [supremum p.comp] = b ++ [o] ++ recsOf G₂ := by
  refine recsOf_eq_append ?_ (by simp)
  rw [h.recs, hCut, append_assoc]

theorem infimum_lt (comp : Bool) : infimum comp < supremumEnd comp := by cases comp <;> decide

theorem supremum_lt (comp : Bool) : supremum comp < supremumEnd comp := by cases comp <;> decide

section
variable (h : Shape fmt p groups live freed)
include h

/-- A place above the system records is in the list only if it is a user record. -/
theorem mem_recsOf_iff {x : Nat} (hx : supremumEnd p.comp < x) :
    x ∈ recsOf (⟨[], infimum p.comp⟩ :: groups) ↔ x ∈ live := by
  have hInfimum := infimum_lt p.comp
  have hSupremum := supremum_lt p.comp
  rw [recsOf_cons, h.recs]
  simp only [Group.members, nil_append, mem_append, mem_singleton]
  constructor
  · rintro (rfl | hMem | rfl)
    · omega
    · exact hMem
    · omega
  · exact fun hMem => .inr (.inl hMem)

theorem notMem_freed {r : Nat} (hr : r ∈ infimum p.comp :: live) : r ∉ freed := by
  intro hMem
  have hAbove := h.heap.blocks.above_supremum (mem_append_right _ hMem)
  have hLow := infimum_lt p.comp
  rcases mem_cons.mp hr with rfl | hIn
  · omega
  · exact disjoint_of_nodup_append h.heap.blocks.nodup hIn hMem

theorem ne_zero {r : Nat} (hr : r ∈ infimum p.comp :: live) : r ≠ 0 := by
  rcases mem_cons.mp hr with rfl | hIn
  · unfold infimum
    split <;> decide
  · have := h.heap.blocks.above_supremum (mem_append_left _ hIn)
    omega

theorem ne_supremum {r : Nat} (hr : r ∈ live) : r ≠ supremum p.comp := by
  have := h.heap.blocks.above_supremum (mem_append_left _ hr)
  have := supremum_lt p.comp
  omega

end

end Shape

theorem Heap.perm {live live' freed : List Nat} (h : Heap fmt p live freed) (hPerm : live.Perm live') :
    Heap fmt p live' freed where
  blocks := h.blocks.perm (hPerm.append_right freed)
  chained := h.chained
  first := h.first
  nHeap := by rw [h.nHeap, hPerm.length_eq]
  nRecs := by rw [h.nRecs, hPerm.length_eq]
  heapTop := by rw [h.heapTop, sizesOf_perm hPerm]
  garbage := h.garbage
  room := h.room

/-- The heap does not depend on the directory. -/
theorem Heap.congr {live freed : List Nat} (h : Heap fmt p live freed) (hSame : SameHeap p p') :
    Heap fmt p' live freed where
  blocks := h.blocks.congr hSame.comp hSame.heapTop.ge hSame.nHeap.ge (fun r _ => by rw [hSame.body])
    (fun r _ => by rw [hSame.heapNo])
  chained := hSame.next ▸ h.chained
  first := hSame.free ▸ h.first
  nHeap := hSame.nHeap.trans h.nHeap
  nRecs := hSame.nRecs.trans h.nRecs
  heapTop := by
    rw [hSame.heapTop, h.heapTop, hSame.comp, hSame.garbage,
      sizesOf_congr fmt fun r _ => congrFun hSame.body r]
  garbage := by
    rw [hSame.garbage, sizesOf_congr fmt fun r _ => congrFun hSame.body r]
    exact h.garbage
  room := by
    rw [hSame.heapTop, hSame.nHeap]
    exact h.room

end MySQL.Innobase.Index
