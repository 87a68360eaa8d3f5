import MySQL.Innobase.Index.Directory

/-! Splitting a slot that owns too many records and balancing one that owns too few: the record
list stays, and the groups are cut at another place. -/
namespace MySQL.Innobase.Index

open Function List Library MySQL.Innobase.Index.Group

variable {β : Type} {p p' : Page β} {G₁ G₂ H H' : List Group}

theorem addSlotsLoop_apply (start i : Nat) (slot : Nat → Nat) (j : Nat) :
    addSlotsLoop start i slot j = if start + 1 < j ∧ j ≤ i + 1 then slot (j - 1) else slot j := by
  induction i generalizing slot with
  | zero =>
    rw [addSlotsLoop, if_neg (by omega)]
  | succ i ih =>
    rw [addSlotsLoop]
    by_cases hStart : start < i + 1
    · rw [if_pos hStart, ih]
      grind
    · rw [if_neg hStart, if_neg (by omega)]

theorem deleteSlotsLoop_apply (count i : Nat) (slot : Nat → Nat) (j : Nat) :
    deleteSlotsLoop count (i + 1) slot j = if i ≤ j ∧ j < i + count then slot (j + 1) else slot j := by
  induction count generalizing i slot with
  | zero =>
    rw [deleteSlotsLoop, if_neg (by omega)]
  | succ count ih =>
    rw [deleteSlotsLoop, ih]
    grind

section
variable (h : Directory p (G₁ ++ H ++ G₂))
include h

/-- Other groups `H'` in the place of `H` -/
theorem Directory.replace (hChained : Chained p'.next (recsOf (G₁ ++ H' ++ G₂)))
    (hNodup : (recsOf (G₁ ++ H' ++ G₂)).Nodup) (hCount : p'.nDirSlots = (G₁ ++ H' ++ G₂).length)
    (hSlots : SlotsAt p'.slot 0 (G₁ ++ H' ++ G₂))
    (hElse : ∀ r, r ∈ recsOf G₁ ∨ r ∈ recsOf G₂ → p'.nOwned r = p.nOwned r)
    (hOwners : ∀ g ∈ H', p'.nOwned g.owner = g.size)
    (hOwned : ∀ g ∈ H', ∀ r ∈ g.front, p'.nOwned r = 0) : Directory p' (G₁ ++ H' ++ G₂) := by
  have hSame : ∀ g, g ∈ G₁ ∨ g ∈ G₂ → ∀ r ∈ g.members, p'.nOwned r = p.nOwned r := by
    rintro g (hg | hg) r hr
    · exact hElse r (.inl (mem_flatMap.mpr ⟨g, hg, hr⟩))
    · exact hElse r (.inr (mem_flatMap.mpr ⟨g, hg, hr⟩))
  have hMem : ∀ g, g ∈ G₁ ++ H' ++ G₂ → g ∈ H' ∨ ((g ∈ G₁ ∨ g ∈ G₂) ∧ g ∈ G₁ ++ H ++ G₂) := by
    intro g hg
    simp only [mem_append] at hg ⊢
    tauto
  refine ⟨hChained, hNodup, hCount, hSlots, ?_, ?_⟩
  · intro g hg
    rcases hMem g hg with hNew | ⟨hOld, hg⟩
    · exact hOwners g hNew
    · rw [hSame g hOld _ g.owner_mem, h.owners g hg]
  · intro g hg r hr
    rcases hMem g hg with hNew | ⟨hOld, hg⟩
    · exact hOwned g hNew r hr
    · rw [hSame g hOld r (mem_append_left _ hr), h.owned g hg r hr]

/-- No record is in two parts of the list. -/
theorem Directory.notMem {r : Nat} (hr : r ∈ recsOf G₁ ∨ r ∈ recsOf G₂) : r ∉ recsOf H := by
  intro hMem
  have hNodup := h.nodup
  simp only [recsOf_append] at hNodup
  rcases hr with hr | hr
  · exact disjoint_of_nodup_append hNodup.of_append_left hr hMem
  · exact disjoint_of_nodup_append hNodup (mem_append_right _ hMem) hr

/-- The same records in other groups; only their owners' counts and the slots change. -/
theorem Directory.regroup (hRecs : recsOf H' = recsOf H) (hNext : p'.next = p.next)
    (hCount : p'.nDirSlots = (G₁ ++ H' ++ G₂).length) (hSlots : SlotsAt p'.slot 0 (G₁ ++ H' ++ G₂))
    (hElse : ∀ r, r ∉ recsOf H → p'.nOwned r = p.nOwned r)
    (hOwners : ∀ g ∈ H', p'.nOwned g.owner = g.size)
    (hOwned : ∀ g ∈ H', ∀ r ∈ g.front, p'.nOwned r = 0) : Directory p' (G₁ ++ H' ++ G₂) := by
  have hAll : recsOf (G₁ ++ H' ++ G₂) = recsOf (G₁ ++ H ++ G₂) := by simp [hRecs]
  refine h.replace ?_ ?_ hCount hSlots (fun r hr => hElse r (h.notMem hr)) hOwners hOwned
  · rw [hAll, hNext]
    exact h.chained
  · rw [hAll]
    exact h.nodup

end

structure SameHeap (p p' : Page β) : Prop where
  comp : p'.comp = p.comp
  heapTop : p'.heapTop = p.heapTop
  nHeap : p'.nHeap = p.nHeap
  free : p'.free = p.free
  garbage : p'.garbage = p.garbage
  nRecs : p'.nRecs = p.nRecs
  next : p'.next = p.next
  heapNo : p'.heapNo = p.heapNo
  body : p'.body = p.body

namespace SameHeap

variable {p'' : Page β}

theorem trans (h : SameHeap p p') (h' : SameHeap p' p'') : SameHeap p p'' where
  comp := h'.comp.trans h.comp
  heapTop := h'.heapTop.trans h.heapTop
  nHeap := h'.nHeap.trans h.nHeap
  free := h'.free.trans h.free
  garbage := h'.garbage.trans h.garbage
  nRecs := h'.nRecs.trans h.nRecs
  next := h'.next.trans h.next
  heapNo := h'.heapNo.trans h.heapNo
  body := h'.body.trans h.body

section
variable (p : Page β)

theorem refl : SameHeap p p := by constructor <;> rfl

theorem setNOwned (r n : Nat) : SameHeap p (p.setNOwned r n) := by constructor <;> rfl

theorem setSlotNOwned (i n : Nat) : SameHeap p (p.setSlotNOwned i n) :=
  setNOwned p _ n

theorem setDirectory (nDirSlots : Nat) (slot : Nat → Nat) :
    SameHeap p { p with nDirSlots, slot } := by constructor <;> rfl

theorem setSlot (i r : Nat) : SameHeap p (p.setSlot i r) := by constructor <;> rfl

theorem pageDirSplitSlot (slotNo : Nat) : SameHeap p (pageDirSplitSlot p slotNo) :=
  (((setDirectory ..).trans (setSlot ..)).trans (setSlotNOwned ..)).trans (setSlotNOwned ..)

theorem pageDirDeleteSlots (start : Nat) : SameHeap p (pageDirDeleteSlots p start) :=
  ((setSlotNOwned ..).trans (setSlotNOwned ..)).trans (setDirectory ..)

theorem pageDirBalanceSlot (slotNo : Nat) : SameHeap p (pageDirBalanceSlot p slotNo) := by
  unfold Index.pageDirBalanceSlot
  split
  · exact refl p
  · dsimp only
    split
    · exact (((setNOwned ..).trans (setNOwned ..)).trans (setSlot ..)).trans (setSlotNOwned ..)
    · exact pageDirDeleteSlots p slotNo

end

end SameHeap

theorem nextTimes_eq {r m : Nat} {f : List Nat} (hChained : Chained p.next (r :: (f ++ [m]))) :
    nextTimes p (f.length + 1) r = m := by
  induction f generalizing r with
  | nil => exact (Chained.cons_cons.mp hChained).1
  | cons c f ih =>
    obtain ⟨hNext, hRest⟩ := Chained.cons_cons.mp hChained
    rw [length_cons, nextTimes, hNext]
    exact ih hRest

/-- What the directory says of two groups that stand together -/
theorem Directory.pair {g₁ g₂ : Group} (h : Directory p (G₁ ++ [g₁, g₂] ++ G₂)) :
    (SlotsAt p.slot 0 G₁ ∧ p.slot G₁.length = g₁.owner ∧ p.slot (G₁.length + 1) = g₂.owner ∧
      SlotsAt p.slot (G₁.length + 2) G₂ ∧ p.nDirSlots = G₁.length + G₂.length + 2) ∧
      p.nOwned g₁.owner = g₁.size ∧ p.nOwned g₂.owner = g₂.size ∧
      Chained p.next (g₁.owner :: g₂.members) ∧ (g₁.members ++ g₂.members).Nodup := by
  have hRecs : recsOf (G₁ ++ [g₁, g₂] ++ G₂) = recsOf G₁ ++ (g₁.members ++ g₂.members) ++ recsOf G₂ := by simp
  have hMembers : g₁.members ++ g₂.members = g₁.front ++ g₁.owner :: g₂.members := by simp [members]
  have hCount := h.nDirSlots
  simp only [length_append, length_cons, length_nil] at hCount
  obtain ⟨hFirst, hLower, hUpper, hLast⟩ : SlotsAt p.slot 0 G₁ ∧ p.slot G₁.length = g₁.owner ∧
      p.slot (G₁.length + 1) = g₂.owner ∧ SlotsAt p.slot (G₁.length + 2) G₂ := by
    simpa [SlotsAt.append, SlotsAt] using h.slots
  exact ⟨⟨hFirst, hLower, hUpper, hLast, by omega⟩, h.owners g₁ (by simp), h.owners g₂ (by simp),
    (hMembers ▸ (hRecs ▸ h.chained).left.right).right, (hRecs ▸ h.nodup).of_append_left.of_append_right⟩

section Split

variable {g : Group} {f₁ f₂ : List Nat} {k m o : Nat}

section
variable (hMiddle : nextTimes p (p.slotNOwned (k + 1) / 2) (p.slot k) = m)
include hMiddle

theorem pageDirSplitSlot_slot (i : Nat) : (pageDirSplitSlot p (k + 1)).slot i = if i = k + 1 then m
      else if k + 1 < i ∧ i ≤ p.nDirSlots - 1 + 1 then p.slot (i - 1) else p.slot i := by
  simp [pageDirSplitSlot, Page.setSlotNOwned, Page.setNOwned, Page.setSlot, pageDirAddSlots,
    update_apply, addSlotsLoop_apply, hMiddle]

theorem pageDirSplitSlot_nOwned (hSlot : p.slot (k + 1) = o) (hk : k + 1 < p.nDirSlots) :
    (pageDirSplitSlot p (k + 1)).nOwned =
      update (update p.nOwned m (p.nOwned o / 2)) o (p.nOwned o - p.nOwned o / 2) := by
  have hAbove : addSlotsLoop k (p.nDirSlots - 1) p.slot (k + 2) = o := by
    rw [addSlotsLoop_apply, if_pos (by omega)]
    exact hSlot
  rw [Page.slotNOwned, hSlot] at hMiddle
  simp [pageDirSplitSlot, Page.setSlotNOwned, Page.setNOwned, Page.setSlot, pageDirAddSlots,
    Page.slotNOwned, hMiddle, hSlot, hAbove]

end

/-- `page_dir_split_slot` makes two groups out of one. -/
theorem Directory.split (h : Directory p (G₁ ++ [g] ++ [⟨f₁ ++ m :: f₂, o⟩] ++ G₂))
    (hHalf : (f₁.length + f₂.length + 2) / 2 = f₁.length + 1) :
    Directory (pageDirSplitSlot p (G₁.length + 1)) (G₁ ++ [g] ++ [⟨f₁, m⟩, ⟨f₂, o⟩] ++ G₂) := by
  obtain ⟨⟨hFirst, hBelow, hSlot, hLast, hCount⟩, -, hOwner, hLinks, hMembers⟩ := pair (append_assoc G₁ .. ▸ h)
  have hNOwned : p.nOwned o = f₁.length + f₂.length + 2 := by
    simpa [size, Nat.add_assoc, Nat.add_comm, Nat.add_left_comm] using hOwner
  have hSplit : g.owner :: members ⟨f₁ ++ m :: f₂, o⟩ = (g.owner :: (f₁ ++ [m])) ++ (f₂ ++ [o]) := by simp [members]
  have hChained : Chained p.next (g.owner :: (f₁ ++ [m])) := (hSplit ▸ hLinks).left
  have hMiddle : nextTimes p (p.slotNOwned (G₁.length + 1) / 2) (p.slot G₁.length) = m := by
    rw [Page.slotNOwned, hSlot, hNOwned, hHalf, hBelow]
    exact nextTimes_eq hChained
  have hOwns := pageDirSplitSlot_nOwned hMiddle hSlot (by omega)
  have hNodup : (f₁ ++ m :: (f₂ ++ [o])).Nodup := by simpa [members] using hMembers.of_append_right
  refine h.regroup (by simp [members]) (SameHeap.pageDirSplitSlot p _).next ?_ ?_ ?_ ?_ ?_
  · simp [pageDirSplitSlot, Page.setSlotNOwned, Page.setNOwned, Page.setSlot, pageDirAddSlots, hCount]
    omega
  · have hSlots := pageDirSplitSlot_slot hMiddle
    have hAbove : (pageDirSplitSlot p (G₁.length + 1)).slot (G₁.length + 2) = o := by
      rw [hSlots, if_neg (by omega), if_pos (by omega)]
      exact hSlot
    rw [append_assoc G₁]
    refine hFirst.splice hLast (fun k hk => ?_) ?_ fun k hk => ?_
    · rw [hSlots, if_neg (by omega), if_neg (by omega)]
    · simp [SlotsAt, hSlots (G₁.length + 1), hSlots G₁.length, hBelow, hAbove]
    · rw [hSlots, if_neg (by simp; omega), if_pos (by simp; omega)]
      congr 1
      simp
  · intro r hr
    simp only [recsOf_cons, members, recsOf_nil, mem_append, mem_cons, append_nil] at hr
    rw [hOwns, update_of_ne (by grind), update_of_ne (by grind)]
  · rw [hOwns]
    simp only [forall_mem_cons, update_apply, size]
    grind
  · rw [hOwns]
    have hOld := h.owned ⟨f₁ ++ m :: f₂, o⟩ (by simp)
    simp only [forall_mem_cons, update_apply]
    grind

end Split

section Balance

variable {f₁ f₂ : List Nat} {k m o₁ o₂ : Nat}

theorem pageDirBalanceSlot_last (h : k = p.nDirSlots - 1) : pageDirBalanceSlot p k = p := by
  simp [pageDirBalanceSlot, h]

/-- `page_dir_balance_slot` where the upper slot can give a record away -/
theorem Directory.transfer (h : Directory p (G₁ ++ [⟨f₁, o₁⟩, ⟨m :: f₂, o₂⟩] ++ G₂))
    (hUp : pageDirSlotMinNOwned < f₂.length + 2) :
    Directory (pageDirBalanceSlot p G₁.length) (G₁ ++ [⟨f₁ ++ [o₁], m⟩, ⟨f₂, o₂⟩] ++ G₂) := by
  obtain ⟨⟨hFirst, hSlot, hAbove, hLast, hCount⟩, hLower, hUpper, hChained, hNodup⟩ := h.pair
  have hNext : p.next o₁ = m := (Chained.cons_cons.mp hChained).1
  simp only [size, members, length_cons, append_assoc, cons_append, nil_append] at hLower hUpper hNodup
  have hBalance : pageDirBalanceSlot p G₁.length = { p with
        nOwned := update (update (update p.nOwned o₁ 0) m (f₁.length + 2)) o₂ (f₂.length + 1)
        slot := update p.slot G₁.length m } := by
    rw [pageDirBalanceSlot, if_neg (by omega)]
    simp [Page.setSlotNOwned, Page.setNOwned, Page.setSlot, Page.slotNOwned, hSlot, hAbove, hLower,
      hUpper, hUp, hNext]
  rw [hBalance]
  refine h.regroup (by simp [members]) rfl (by simp [hCount]; omega) ?_ ?_ ?_ ?_
  · refine hFirst.splice hLast (fun k hk => update_of_ne (by omega) ..) ?_ fun k hk => ?_
    · simp [SlotsAt, hAbove]
    · exact update_of_ne (by simp; omega) ..
  · intro r hr
    simp only [recsOf_cons, members, recsOf_nil, mem_append, mem_cons, append_nil] at hr
    grind
  · simp only [forall_mem_cons, update_apply, size]
    grind
  · have hOld₁ := h.owned ⟨f₁, o₁⟩ (by simp)
    have hOld₂ := h.owned ⟨m :: f₂, o₂⟩ (by simp)
    grind

/-- `page_dir_balance_slot` where the two slots become one -/
theorem Directory.merge (h : Directory p (G₁ ++ [⟨f₁, o₁⟩, ⟨f₂, o₂⟩] ++ G₂))
    (hUp : f₂.length + 1 ≤ pageDirSlotMinNOwned) :
    Directory (pageDirBalanceSlot p G₁.length) (G₁ ++ [⟨f₁ ++ o₁ :: f₂, o₂⟩] ++ G₂) := by
  obtain ⟨⟨hFirst, hSlot, hAbove, hLast, hCount⟩, hLower, hUpper, -, hNodup⟩ := h.pair
  simp only [size, members, append_assoc, cons_append, nil_append] at hLower hUpper hNodup
  have hNe : o₂ ≠ o₁ := by grind
  have hBalance : pageDirBalanceSlot p G₁.length = { p with
        nDirSlots := p.nDirSlots - 1
        nOwned := update (update p.nOwned o₁ 0) o₂ (f₁.length + 1 + (f₂.length + 1))
        slot := deleteSlotsLoop (p.nDirSlots - (G₁.length + 1)) (G₁.length + 1) p.slot } := by
    rw [pageDirBalanceSlot, if_neg (by omega)]
    simp [Page.setSlotNOwned, Page.setNOwned, Page.slotNOwned, pageDirDeleteSlots, hSlot, hAbove, hLower,
      hUpper, hNe, not_lt.mpr hUp]
  rw [hBalance]
  refine h.regroup (by simp [members]) rfl (by simp [hCount]; omega) ?_ ?_ ?_ ?_
  · have hSlots := deleteSlotsLoop_apply (p.nDirSlots - (G₁.length + 1)) G₁.length p.slot
    refine hFirst.splice hLast (fun k hk => (hSlots k).trans (if_neg (by omega))) ⟨?_, trivial⟩
      fun k hk => (hSlots _).trans ?_
    · exact (hSlots _).trans ((if_pos (by omega)).trans hAbove)
    · rw [if_pos (by simp; omega)]
      congr 1
      simp
      omega
  · intro r hr
    simp only [recsOf_cons, members, recsOf_nil, mem_append, mem_cons, append_nil] at hr
    grind
  · simp only [forall_mem_cons, update_apply, size]
    grind
  · have hOld₁ := h.owned ⟨f₁, o₁⟩ (by simp)
    have hOld₂ := h.owned ⟨f₂, o₂⟩ (by simp)
    grind

end Balance

end MySQL.Innobase.Index
