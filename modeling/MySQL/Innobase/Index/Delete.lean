import MySQL.Innobase.Index.Insert

/-! `page_cur_delete_rec`: the record leaves the list and its group for the free list, and a slot
that owns too few records is balanced with the one above it. -/
namespace MySQL.Innobase.Index

open Function List Library MySQL.Innobase.Index.Group

variable {β : Type} {fmt : Format β} {p p' : Page β} {live freed : List Nat}

/-- The records `D` go from the record list, where they are cut off behind `q`, to the front of
the free list. -/
theorem Heap.release {D w : List Nat} {q y last : Nat} (h : Heap fmt p (D ++ live) freed)
    (hD : Chained (update p.next q y) D) (hLast : D = w ++ [last]) (hq : q ∉ freed)
    (hNext : p'.next = update (update p.next q y) last p.free) (hFirst : D.head? = some p'.free)
    (hComp : p'.comp = p.comp) (hTop : p'.heapTop = p.heapTop) (hHeap : p'.nHeap = p.nHeap)
    (hBody : p'.body = p.body) (hNo : p'.heapNo = p.heapNo)
    (hGarbage : p'.garbage = sizesOf fmt p D + p.garbage) (hRecs : p'.nRecs = p.nRecs - D.length) :
    Heap fmt p' live (D ++ freed) := by
  have hSizes : ∀ l, sizesOf fmt p' l = sizesOf fmt p l := fun l =>
    sizesOf_congr fmt fun r _ => congrFun hBody r
  have hOld := h.garbage
  constructor
  · have hPerm : (D ++ live ++ freed).Perm (live ++ (D ++ freed)) := by
      rw [← append_assoc]
      exact perm_append_comm.append_right freed
    exact (h.blocks.perm hPerm).congr hComp hTop.ge hHeap.ge (fun r _ => congrFun hBody r)
      (fun r _ => congrFun hNo r)
  · have hFreed : Chained (update p.next q y) (freed ++ [0]) :=
      h.chained.congr fun r hr => update_of_ne (ne_of_mem_of_not_mem hr hq) ..
    have hAll : (D ++ freed ++ [0]).Nodup := by
      have hOnce : (0 :: (D ++ live ++ freed)).Nodup := nodup_cons.mpr ⟨h.zero_notMem, h.blocks.nodup⟩
      exact (perm_append_singleton 0 _).nodup_iff.mpr (hOnce.sublist (by simp))
    obtain ⟨next, tail, hTail⟩ : ∃ next tail, freed ++ [0] = next :: tail := by cases freed <;> simp
    obtain rfl : next = p.free := by simpa [hTail] using h.first
    rw [append_assoc, hTail] at hAll ⊢
    rw [hTail] at hFreed
    rw [hLast] at hD hAll ⊢
    rw [hNext]
    simpa using hD.join hFreed hAll
  · rw [append_assoc]
    simp [head?_append, hFirst]
  · rw [hHeap, h.nHeap]
    simp only [length_append]
    omega
  · rw [hRecs, h.nRecs, length_append]
    omega
  · rw [hTop, h.heapTop, hComp, hSizes, sizesOf_append]
    omega
  · rw [hSizes, sizesOf_append]
    omega
  · rw [hTop, hHeap]
    exact h.room

section Directory

variable {G₁ G₂ : List Group} {g g' : Group} {m₁ m₂ front back : List Nat} {q x y : Nat}

/-- The record at `x` leaves its group, which may get another owner by that. -/
theorem Directory.delete (h : Directory p (G₁ ++ [g] ++ G₂)) (hMembers : g.members = m₁ ++ x :: m₂)
    (hMembers' : g'.members = m₁ ++ m₂) (hFront : recsOf G₁ ++ m₁ = front ++ [q])
    (hBack : m₂ ++ recsOf G₂ = y :: back)
    (hNext : ∀ r, r ≠ x → p'.next r = update p.next q (p.next x) r)
    (hSlot : p'.slot = update p.slot G₁.length g'.owner) (hCount : p'.nDirSlots = p.nDirSlots)
    (hElse : ∀ r, r ∉ g.members → p'.nOwned r = p.nOwned r) (hOwner : p'.nOwned g'.owner = g'.size)
    (hOwned : ∀ r ∈ g'.front, p'.nOwned r = 0) : Directory p' (G₁ ++ [g'] ++ G₂) := by
  have hRecs : recsOf (G₁ ++ [g] ++ G₂) = front ++ q :: [x] ++ y :: back := by
    calc recsOf (G₁ ++ [g] ++ G₂) = (recsOf G₁ ++ m₁) ++ x :: (m₂ ++ recsOf G₂) := by simp [hMembers]
      _ = front ++ q :: [x] ++ y :: back := by simp [hFront, hBack]
  have hRecs' : recsOf (G₁ ++ [g'] ++ G₂) = front ++ q :: y :: back := by
    calc recsOf (G₁ ++ [g'] ++ G₂) = (recsOf G₁ ++ m₁) ++ (m₂ ++ recsOf G₂) := by simp [hMembers']
      _ = front ++ q :: y :: back := by simp [hFront, hBack]
  have hChained := hRecs ▸ h.chained
  have hNodup := hRecs ▸ h.nodup
  have hx : x ∉ front ++ q :: y :: back := by
    have : (front ++ [q] ++ x :: (y :: back)).Nodup := by simpa using hNodup
    simpa using (nodup_cons.mp (nodup_middle.mp this)).1
  have hSucc : p.next x = y := by
    have : Chained p.next (front ++ [q] ++ x :: y :: back) := by simpa using hChained
    exact this.next_eq
  refine h.replace ?_ ?_ ?_ ?_ ?_ ?_ ?_
  · rw [hRecs']
    refine (hChained.cut hNodup).congr_all fun r hr => ?_
    rw [hNext r (ne_of_mem_of_not_mem hr hx), hSucc]
  · rw [hRecs']
    exact hNodup.sublist (by simp)
  · rw [hCount, h.nDirSlots]
    simp
  · rw [hSlot]
    have hOld := SlotsAt.append.mp h.slots
    refine (SlotsAt.append.mp hOld.1).1.splice hOld.2 (fun k hk => update_of_ne (by omega) ..)
      (by simp [SlotsAt]) fun k hk => ?_
    rw [update_of_ne (by simp; omega)]
    simp
  · intro r hr
    exact hElse r (by simpa using h.notMem hr)
  · simpa using hOwner
  · simpa using hOwned

/-- After `page_dir_balance_slot` the slot owns enough records again, unless it is the last. -/
theorem Directory.balance {comp : Bool} (h : Directory p (G₁ ++ [g] ++ G₂)) (hSized : ∀ g ∈ G₂, Sized comp g)
    (hSmall : g.size ≤ 3) (hShort : G₂ ≠ [] → g.size = 3) (hLast : G₂ = [] → g.owner = supremum comp) :
    ∃ H, Directory (pageDirBalanceSlot p G₁.length) (G₁ ++ H) ∧ recsOf H = g.members ++ recsOf G₂ ∧
      ∀ g ∈ H, Sized comp g := by
  cases G₂ with
  | nil =>
    have hCount := h.nDirSlots
    simp only [length_append, length_singleton, append_nil] at hCount
    refine ⟨[g], ?_, by simp, ?_⟩
    · rw [pageDirBalanceSlot_last (by omega)]
      simpa using h
    · simp only [forall_mem_singleton, Sized, hLast rfl, pageDirSlotMaxNOwned]
      exact ⟨by omega, fun hNe => absurd rfl hNe⟩
  | cons up G₂ =>
    obtain ⟨hUp, hRest⟩ := forall_mem_cons.mp hSized
    obtain ⟨f₁, o₁⟩ := g
    obtain ⟨f₂, o₂⟩ := up
    have hGroups : Directory p (G₁ ++ [⟨f₁, o₁⟩, ⟨f₂, o₂⟩] ++ G₂) := by simpa using h
    have hThree := hShort (cons_ne_nil _ _)
    simp only [size, Sized, pageDirSlotMaxNOwned, pageDirSlotMinNOwned] at hThree hUp
    by_cases hRich : pageDirSlotMinNOwned < f₂.length + 1
    · cases f₂ with
      | nil => exact absurd hRich (by decide)
      | cons m f₂ =>
        refine ⟨⟨f₁ ++ [o₁], m⟩ :: ⟨f₂, o₂⟩ :: G₂, ?_, by simp [members], ?_⟩
        · simpa using hGroups.transfer hRich
        · rw [pageDirSlotMinNOwned, length_cons] at hRich
          rw [length_cons] at hUp
          refine forall_mem_cons.mpr ⟨?_, forall_mem_cons.mpr ⟨?_, hRest⟩⟩
          · simp only [Sized, size, length_append, length_singleton,
              pageDirSlotMaxNOwned, pageDirSlotMinNOwned]
            omega
          · simp only [Sized, size, pageDirSlotMaxNOwned, pageDirSlotMinNOwned]
            omega
    · refine ⟨⟨f₁ ++ o₁ :: f₂, o₂⟩ :: G₂, ?_, by simp [members], ?_⟩
      · simpa using hGroups.merge (not_lt.mp hRich)
      · rw [pageDirSlotMinNOwned] at hRich
        refine forall_mem_cons.mpr ⟨?_, hRest⟩
        simp only [Sized, size, length_append, length_cons, pageDirSlotMaxNOwned,
          pageDirSlotMinNOwned]
        omega

end Directory

/-- The supremum owns the last group and no other. -/
theorem Shape.owner_eq_supremum_iff {K G₂ : List Group} {g : Group}
    (h : Shape fmt p (K ++ [g] ++ G₂) live freed) : g.owner = supremum p.comp ↔ G₂ = [] := by
  have hRecs : recsOf K ++ g.front ++ g.owner :: recsOf G₂ = live ++ [supremum p.comp] := by
    have := h.recs
    simpa [members] using this
  have hNodup : (recsOf K ++ g.front ++ g.owner :: recsOf G₂).Nodup := by
    have := h.directory.nodup
    rw [recsOf_cons] at this
    simpa [members] using this.of_append_right
  constructor
  · intro hOwner
    by_contra hNe
    obtain hNil | ⟨l, y, hLast⟩ := eq_nil_or_concat' (recsOf G₂)
    · obtain ⟨g₂, G₂, rfl⟩ := exists_cons_of_ne_nil hNe
      simp [members] at hNil
    rw [hLast, ← cons_append, ← append_assoc] at hRecs hNodup
    obtain ⟨-, hy⟩ := append_inj' hRecs rfl
    obtain rfl : y = supremum p.comp := by simpa using hy
    exact disjoint_of_nodup_append hNodup (by simp [hOwner]) (mem_singleton_self _)
  · rintro rfl
    obtain ⟨-, ho⟩ := append_inj' hRecs rfl
    simpa using ho

structure Unlinked (fmt : Format β) (p p' : Page β) (k q x o : Nat) : Prop where
  comp : p'.comp = p.comp
  heapTop : p'.heapTop = p.heapTop
  nHeap : p'.nHeap = p.nHeap
  body : p'.body = p.body
  heapNo : p'.heapNo = p.heapNo
  nDirSlots : p'.nDirSlots = p.nDirSlots
  next : p'.next = update (update p.next q (p.next x)) x p.free
  slot : p'.slot = update p.slot k o
  nOwned : p'.nOwned = update p.nOwned o (p.nOwned (p.slot k) - 1)
  free : p'.free = x
  garbage : p'.garbage = fmt.size (p.body x) + p.garbage
  nRecs : p'.nRecs = p.nRecs - 1

theorem pageCurDeleteRec_eq (fmt : Format β) {k q x : Nat} (hSlot : pageDirFindOwnerSlot p x = some k)
    (hPrev : pageRecGetPrev p x = some q) :
    ∃ p', Unlinked fmt p p' k q x (if x = p.slot k then q else p.slot k) ∧
      pageCurDeleteRec fmt p x = some (if p.nOwned (p.slot k) ≤ pageDirSlotMinNOwned then
        pageDirBalanceSlot p' k else p') := by
  rw [pageCurDeleteRec, hSlot, hPrev]
  refine ⟨_, ?_, rfl⟩
  by_cases hOwner : x = p.slot k
  · rw [if_pos hOwner]
    constructor
    all_goals simp [Page.setNext, Page.setSlot, Page.setSlotNOwned, Page.setNOwned, pageMemFree,
      Page.slotNOwned, hOwner, add_comm]
  · rw [if_neg hOwner]
    constructor
    all_goals simp [Page.setNext, Page.setSlotNOwned, Page.setNOwned, pageMemFree,
      Page.slotNOwned, hOwner, add_comm]

/-- The free list with the deleted record in front -/
theorem Unlinked.heap {k q x o : Nat} {groups : List Group} (hUnlinked : Unlinked fmt p p' k q x o)
    (h : Shape fmt p groups live freed) (hq : q ∈ infimum p.comp :: live)
    {rest : List Nat} (hPerm : live.Perm (x :: rest)) : Heap fmt p' rest (x :: freed) :=
  (h.heap.perm hPerm).release (w := []) (isChain_singleton x) rfl (h.notMem_freed hq)
    hUnlinked.next (congrArg some hUnlinked.free.symm) hUnlinked.comp hUnlinked.heapTop hUnlinked.nHeap
    hUnlinked.body hUnlinked.heapNo hUnlinked.garbage hUnlinked.nRecs

section Group

variable {a b m₂ : List Nat} {q x o : Nat}

/-- What is left of the group of the deleted record, with its owner -/
theorem exists_rest (hb : b ++ [o] = x :: m₂) (hNodup : (a ++ b ++ [o]).Nodup)
    (hLast : x = o → ∃ a', a = a' ++ [q]) :
    ∃ g : Group, g.owner = (if x = o then q else o) ∧ g.members = a ++ m₂ ∧
      g.size = a.length + b.length ∧ (∀ r ∈ g.front, r ∈ a ++ b) ∧ g.owner ∈ a ++ b ++ [o] ∧
      ∀ r ∈ g.front, r ≠ g.owner := by
  cases b with
  | nil =>
    obtain ⟨rfl, rfl⟩ : o = x ∧ [] = m₂ := by simpa using hb
    obtain ⟨a', rfl⟩ := hLast rfl
    refine ⟨⟨a', q⟩, by simp, by simp [members], by simp [size], ?_, by simp, ?_⟩
    · intro r hr
      exact mem_append_left _ (mem_append_left _ hr)
    · rintro r hr rfl
      exact disjoint_of_nodup_append hNodup.of_append_left.of_append_left hr (by simp)
  | cons c b =>
    obtain ⟨rfl, rfl⟩ : c = x ∧ b ++ [o] = m₂ := by simpa using hb
    have hNe : c ≠ o := by
      rintro rfl
      exact disjoint_of_nodup_append hNodup (by simp) (mem_singleton_self _)
    refine ⟨⟨a ++ b, o⟩, by simp [hNe], by simp [members], ?_, ?_, by simp, ?_⟩
    · simp only [size, length_append, length_cons]
      omega
    · intro r hr
      simp only [mem_append, mem_cons] at hr ⊢
      tauto
    · rintro r hr rfl
      refine disjoint_of_nodup_append hNodup ?_ (mem_singleton_self _)
      simp only [mem_append, mem_cons] at hr ⊢
      tauto

end Group

/-- The searches from a record of the group `⟨a ++ b, o⟩` find its slot and the record before it. -/
theorem Shape.search {K G₂ : List Group} {a b w : List Nat} {o x : Nat}
    (h : Shape fmt p (K ++ [⟨a ++ b, o⟩] ++ G₂) (recsOf K ++ a ++ w) freed)
    (hHead : (b ++ [o]).head? = some x) :
    pageDirFindOwnerSlot p x = some (K.length + 1) ∧
      ∃ front q, infimum p.comp :: (recsOf K ++ a) = front ++ [q] ∧ pageRecGetPrev p x = some q := by
  have hSized := (h.sized ⟨a ++ b, o⟩ (by simp)).1
  simp only [size, length_append, pageDirSlotMaxNOwned] at hSized
  have hDirectory : Directory p (⟨[], infimum p.comp⟩ :: K ++ ⟨a ++ b, o⟩ :: G₂) := by
    simpa using h.directory
  refine ⟨hDirectory.findOwnerSlot hHead (by rw [univPageSize]; omega), ?_⟩
  obtain ⟨G, g, hG⟩ := (eq_nil_or_concat' (⟨[], infimum p.comp⟩ :: K)).resolve_left (cons_ne_nil _ _)
  obtain ⟨l, q, hq⟩ := (eq_nil_or_concat' (g.owner :: a)).resolve_left (cons_ne_nil _ _)
  have hFront : infimum p.comp :: (recsOf K ++ a) = recsOf G ++ g.front ++ l ++ [q] := by
    calc infimum p.comp :: (recsOf K ++ a) = recsOf (⟨[], infimum p.comp⟩ :: K) ++ a := by
          simp [members]
      _ = recsOf G ++ g.front ++ (g.owner :: a) := by simp [hG, members]
      _ = recsOf G ++ g.front ++ l ++ [q] := by simp [hq]
  refine ⟨_, q, hFront, ?_⟩
  rw [hG] at hDirectory
  have hZero : q ≠ 0 := by
    refine h.ne_zero ?_
    rw [← cons_append, hFront]
    simp
  have hGroups : Directory p (G ++ g :: ⟨a ++ b, o⟩ :: G₂) := by simpa using hDirectory
  exact hGroups.getPrev hHead (by rw [univPageSize]; omega) (by simp [hq]) hZero

/-- `page_cur_delete_rec` returns and moves the record from the list to the free list. -/
theorem Shape.delete {groups : List Group} {u v : List Nat} {x : Nat}
    (h : Shape fmt p groups (u ++ x :: v) freed) :
    ∃ p' groups', pageCurDeleteRec fmt p x = some p' ∧ p'.comp = p.comp ∧ p'.body = p.body ∧
      Shape fmt p' groups' (u ++ v) (x :: freed) := by
  obtain ⟨K, a, b, o, G₂, rfl, rfl, hv⟩ := h.locate rfl
  have hSized := h.sized
  have hSizedG := hSized ⟨a ++ b, o⟩ (by simp)
  simp only [Sized, size, length_append, pageDirSlotMaxNOwned, pageDirSlotMinNOwned] at hSizedG
  obtain ⟨z, m₂, hm₂⟩ := exists_cons_of_ne_nil (append_ne_nil_of_right_ne_nil b (cons_ne_nil o []))
  rw [hm₂, cons_append, cons_append] at hv
  obtain ⟨rfl, hBack⟩ := cons.inj hv
  obtain ⟨y, back, hy⟩ : ∃ y back, v ++ [supremum p.comp] = y :: back := by cases v <;> simp
  obtain ⟨hSlotNo, front, q, hFront, hPrev⟩ := h.search (by rw [hm₂]; rfl)
  have hGroups : Directory p (⟨[], infimum p.comp⟩ :: K ++ [⟨a ++ b, o⟩] ++ G₂) := h.directory
  have hSlot : p.slot (K.length + 1) = o := by
    have hSplit : Directory p (⟨[], infimum p.comp⟩ :: K ++ ⟨a ++ b, o⟩ :: G₂) := by simpa using hGroups
    exact hSplit.slot_eq
  have hCount : p.nOwned o = a.length + b.length + 1 := by
    simpa [size] using h.directory.owners ⟨a ++ b, o⟩ (by simp)
  have hNodup : (a ++ b ++ [o]).Nodup := by
    have := h.directory.nodup
    simp only [recsOf_cons, recsOf_append, recsOf_nil, append_nil] at this
    exact this.of_append_right.of_append_left.of_append_right
  have hSupremum : o = supremum p.comp ↔ G₂ = [] := h.owner_eq_supremum_iff
  have hx : x ≠ supremum p.comp := h.ne_supremum (by simp)
  obtain ⟨p₁, hUnlinked, hDelete⟩ := pageCurDeleteRec_eq fmt hSlotNo hPrev
  rw [hSlot, hCount] at hDelete
  rw [hSlot] at hUnlinked
  -- an owner other than the supremum has records before it in its group
  have hLast : x = o → ∃ a', a = a' ++ [q] := by
    rintro rfl
    have hLong := hSizedG.2 hx
    obtain rfl : b = [] := by
      cases b with
      | nil => rfl
      | cons c b =>
        obtain rfl : c = x := (cons.inj hm₂).1
        exact absurd (mem_singleton_self c) (disjoint_of_nodup_append hNodup (by simp))
    rcases a.eq_nil_or_concat with rfl | ⟨a', z, rfl⟩
    · simp at hLong
    · rw [concat_eq_append, ← append_assoc, ← cons_append] at hFront
      obtain ⟨-, hz⟩ := append_inj' hFront rfl
      exact ⟨a', by rw [concat_eq_append, hz]⟩
  obtain ⟨g, hOwner, hMembers, hSize, hFrontMem, hOwnerMem, hFrontNe⟩ := exists_rest hm₂ hNodup hLast
  have hq : q ∈ infimum p.comp :: (recsOf K ++ a ++ x :: v) := by
    rw [← cons_append, hFront]
    simp
  have hHeap : Heap fmt p₁ (recsOf K ++ a ++ v) (x :: freed) :=
    hUnlinked.heap h hq perm_middle
  rw [← hOwner] at hUnlinked
  have hDirectory : Directory p₁ (⟨[], infimum p.comp⟩ :: K ++ [g] ++ G₂) := by
    have hOld : (⟨a ++ b, o⟩ : Group).members = a ++ x :: m₂ := by
      rw [members, append_assoc, hm₂]
    refine hGroups.delete hOld hMembers (by simpa [members] using hFront) (hBack.symm.trans hy) ?_
      hUnlinked.slot hUnlinked.nDirSlots ?_ ?_ ?_
    · intro r hr
      rw [hUnlinked.next, update_of_ne hr]
    · intro r hr
      rw [hUnlinked.nOwned, update_of_ne]
      rintro rfl
      exact hr hOwnerMem
    · rw [hUnlinked.nOwned, update_self, hSlot]
      omega
    · intro r hr
      rw [hUnlinked.nOwned, update_of_ne (hFrontNe r hr)]
      exact h.directory.owned ⟨a ++ b, o⟩ (by simp) r (hFrontMem r hr)
  have hEnd : G₂ = [] → g.owner = supremum p.comp := by
    intro hNil
    have ho := hSupremum.mpr hNil
    rw [hOwner, if_neg (ho ▸ hx), ho]
  simp only [forall_mem_append, forall_mem_singleton] at hSized
  obtain ⟨p', H, hp', hSame, hDir, hRecs, hSizedH⟩ : ∃ p' H, pageCurDeleteRec fmt p x = some p' ∧
      SameHeap p₁ p' ∧ Directory p' (⟨[], infimum p.comp⟩ :: K ++ H) ∧
      recsOf H = g.members ++ recsOf G₂ ∧ ∀ g ∈ H, Sized p.comp g := by
    by_cases hFew : a.length + b.length + 1 ≤ pageDirSlotMinNOwned
    · have hShort : G₂ ≠ [] → g.size = 3 := by
        intro hNe
        have hEnough := hSizedG.2 fun ho => hNe (hSupremum.mp ho)
        have hFour : a.length + b.length + 1 ≤ 4 := hFew
        omega
      have hFour : a.length + b.length + 1 ≤ 4 := hFew
      obtain ⟨H, hBalanced, hRecs, hSizedH⟩ := hDirectory.balance hSized.2 (by omega) hShort hEnd
      exact ⟨_, H, hDelete.trans (by rw [if_pos hFew, length_cons]), SameHeap.pageDirBalanceSlot .., hBalanced,
        hRecs, hSizedH⟩
    · refine ⟨p₁, g :: G₂, hDelete.trans (by rw [if_neg hFew]), SameHeap.refl p₁, by simpa using hDirectory,
        by simp, forall_mem_cons.mpr ⟨?_, hSized.2⟩⟩
      simp only [pageDirSlotMinNOwned] at hFew
      simp only [Sized, pageDirSlotMaxNOwned, pageDirSlotMinNOwned]
      omega
  have hComp : p'.comp = p.comp := hSame.comp.trans hUnlinked.comp
  have hNo : p'.heapNo = p.heapNo := hSame.heapNo.trans hUnlinked.heapNo
  refine ⟨p', K ++ H, hp', hComp, hSame.body.trans hUnlinked.body, ?_⟩
  constructor
  · rw [hComp]
    exact hDir
  · rw [hComp, recsOf_append, hRecs, hMembers, append_assoc a, ← hBack]
    simp
  · rw [hComp]
    exact forall_mem_append.mpr ⟨hSized.1.1, hSizedH⟩
  · exact hHeap.congr hSame
  · rw [hComp, hNo, h.infimumNo]
  · rw [hComp, hNo, h.supremumNo]

end MySQL.Innobase.Index
