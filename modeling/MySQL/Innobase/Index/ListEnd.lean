import MySQL.Innobase.Index.Delete

/-! `page_delete_rec_list_end`: the end of the record list goes to the free list in one piece,
and the supremum takes over what is left of the group where the list is cut. -/
namespace MySQL.Innobase.Index

open Function List Library MySQL.Innobase.Index.Group

variable {β : Type} {fmt : Format β} {p p' : Page β} {live freed : List Nat}

section Loops

variable {D : List Nat} {r fuel : Nat}

section
variable (h : Walk p.next (supremum p.comp) D r fuel) (hNot : supremum p.comp ∉ D)
include h hNot

theorem sumSizesLoop_eq {n s : Nat} :
    sumSizesLoop fmt p fuel r n s = some (n + D.length, s + sizesOf fmt p D) := by
  induction h generalizing n s with
  | stop => simp [sumSizesLoop, sizesOf]
  | @step c D _ _ ih =>
    have hNe : c ≠ supremum p.comp := fun h => hNot (h ▸ mem_cons_self)
    simp only [sumSizesLoop, hNe, if_false]
    rw [ih fun h => hNot (mem_cons_of_mem c h), sizesOf_cons, length_cons, add_assoc, add_assoc,
      add_comm 1]

theorem recsFrom_eq : recsFrom p fuel r = D := by
  induction h with
  | stop => simp [recsFrom]
  | @step c D _ _ ih =>
    have hNe : c ≠ supremum p.comp := fun h => hNot (h ▸ mem_cons_self)
    simp only [recsFrom, hNe, if_false]
    rw [ih fun h => hNot (mem_cons_of_mem c h)]

end

theorem countToOwnerLoop_eq {o n : Nat} (h : Walk p.next o D r fuel)
    (hOwned : ∀ r ∈ D, p.nOwned r = 0) (hOwner : p.nOwned o ≠ 0) :
    countToOwnerLoop p fuel r n = some (o, n + D.length) := by
  induction h generalizing n with
  | stop => simp [countToOwnerLoop, hOwner]
  | @step c D _ _ ih =>
    simp only [countToOwnerLoop, hOwned c (by simp), if_true]
    rw [ih fun r hr => hOwned r (mem_cons_of_mem c hr), length_cons, add_assoc, add_comm 1]

end Loops

namespace Shape

variable {groups : List Group} {u v : List Nat}

/-- Every record takes some of the page. -/
theorem length_lt (h : Shape fmt p groups live freed) : live.length < univPageSize := by
  have hSizes : ∀ l : List Nat, 5 * l.length ≤ sizesOf fmt p l := by
    intro l
    induction l with
    | nil => simp [sizesOf]
    | cons r l ih =>
      have := fmt.header (p.body r)
      rw [sizesOf_cons, length_cons, Format.size]
      omega
  have := hSizes live
  have := h.heap.heapTop
  have := h.heap.room
  simp only [univPageSize, pageDir, pageDirSlotSize] at *
  omega

section
variable (h : Shape fmt p groups (u ++ v) freed)
include h

/-- The list from any place on to the supremum -/
theorem chained_from : Chained p.next (v ++ [supremum p.comp]) := by
  have := h.directory.chained
  rw [recsOf_cons, h.recs, append_assoc u] at this
  exact this.right.right

theorem walk_from {r : Nat} (hHead : (v ++ [supremum p.comp]).head? = some r) :
    Walk p.next (supremum p.comp) v r univPageSize ∧ supremum p.comp ∉ v := by
  have hLength := h.length_lt
  rw [length_append] at hLength
  refine ⟨h.chained_from.walk hHead (by omega), ?_⟩
  exact fun hMem => h.ne_supremum (mem_append_right u hMem) rfl

theorem recsFrom_eq {r : Nat} (hHead : (v ++ [supremum p.comp]).head? = some r) :
    recsFrom p univPageSize r = v :=
  Index.recsFrom_eq (h.walk_from hHead).1 (h.walk_from hHead).2

end

theorem next_infimum (h : Shape fmt p groups live freed) :
    (live ++ [supremum p.comp]).head? = some (p.next (infimum p.comp)) := by
  have := h.directory.chained
  rw [recsOf_cons, h.recs] at this
  exact Chained.head?_eq this

/-- The walk of the list finds the user records. -/
theorem userRecs_eq (h : Shape fmt p groups live freed) : userRecs p = live :=
  recsFrom_eq (u := []) h h.next_infimum

end Shape

section Cut

variable {K G₂ : List Group} {a b D : List Nat} {o x q last size : Nat}

def Page.cut (p : Page β) (slotNo left q x last nRecs size : Nat) : Page β :=
  { p with
    slot := update p.slot slotNo (supremum p.comp)
    nOwned := update p.nOwned (supremum p.comp) left
    nDirSlots := slotNo + 1
    next := update (update p.next q (supremum p.comp)) last p.free
    free := x
    garbage := size + p.garbage
    nRecs := p.nRecs - nRecs }

section
variable (h : Shape fmt p (K ++ [⟨a ++ b, o⟩] ++ G₂) (recsOf K ++ a ++ D) freed)
include h

theorem cutList_eq (hHead : (b ++ [o]).head? = some x) (nRecs : Nat) :
    cutList p x q last nRecs size = some (p.cut (K.length + 1) (a.length + 1) q x last nRecs size) := by
  have hSized := (h.sized ⟨a ++ b, o⟩ (by simp)).1
  simp only [Group.size, length_append, pageDirSlotMaxNOwned] at hSized
  have hOwned := h.directory.owned ⟨a ++ b, o⟩ (by simp)
  have hCount : p.nOwned o = a.length + b.length + 1 := by
    simpa [Group.size] using h.directory.owners ⟨a ++ b, o⟩ (by simp)
  have hChained : Chained p.next (b ++ [o]) := by
    have := h.directory.chained
    have hRecs : recsOf (⟨[], infimum p.comp⟩ :: (K ++ [⟨a ++ b, o⟩] ++ G₂)) =
        infimum p.comp :: (recsOf K ++ a) ++ ((b ++ [o]) ++ recsOf G₂) := by
      simp [members]
    rw [hRecs] at this
    exact this.right.left
  have hLoop : countToOwnerLoop p univPageSize x 0 = some (o, 0 + b.length) := by
    refine countToOwnerLoop_eq (hChained.walk hHead ?_)
      (fun r hr => hOwned r (mem_append_right a hr)) (by omega)
    rw [univPageSize]
    omega
  have hSlotNo : pageDirFindOwnerSlot p o = some (K.length + 1) := by
    have hDirectory : Directory p (⟨[], infimum p.comp⟩ :: K ++ ⟨(a ++ b) ++ [], o⟩ :: G₂) := by
      simpa using h.directory
    exact hDirectory.findOwnerSlot rfl (by decide)
  have hLeft : a.length + b.length + 1 - b.length = a.length + 1 := by omega
  rw [cutList, hLoop, Option.bind_some]
  simp only [hSlotNo, Option.map_some, Page.setSlot, Page.setSlotNOwned, Page.setNOwned, Page.setNext,
    update_self, hCount, zero_add, hLeft, Page.cut]

/-- The end `D` of the list is on the free list, and the rest of its group belongs to the
supremum. -/
theorem Shape.cut {front w : List Nat} (hHead : D.head? = some x) (hLast : D = w ++ [last])
    (hPrev : infimum p.comp :: (recsOf K ++ a) = front ++ [q]) :
    Shape fmt (p.cut (K.length + 1) (a.length + 1) q x last D.length (sizesOf fmt p D)) (K ++ [⟨a, supremum p.comp⟩]) (recsOf K ++ a) (D ++ freed) := by
  have hList : recsOf (⟨[], infimum p.comp⟩ :: (K ++ [⟨a ++ b, o⟩] ++ G₂)) =
      front ++ q :: D ++ [supremum p.comp] := by
    rw [recsOf_cons, h.recs]
    calc [] ++ [infimum p.comp] ++ (recsOf K ++ a ++ D ++ [supremum p.comp])
        = infimum p.comp :: (recsOf K ++ a) ++ D ++ [supremum p.comp] := by simp
      _ = front ++ q :: D ++ [supremum p.comp] := by simp [hPrev]
  have hChained := hList ▸ h.directory.chained
  have hNodup := hList ▸ h.directory.nodup
  have hqD : q ∉ D := by
    have : (front ++ q :: D).Nodup := hNodup.of_append_left
    exact (nodup_cons.mp this.of_append_right).1
  have hRest : ∀ r ∈ front ++ q :: [supremum p.comp], r ≠ last := by
    rintro r hr rfl
    have hOnce : (r :: (front ++ q :: w ++ [supremum p.comp])).Nodup := by
      rw [hLast] at hNodup
      refine nodup_middle.mp ?_
      simpa using hNodup
    refine (nodup_cons.mp hOnce).1 ?_
    simp only [mem_append, mem_cons] at hr ⊢
    tauto
  have hSupremum : supremum p.comp ∉ front ++ q :: D := fun hMem =>
    disjoint_of_nodup_append hNodup hMem (mem_singleton_self _)
  have hBefore : ∀ r ∈ infimum p.comp :: (recsOf K ++ a), r ≠ supremum p.comp := by
    rintro r hr rfl
    rw [hPrev] at hr
    exact hSupremum (by simp only [mem_append, mem_cons] at hr ⊢; tauto)
  have hOwned := h.directory.owned ⟨a ++ b, o⟩ (by simp)
  have hSized := h.sized
  simp only [forall_mem_append, forall_mem_singleton] at hSized
  unfold Page.cut
  constructor
  · have hGroups : Directory p (⟨[], infimum p.comp⟩ :: K ++ ([⟨a ++ b, o⟩] ++ G₂) ++ []) := by
      simpa using h.directory
    have hRecs : recsOf (⟨[], infimum p.comp⟩ :: K ++ [⟨a, supremum p.comp⟩] ++ []) =
        front ++ q :: [supremum p.comp] := by
      calc recsOf (⟨[], infimum p.comp⟩ :: K ++ [⟨a, supremum p.comp⟩] ++ [])
          = infimum p.comp :: (recsOf K ++ a) ++ [supremum p.comp] := by simp [members]
        _ = front ++ q :: [supremum p.comp] := by simp [hPrev]
    rw [← append_nil (_ :: (K ++ _)), ← cons_append]
    refine hGroups.replace ?_ ?_ ?_ ?_ ?_ ?_ ?_
    · rw [hRecs]
      refine (hChained.cut hNodup).congr_all fun r hr => ?_
      exact update_of_ne (hRest r hr) ..
    · rw [hRecs]
      exact hNodup.sublist (by simp)
    · simp
    · have hOld := hGroups.slots
      simp only [SlotsAt.append, SlotsAt, append_nil, zero_add, length_cons] at hOld ⊢
      obtain ⟨⟨hFirst, hBelow⟩, -⟩ := hOld
      refine ⟨⟨(update_of_ne (by omega) ..).trans hFirst, hBelow.move fun k hk => ?_⟩, by simp, trivial⟩
      exact update_of_ne (by omega) ..
    · rintro r (hr | hr)
      · refine update_of_ne (hBefore r ?_) ..
        simp only [recsOf_cons, members, nil_append, singleton_append, mem_cons] at hr ⊢
        exact hr.imp_right (mem_append_left a)
      · simp at hr
    · simp [size]
    · intro g hg r hr
      obtain rfl := mem_singleton.mp hg
      have hNe := hBefore r (mem_cons_of_mem _ (mem_append_right _ hr))
      exact (update_of_ne hNe ..).trans (hOwned r (mem_append_left b hr))
  · simp [members]
  · refine forall_mem_append.mpr ⟨hSized.1.1, forall_mem_singleton.mpr ⟨?_, fun hNe => absurd rfl hNe⟩⟩
    have := hSized.1.2.1
    simp only [size, length_append] at this ⊢
    omega
  · have hDeleted : Chained (update p.next q (supremum p.comp)) D := by
      have hOld : Chained p.next D := IsChain.tail hChained.left.right
      refine hOld.congr_all fun r hr => ?_
      exact update_of_ne (ne_of_mem_of_not_mem hr hqD) ..
    have hq : q ∉ freed := by
      refine h.notMem_freed ?_
      rw [← cons_append, hPrev]
      simp
    exact (h.heap.perm perm_append_comm).release hDeleted hLast hq rfl hHead rfl rfl rfl rfl rfl rfl rfl
  · exact h.infimumNo
  · exact h.supremumNo

end

end Cut

/-- The record before the supremum is the last one of the list. -/
theorem Shape.search_supremum {groups : List Group} (h : Shape fmt p groups live freed) :
    ∃ front q, infimum p.comp :: live = front ++ [q] ∧ pageRecGetPrev p (supremum p.comp) = some q := by
  obtain ⟨K, a, b, o, G₂, rfl, hLive, hv⟩ := h.locate (append_nil live).symm
  have hFirst : (b ++ [o]).head? = some (supremum p.comp) := by
    have := congrArg head? hv
    simpa [head?_append] using this.symm
  subst hLive
  have hSame : Shape fmt p (K ++ [⟨a ++ b, o⟩] ++ G₂) (recsOf K ++ a ++ []) freed := by simpa using h
  exact (hSame.search hFirst).2

theorem Shape.givenOrSummed_eq {groups : List Group} {u v : List Nat} {r : Nat} {nRecs size : Option Nat}
    (h : Shape fmt p groups (u ++ v) freed) (hHead : (v ++ [supremum p.comp]).head? = some r)
    (hRecs : ∀ n ∈ nRecs, n = v.length) (hSize : ∀ s ∈ size, s = sizesOf fmt p v) :
    givenOrSummed fmt p r nRecs size = some (v.length, sizesOf fmt p v) := by
  obtain ⟨hWalk, hNot⟩ := h.walk_from hHead
  have hSum : sumSizesLoop fmt p univPageSize r 0 0 = _ := sumSizesLoop_eq hWalk hNot
  rw [zero_add, zero_add] at hSum
  cases nRecs with
  | none => exact hSum
  | some n =>
    cases size with
    | none => exact hSum
    | some s => rw [givenOrSummed, hRecs n rfl, hSize s rfl]

theorem Shape.setLastInsert {groups : List Group} (h : Shape fmt p groups live freed) (r : Nat) :
    Shape fmt { p with lastInsert := r } groups live freed where
  directory := ⟨h.directory.chained, h.directory.nodup, h.directory.nDirSlots, h.directory.slots,
    h.directory.owners, h.directory.owned⟩
  recs := h.recs
  sized := h.sized
  heap := h.heap.congr ⟨rfl, rfl, rfl, rfl, rfl, rfl, rfl, rfl, rfl⟩
  infimumNo := h.infimumNo
  supremumNo := h.supremumNo

/-- `page_delete_rec_list_end` returns and moves the end `v` of the list to the free list. -/
theorem Shape.deleteListEnd {groups : List Group} {u v : List Nat} {r : Nat} {nRecs size : Option Nat}
    (h : Shape fmt p groups (u ++ v) freed)
    (hHead : (v ++ [supremum p.comp]).head? = some (if r = infimum p.comp then p.next r else r))
    (hRecs : ∀ n ∈ nRecs, n = v.length) (hSize : ∀ s ∈ size, s = sizesOf fmt p v) :
    ∃ p' groups', pageDeleteRecListEnd fmt p r nRecs size = some p' ∧ p'.body = p.body ∧
      Shape fmt p' groups' u (v ++ freed) := by
  have h' := h.setLastInsert 0
  rw [pageDeleteRecListEnd]
  cases v with
  | nil =>
    have hEnd : (if r = infimum p.comp then p.next r else r) = supremum p.comp := by simpa using hHead.symm
    refine ⟨_, groups, if_pos hEnd, rfl, ?_⟩
    simpa using h'
  | cons x v =>
    have hx : (if r = infimum p.comp then p.next r else r) = x := by simpa using hHead.symm
    have hNe : x ≠ supremum p.comp := h.ne_supremum (by simp)
    obtain ⟨w, last, hLast⟩ := (eq_nil_or_concat' (x :: v)).resolve_left (cons_ne_nil x v)
    obtain ⟨K, a, b, o, G₂, rfl, rfl, hv⟩ := h.locate rfl
    have hFirst : (b ++ [o]).head? = some x := by
      have := congrArg head? hv
      simpa [head?_append] using this.symm
    obtain ⟨-, front, q, hFront, hPrev⟩ := h'.search hFirst
    obtain ⟨front', q', hFront', hPrev'⟩ := h'.search_supremum
    obtain rfl : q' = last := by
      rw [hLast, ← append_assoc, ← cons_append] at hFront'
      obtain ⟨-, hEq⟩ := append_inj' hFront' rfl
      simpa using hEq.symm
    have hGiven := h'.givenOrSummed_eq rfl hRecs hSize
    have hCut := h'.cut rfl hLast hFront
    refine ⟨_, _, ?_, by rfl, hCut⟩
    rw [if_neg (by rw [hx]; exact hNe)]
    simp only [hx, hPrev, hPrev', hGiven, Option.bind_some]
    exact cutList_eq h' hFirst _

end MySQL.Innobase.Index
