import MySQL.Innobase.Index.ListEnd

/-! What holds of an index page from `page_create` on, through any inserts and deletes. -/
namespace MySQL.Innobase.Index

open List Library MySQL.Innobase.Index.Group

variable {β : Type} {fmt : Format β} {p p' : Page β} {groups : List Group} {live freed : List Nat}

def recordList (p : Page β) : List Nat := infimum p.comp :: userRecs p ++ [supremum p.comp]

/-- An index page in order: the record list, the directory and the heap agree with each other and
with the page header. -/
structure WellFormed (fmt : Format β) (p : Page β) : Prop where
  chained : Chained p.next (recordList p)
  nodup : (recordList p).Nodup
  nRecs : (userRecs p).length = p.nRecs
  slots : (List.range p.nDirSlots).map p.slot = (recordList p).filter fun r => 0 < p.nOwned r
  counts : ∀ i, i + 1 < p.nDirSlots →
    (recordList p).idxOf (p.slot (i + 1)) = (recordList p).idxOf (p.slot i) + p.slotNOwned (i + 1)
  infimumOwns : p.nOwned (infimum p.comp) = 1
  supremumOwns : 1 ≤ p.nOwned (supremum p.comp) ∧ p.nOwned (supremum p.comp) ≤ 8
  othersOwn : ∀ i, 0 < i → i + 1 < p.nDirSlots → 4 ≤ p.slotNOwned i ∧ p.slotNOwned i ≤ 8
  heapNos : ((recordList p).map p.heapNo).Nodup
  heapNo_lt : ∀ r ∈ recordList p, p.heapNo r < p.nHeap
  sizes : ((userRecs p).map (fmt.size ∘ p.body)).sum + p.garbage = p.heapTop - supremumEnd p.comp
  apart : (userRecs p).Pairwise (Apart fmt p.body)
  inside : ∀ r ∈ userRecs p, supremumEnd p.comp + fmt.extraSize (p.body r) ≤ r ∧
    r + fmt.dataSize (p.body r) ≤ p.heapTop
  directoryAbove : p.heapTop + pageDirSlotSize * p.nDirSlots + pageDir ≤ univPageSize

section Directory

variable {G G₁ G₂ : List Group} {g : Group}

theorem Directory.map_slot (h : Directory p G) : (List.range p.nDirSlots).map p.slot = G.map owner := by
  apply ext_getElem?
  intro i
  by_cases hi : i < G.length
  · rw [h.slots.getElem? hi, h.nDirSlots]
    simp [hi]
  · simp [h.nDirSlots, hi]

theorem Directory.filter_owners (h : Directory p G) :
    (recsOf G).filter (fun r => 0 < p.nOwned r) = G.map owner := by
  have hOwners := h.owners
  have hOwned := h.owned
  clear h
  induction G with
  | nil => rfl
  | cons g G ih =>
    obtain ⟨hOwner, hRest⟩ := forall_mem_cons.mp hOwners
    obtain ⟨hFront, hRest'⟩ := forall_mem_cons.mp hOwned
    have hNone : g.front.filter (fun r => 0 < p.nOwned r) = [] := by
      refine filter_eq_nil_iff.mpr fun r hr => ?_
      simp [hFront r hr]
    rw [recsOf_cons, filter_append, ih hRest hRest', members, filter_append, hNone]
    simp [hOwner, size]

theorem Directory.idxOf_owner (h : Directory p (G₁ ++ g :: G₂)) :
    (recsOf (G₁ ++ g :: G₂)).idxOf g.owner = (recsOf G₁).length + g.front.length := by
  have hRecs : recsOf (G₁ ++ g :: G₂) = recsOf G₁ ++ g.front ++ g.owner :: recsOf G₂ := by
    simp [members]
  have hNodup := hRecs ▸ h.nodup
  have hNotMem : g.owner ∉ recsOf G₁ ++ g.front := fun hMem =>
    disjoint_of_nodup_append hNodup hMem mem_cons_self
  rw [hRecs, idxOf_append_of_notMem hNotMem, idxOf_cons_self, length_append, add_zero]

end Directory

theorem exists_split {α : Type} {l : List α} {i : Nat} (hi : i < l.length) :
    ∃ l₁ a l₂, l = l₁ ++ a :: l₂ ∧ l₁.length = i :=
  ⟨l.take i, l[i], l.drop (i + 1), by simp, by simp; omega⟩

namespace Shape

variable (h : Shape fmt p groups live freed)
include h

theorem recordList_eq : recordList p = recsOf (⟨[], infimum p.comp⟩ :: groups) := by
  rw [recordList, h.userRecs_eq, recsOf_cons, h.recs]
  rfl

theorem counts {i : Nat} (hi : i + 1 < p.nDirSlots) :
    (recordList p).idxOf (p.slot (i + 1)) = (recordList p).idxOf (p.slot i) + p.slotNOwned (i + 1) := by
  have hDirectory := h.directory
  rw [h.recordList_eq]
  generalize (⟨[], infimum p.comp⟩ :: groups) = G at hDirectory
  rw [hDirectory.nDirSlots] at hi
  obtain ⟨A, g', B, rfl, hA⟩ := exists_split hi
  obtain rfl | ⟨A, g, rfl⟩ := eq_nil_or_concat' A
  · simp at hA
  have hLower : Directory p (A ++ g :: g' :: B) := by simpa using hDirectory
  rw [length_append, length_singleton, Nat.add_right_cancel_iff] at hA
  subst hA
  have hUpper := hDirectory.slot_eq
  rw [length_append, length_singleton] at hUpper
  rw [Page.slotNOwned, hUpper, hDirectory.idxOf_owner, hLower.slot_eq, hDirectory.owners g' (by simp)]
  have hSame : recsOf (A ++ [g] ++ g' :: B) = recsOf (A ++ g :: g' :: B) := by simp
  rw [hSame, hLower.idxOf_owner]
  simp only [recsOf_append, recsOf_cons, recsOf_nil, members, size, length_append,
    length_singleton, append_nil]
  omega

theorem othersOwn {i : Nat} (hPos : 0 < i) (hi : i + 1 < p.nDirSlots) :
    4 ≤ p.slotNOwned i ∧ p.slotNOwned i ≤ 8 := by
  have hCount := h.directory.nDirSlots
  rw [length_cons] at hCount
  obtain ⟨i, rfl⟩ := Nat.exists_eq_add_one_of_ne_zero (Nat.ne_of_gt hPos)
  obtain ⟨K, g, B, rfl, hK⟩ := exists_split (l := groups) (i := i) (by omega)
  have hB : B ≠ [] := by
    rintro rfl
    simp at hCount
    omega
  have hShape : Shape fmt p (K ++ [g] ++ B) live freed := by simpa using h
  have hSized := h.sized g (by simp)
  have hOwner : g.owner ≠ supremum p.comp := fun hEq => hB (hShape.owner_eq_supremum_iff.mp hEq)
  have hSlot : p.slot (i + 1) = g.owner := by
    have hDirectory : Directory p (⟨[], infimum p.comp⟩ :: K ++ g :: B) := h.directory
    rw [← hK]
    exact hDirectory.slot_eq
  rw [Page.slotNOwned, hSlot, h.directory.owners g (by simp)]
  exact ⟨hSized.2 hOwner, hSized.1⟩

theorem supremumOwns : 1 ≤ p.nOwned (supremum p.comp) ∧ p.nOwned (supremum p.comp) ≤ 8 := by
  obtain ⟨K, a, b, o, G₂, rfl, -, hv⟩ := h.locate (append_nil live).symm
  have hOwner : o = supremum p.comp := by
    cases b with
    | nil => exact (cons.inj hv).1.symm
    | cons c b => simp at hv
  have hSized := (h.sized ⟨a ++ b, o⟩ (by simp)).1
  rw [← hOwner, h.directory.owners ⟨a ++ b, o⟩ (by simp)]
  exact ⟨Nat.succ_le_succ (Nat.zero_le _), hSized⟩

/-- The directory has room above the heap: each slot but two owns four records, and the heap
leaves room for a slot for every four records. -/
theorem directoryAbove : p.heapTop + pageDirSlotSize * p.nDirSlots + pageDir ≤ univPageSize := by
  obtain rfl | ⟨M, last, rfl⟩ := eq_nil_or_concat' groups
  · have := h.recs
    simp at this
  have hFour : ∀ g ∈ M, 4 ≤ g.size := by
    intro g hg
    obtain ⟨M₁, M₂, rfl⟩ := append_of_mem hg
    have hShape : Shape fmt p (M₁ ++ [g] ++ (M₂ ++ [last])) live freed := by simpa using h
    refine (h.sized g (by simp)).2 fun hEq => ?_
    simpa using hShape.owner_eq_supremum_iff.mp hEq
  have hRecs : 4 * M.length ≤ (recsOf M).length := by
    clear h
    induction M with
    | nil => simp
    | cons g M ih =>
      obtain ⟨hg, hM⟩ := forall_mem_cons.mp hFour
      have := ih hM
      rw [recsOf_cons, length_append, length_members, length_cons]
      omega
  have hLength := congrArg length h.recs
  have hCount := h.directory.nDirSlots
  have hRoom := h.heap.room
  have hHeap := h.heap.nHeap
  simp only [recsOf_append, recsOf_cons, recsOf_nil, length_append, length_nil,
    length_cons, length_members, size, append_nil] at hLength hCount
  simp only [pageDirCalcReservedSpace, pageDirSlotSize, pageDirSlotMinNOwned, pageDir, univPageSize] at *
  omega

theorem heapNos : ((recordList p).map p.heapNo).Nodup ∧ ∀ r ∈ recordList p, p.heapNo r < p.nHeap := by
  have hNumbered : ∀ r ∈ live, 2 ≤ p.heapNo r ∧ p.heapNo r < p.nHeap := fun r hr =>
    h.heap.blocks.numbered r (mem_append_left freed hr)
  have hDistinct : (live.map p.heapNo).Nodup := by
    have := h.heap.blocks.distinct
    rw [map_append] at this
    exact this.of_append_left
  have hHeap := h.heap.nHeap
  rw [recordList, h.userRecs_eq]
  constructor
  · rw [cons_append, map_cons, map_append, map_singleton, h.infimumNo, h.supremumNo]
    refine nodup_cons.mpr ⟨?_, nodup_append.mpr ⟨hDistinct, nodup_singleton 1, ?_⟩⟩
    · simp only [mem_append, mem_map, mem_singleton]
      rintro (⟨r, hr, hZero⟩ | hZero)
      · have := hNumbered r hr
        omega
      · omega
    · rintro n hn m hm rfl
      obtain ⟨r, hr, rfl⟩ := mem_map.mp hn
      have := hNumbered r hr
      rw [mem_singleton.mp hm] at this
      omega
  · intro r hr
    simp only [cons_append, mem_cons, mem_append, not_mem_nil, or_false] at hr
    rcases hr with rfl | hr | rfl
    · rw [h.infimumNo]
      omega
    · exact (hNumbered r hr).2
    · rw [h.supremumNo]
      omega

theorem wellFormed : WellFormed fmt p where
  chained := h.recordList_eq ▸ h.directory.chained
  nodup := h.recordList_eq ▸ h.directory.nodup
  nRecs := by rw [h.userRecs_eq, h.heap.nRecs]
  slots := by rw [h.recordList_eq, h.directory.map_slot, h.directory.filter_owners]
  counts i hi := h.counts hi
  infimumOwns := h.directory.owners ⟨[], infimum p.comp⟩ (by simp)
  supremumOwns := h.supremumOwns
  othersOwn i hPos hi := h.othersOwn hPos hi
  heapNos := h.heapNos.1
  heapNo_lt := h.heapNos.2
  sizes := by
    have := h.heap.heapTop
    rw [sizesOf] at this
    rw [h.userRecs_eq]
    omega
  apart := by
    rw [h.userRecs_eq]
    exact (pairwise_append.mp h.heap.blocks.apart).1
  inside r hr := by
    rw [h.userRecs_eq] at hr
    exact h.heap.blocks.inside r (mem_append_left freed hr)
  directoryAbove := h.directoryAbove

end Shape

theorem system_step (fmt : Format β) (p : Page β) (call : Call β) :
    (system fmt).step p call = if call.Allowed fmt p then call.apply fmt p else none := rfl

theorem pageCreate_shape (frame : Page β) (comp : Bool) (infimumBody supremumBody : β) :
    Shape fmt (pageCreate frame comp infimumBody supremumBody) [⟨[], supremum comp⟩] [] [] := by
  have hNe : infimum comp ≠ supremum comp := by cases comp <;> decide
  have hDirectory : Directory (pageCreate frame comp infimumBody supremumBody)
      [⟨[], infimum comp⟩, ⟨[], supremum comp⟩] := by
    refine ⟨?_, ?_, rfl, ?_, ?_, ?_⟩
    · exact Chained.cons_cons.mpr ⟨by simp [pageCreate, hNe], Chained.singleton _⟩
    · simp [members, hNe]
    · simp [SlotsAt, pageCreate]
    · simp [pageCreate, size, hNe]
    · simp
  refine ⟨hDirectory, rfl, ?_, ⟨⟨?_, ?_, ?_, ?_⟩, ?_, ?_, ?_, ?_, ?_, ?_, ?_⟩, ?_, ?_⟩
  all_goals first
    | exact Chained.singleton 0
    | simp [pageCreate, Sized, size, sizesOf, pageDirSlotMaxNOwned, hNe]
  cases comp <;> decide

/-- Where `page_delete_rec_list_end` cuts the list -/
theorem Shape.exists_cut (h : Shape fmt p groups live freed) {r : Nat}
    (hr : r ∈ infimum p.comp :: live ++ [supremum p.comp]) :
    ∃ u v, live = u ++ v ∧
      (v ++ [supremum p.comp]).head? = some (if r = infimum p.comp then p.next r else r) := by
  simp only [cons_append, mem_cons, mem_append, not_mem_nil, or_false] at hr
  rcases hr with rfl | hr | rfl
  · exact ⟨[], live, rfl, by rw [if_pos rfl, h.next_infimum]⟩
  · have hNe : r ≠ infimum p.comp := by
      have := h.heap.blocks.above_supremum (mem_append_left freed hr)
      have := infimum_lt p.comp
      omega
    obtain ⟨u, v, rfl⟩ := append_of_mem hr
    exact ⟨u, r :: v, rfl, by rw [if_neg hNe]; rfl⟩
  · have hNe : supremum p.comp ≠ infimum p.comp := by cases p.comp <;> decide
    exact ⟨live, [], by simp, by rw [if_neg hNe]; rfl⟩

def contents (p : Page β) : List (Nat × β) := (userRecs p).map fun r => (r, p.body r)

/-- What a call does to the list of the records and their contents: an insert is refused only if the
heap has no room, and else the record follows the cursor. -/
def Call.Effect (fmt : Format β) (p p' : Page β) : Call β → Prop
  | .insert cursor body =>
    (p' = p ∧ pageGetMaxInsertSize p 1 < fmt.size body) ∨
      ∃ u x v, contents p = u ++ v ∧ (infimum p.comp :: u.map Prod.fst).getLast? = some cursor ∧
        contents p' = u ++ (x, body) :: v
  | .delete r => ∃ u body v, contents p = u ++ (r, body) :: v ∧ contents p' = u ++ v
  | .deleteListEnd r _ _ => ∃ v, contents p = contents p' ++ v ∧
      (v.map Prod.fst ++ [supremum p.comp]).head? = some (if r = infimum p.comp then p.next r else r)

theorem Shape.contents_eq (h : Shape fmt p groups live freed) : contents p = live.map fun r => (r, p.body r) := by
  rw [contents, h.userRecs_eq]

theorem map_fst_body (p : Page β) (l : List Nat) : (l.map fun r => (r, p.body r)).map Prod.fst = l := by
  simp [Function.comp_def]

theorem Shape.step_effect (h : Shape fmt p groups live freed) {call : Call β}
    (hAllowed : call.Allowed fmt p) : ∃ p' groups' live' freed',
      call.apply fmt p = some p' ∧ call.Effect fmt p p' ∧ Shape fmt p' groups' live' freed' := by
  have hOld := h.contents_eq
  cases call with
  | insert cursor body =>
    have hCursor : cursor ∈ infimum p.comp :: live := h.userRecs_eq ▸ hAllowed
    obtain ⟨s, t, hst⟩ := append_of_mem hCursor
    obtain ⟨u, hFront, rfl⟩ : ∃ u, infimum p.comp :: u = s ++ [cursor] ∧ live = u ++ t := by
      cases s with
      | nil =>
        obtain ⟨rfl, rfl⟩ := cons.inj hst
        exact ⟨[], rfl, rfl⟩
      | cons c s =>
        obtain ⟨rfl, rfl⟩ := cons.inj hst
        exact ⟨s ++ [cursor], rfl, by simp⟩
    rcases h.insert hFront body with ⟨hFull, hRoom⟩ | ⟨x, p', groups', freed', hInsert, hBody, hShape⟩
    · exact ⟨p, groups, _, freed, by rw [Call.apply, hFull, Option.map_some], .inl ⟨rfl, hRoom⟩, h⟩
    refine ⟨p', groups', _, freed', by rw [Call.apply, hInsert, Option.map_some], .inr ?_, hShape⟩
    rw [map_append] at hOld
    refine ⟨_, x, _, hOld, ?_, ?_⟩
    · rw [map_fst_body, hFront, getLast?_concat]
    · have hNew : x ∉ u ++ t := by
        have := hShape.heap.blocks.nodup.of_append_left
        exact (nodup_cons.mp (perm_middle.nodup_iff.mp this)).1
      have hSame : ∀ r ∈ u ++ t, (r, p'.body r) = (r, p.body r) := fun r hr => by
        rw [hBody, Function.update_of_ne (ne_of_mem_of_not_mem hr hNew)]
      rw [hShape.contents_eq, map_append, map_cons, map_congr_left fun r hr => hSame r (mem_append_left t hr),
        map_congr_left fun r hr => hSame r (mem_append_right u hr), hBody, Function.update_self]
  | delete r =>
    have hMem : r ∈ live := h.userRecs_eq ▸ hAllowed
    obtain ⟨u, v, rfl⟩ := append_of_mem hMem
    obtain ⟨p', groups', hDelete, -, hBody, hShape⟩ := h.delete
    rw [map_append] at hOld
    refine ⟨p', groups', _, _, hDelete, ⟨_, _, _, hOld, ?_⟩, hShape⟩
    rw [hShape.contents_eq, hBody, map_append]
  | deleteListEnd r nRecs size =>
    obtain ⟨hMem, hRecs, hSize⟩ := hAllowed
    rw [h.userRecs_eq] at hMem
    obtain ⟨u, v, rfl, hHead⟩ := h.exists_cut hMem
    rw [h.recsFrom_eq hHead] at hRecs hSize
    obtain ⟨p', groups', hDelete, hBody, hShape⟩ := h.deleteListEnd hHead hRecs hSize
    refine ⟨p', groups', _, _, hDelete, ⟨v.map fun r => (r, p.body r), ?_, ?_⟩, hShape⟩
    · rw [hShape.contents_eq, hOld, hBody, map_append]
    · rw [map_fst_body, hHead]

/-- Every call a caller may make returns, and it leaves the page in order. -/
theorem Shape.step (h : Shape fmt p groups live freed) {call : Call β} (hAllowed : call.Allowed fmt p) :
    ∃ p' groups' live' freed', call.apply fmt p = some p' ∧ Shape fmt p' groups' live' freed' := by
  obtain ⟨p', groups', live', freed', hApply, -, h'⟩ := h.step_effect hAllowed
  exact ⟨p', groups', live', freed', hApply, h'⟩

/-- The groups, the live records and the freed ones go with the page through a whole run. -/
theorem shape_of_reachable (frame : Page β) (comp : Bool) (infimumBody supremumBody : β)
    (hRun : (system fmt).Reachable (pageCreate frame comp infimumBody supremumBody) p) :
    ∃ groups live freed, Shape fmt p groups live freed := by
  refine hRun.invariant (fun p => ∃ groups live freed, Shape fmt p groups live freed)
    ⟨_, _, _, pageCreate_shape frame comp infimumBody supremumBody⟩ ?_
  rintro a call b ⟨groups, live, freed, h⟩ - hStep
  obtain ⟨hAllowed, hApply⟩ := Option.ite_none_right_eq_some.mp hStep
  obtain ⟨p', groups', live', freed', hApply', h'⟩ := h.step hAllowed
  obtain rfl := Option.some.inj (hApply.symm.trans hApply')
  exact ⟨groups', live', freed', h'⟩

/-- From `page_create` on, through all inserts and deletes of records of any sizes, the page is in
order, and every further call returns. -/
theorem page_wellFormed (fmt : Format β) (frame : Page β) (comp : Bool) (infimumBody supremumBody : β)
    (hRun : (system fmt).Reachable (pageCreate frame comp infimumBody supremumBody) p) :
    WellFormed fmt p ∧ ∀ call : Call β, call.Allowed fmt p → ((system fmt).step p call).isSome := by
  obtain ⟨groups, live, freed, h⟩ := shape_of_reachable frame comp infimumBody supremumBody hRun
  refine ⟨h.wellFormed, fun call hAllowed => ?_⟩
  obtain ⟨p', groups', live', freed', hApply, -⟩ := h.step hAllowed
  rw [system_step, if_pos hAllowed, hApply]
  rfl

def plainFormat : Format Nat where
  extraSize _ := 6
  dataSize n := n
  header _ := by decide

def emptyFrame : Page Nat where
  comp := true
  nDirSlots := 0
  heapTop := 0
  nHeap := 0
  free := 0
  garbage := 0
  lastInsert := 0
  direction := .noDirection
  nDirection := 0
  nRecs := 0
  next _ := 0
  nOwned _ := 0
  heapNo _ := 0
  body _ := 0
  slot _ := 0

def someCalls : List (Call Nat) :=
  List.replicate 10 (.insert 99 4) ++ [.delete 136, .insert 126 2, .deleteListEnd 196 none none]

theorem page_wellFormed_someCalls :
    ∃ p, (system plainFormat).Reachable (pageCreate emptyFrame true 8 8) p ∧
      (userRecs p, p.garbage, p.heapTop) = ([216, 206], 80, 220) ∧ WellFormed plainFormat p ∧
      ∀ call : Call Nat, call.Allowed plainFormat p → ((system plainFormat).step p call).isSome := by
  have hExec : ((system plainFormat).exec (pageCreate emptyFrame true 8 8) someCalls).map
      (fun p => (userRecs p, p.garbage, p.heapTop)) = some ([216, 206], 80, 220) := by
    decide +kernel
  obtain ⟨p, hp, hData⟩ := Option.map_eq_some_iff.mp hExec
  have hRun := System.reachable_of_exec hp
  exact ⟨p, hRun, hData, page_wellFormed plainFormat emptyFrame true 8 8 hRun⟩

/-- A page refines the list of its records: whatever calls were made since `page_create`, the next one
returns, and apart from the record it puts in or the records it takes out, the list stays as it was. -/
theorem page_refines_contents (fmt : Format β) (frame : Page β) (comp : Bool) (infimumBody supremumBody : β)
    (hRun : (system fmt).Reachable (pageCreate frame comp infimumBody supremumBody) p) {call : Call β}
    (hAllowed : call.Allowed fmt p) :
    ∃ p', (system fmt).step p call = some p' ∧ call.Effect fmt p p' := by
  obtain ⟨groups, live, freed, h⟩ := shape_of_reachable frame comp infimumBody supremumBody hRun
  obtain ⟨p', groups', live', freed', hApply, hEffect, -⟩ := h.step_effect hAllowed
  exact ⟨p', by rw [system_step, if_pos hAllowed, hApply], hEffect⟩

theorem page_refines_contents_delete :
    ∃ p p', (system plainFormat).Reachable (pageCreate emptyFrame true 8 8) p ∧ 206 ∈ userRecs p ∧
      (system plainFormat).step p (.delete 206) = some p' ∧
      Call.Effect plainFormat p p' (.delete 206) := by
  have hExec : ((system plainFormat).exec (pageCreate emptyFrame true 8 8) someCalls).map userRecs =
      some [216, 206] := by decide +kernel
  obtain ⟨p, hp, hRecs⟩ := Option.map_eq_some_iff.mp hExec
  have hRun := System.reachable_of_exec hp
  have hMem : 206 ∈ userRecs p := by simp [hRecs]
  have hAllowed : (Call.delete 206).Allowed plainFormat p := hMem
  obtain ⟨p', hStep⟩ := page_refines_contents plainFormat emptyFrame true 8 8 hRun hAllowed
  exact ⟨p, p', hRun, hMem, hStep⟩

end MySQL.Innobase.Index
