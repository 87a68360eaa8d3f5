import MySQL.Innobase.Read.Visible

/-! The view of the purge: what it sees is seen by every open view, as long as the creator
of the oldest view has the id it had when it opened the view. -/
namespace MySQL.Innobase.Read

open Function List Library Option

structure Numbers (s : State) : Prop where
  listed : ∀ p ∈ s.sys.trxList, s.number (s.sys.trx p).id = (s.sys.trx p).no
  unused : ∀ t, s.sys.maxTrxId ≤ t → s.number t = ⊤
  ids_le : ∀ p, (s.sys.trx p).id ≤ s.sys.maxTrxId

structure ViewOk (s : State) (v : Nat) : Prop where
  wf : (s.sys.view v).Wf
  low_le : (s.sys.view v).lowLimitId ≤ s.sys.maxTrxId
  no_le : (s.sys.view v).lowLimitNo ≤ s.sys.maxTrxId
  creator_le : ∀ c, s.creatorId v = some c → c ≤ (s.sys.view v).lowLimitId
  creator : (s.sys.view v).creator = none → s.creatorId v = none
  only : ∀ t ∈ s.started, readViewSeesTrxId (s.sys.view v) t = true →
    s.creatorId v = some t ∨ t ∈ s.committed
  numbered : ∀ t ∈ s.started, s.number t < (s.sys.view v).lowLimitNo →
    t ∈ s.committed ∧ readViewSeesTrxId (s.sys.view v) t = true

/-- The newer view sees what the older one sees, but for the creator of the older one. -/
structure Above (s : State) (newer older : Nat) : Prop where
  sees : ∀ t ∈ s.started, readViewSeesTrxId (s.sys.view older) t = true → s.creatorId older ≠ some t →
    readViewSeesTrxId (s.sys.view newer) t = true
  numbered : ∀ t ∈ s.started, s.number t < (s.sys.view older).lowLimitNo →
    readViewSeesTrxId (s.sys.view newer) t = true

def State.readers (s : State) : List Nat := s.sys.viewList.filter fun v => some v ≠ s.sys.purgeView

structure Views (s : State) : Prop where
  nodup : s.sys.viewList.Nodup
  old : ∀ v ∈ s.sys.viewList, v < s.sys.views
  purge_old : ∀ v, s.sys.purgeView = some v → v < s.sys.views
  ok : ∀ v ∈ s.readers, ViewOk s v
  ordered : s.readers.Pairwise (Above s)

structure Later (s s' : State) : Prop where
  view : ∀ v < s.sys.views, s'.sys.view v = s.sys.view v
  creatorId : ∀ v < s.sys.views, s'.creatorId v = s.creatorId v
  maxTrxId : s.sys.maxTrxId ≤ s'.sys.maxTrxId
  committed : ∀ t ∈ s.committed, t ∈ s'.committed
  started : ∀ t ∈ s'.started, t ∈ s.started ∨ s.sys.maxTrxId ≤ t
  number : ∀ t ∈ s'.started, s'.number t = s.number t ∨ (s.sys.maxTrxId : WithTop Nat) ≤ s'.number t

namespace Later
variable {s s' : State} {v : Nat}

/-- Only transactions of before are seen, or have a small number. -/
theorem sees (hLater : Later s s') (h : ViewOk s v) {t : Nat} (ht : t ∈ s'.started)
    (hSees : readViewSeesTrxId (s.sys.view v) t = true) : t ∈ s.started := by
  rcases hLater.started t ht with hOld | hNew
  · exact hOld
  · exact absurd (le_trans h.low_le hNew) (Nat.not_le_of_lt ((h.wf.sees_iff t).mp hSees).1)

section
variable (hLater : Later s s') (hNumbers : Numbers s)
include hLater hNumbers

theorem numbered (h : ViewOk s v) {t : Nat} (ht : t ∈ s'.started)
    (hLess : s'.number t < (s.sys.view v).lowLimitNo) :
    t ∈ s.started ∧ s.number t < (s.sys.view v).lowLimitNo := by
  rcases hLater.number t ht with hSame | hNew
  · rw [hSame] at hLess
    refine ⟨?_, hLess⟩
    rcases hLater.started t ht with hOld | hNew
    · exact hOld
    · rw [hNumbers.unused t hNew] at hLess
      exact absurd hLess (not_top_lt)
  · exact absurd (lt_of_lt_of_le hLess h.no_le) (not_lt_of_ge hNew)

theorem viewOk (hv : v < s.sys.views) (h : ViewOk s v) : ViewOk s' v := by
  have hView := hLater.view v hv
  have hCreator := hLater.creatorId v hv
  refine ⟨?_, ?_, ?_, ?_, ?_, fun t ht hSees => ?_, fun t ht hLess => ?_⟩
  · rw [hView]
    exact h.wf
  · rw [hView]
    exact le_trans h.low_le hLater.maxTrxId
  · rw [hView]
    exact h.no_le.trans (WithTop.coe_le_coe.mpr hLater.maxTrxId)
  · rw [hView, hCreator]
    exact h.creator_le
  · rw [hView, hCreator]
    exact h.creator
  · rw [hView] at hSees
    rw [hCreator]
    exact (h.only t (hLater.sees h ht hSees) hSees).imp_right (hLater.committed t)
  · rw [hView] at hLess ⊢
    obtain ⟨hStarted, hLess⟩ := hLater.numbered hNumbers h ht hLess
    obtain ⟨hDone, hSees⟩ := h.numbered t hStarted hLess
    exact ⟨hLater.committed t hDone, hSees⟩

theorem above {newer older : Nat} (hNewer : newer < s.sys.views) (hOlder : older < s.sys.views)
    (hOk : ViewOk s older) (h : Above s newer older) : Above s' newer older := by
  refine ⟨fun t ht hSees hNot => ?_, fun t ht hLess => ?_⟩
  · rw [hLater.view older hOlder] at hSees
    rw [hLater.creatorId older hOlder] at hNot
    rw [hLater.view newer hNewer]
    exact h.sees t (hLater.sees hOk ht hSees) hSees hNot
  · rw [hLater.view older hOlder] at hLess
    rw [hLater.view newer hNewer]
    obtain ⟨hStarted, hLess⟩ := hLater.numbered hNumbers hOk ht hLess
    exact h.numbered t hStarted hLess

end

end Later

/-! ### Numbers along a run -/

structure SameNo (sys sys' : TrxSys) : Prop where
  trxList : sys'.trxList ⊆ sys.trxList
  maxTrxId : sys'.maxTrxId = sys.maxTrxId
  id : ∀ p, (sys'.trx p).id = (sys.trx p).id
  no : ∀ p, (sys'.trx p).no = (sys.trx p).no

namespace SameNo
variable {sys sys' : TrxSys}

theorem trans {sys'' : TrxSys} (h : SameNo sys sys') (h' : SameNo sys' sys'') : SameNo sys sys'' :=
  ⟨fun _ hp => h.trxList (h'.trxList hp), h'.maxTrxId.trans h.maxTrxId, fun p => (h'.id p).trans (h.id p),
    fun p => (h'.no p).trans (h.no p)⟩

/-- One transaction is replaced, and nothing else that matters. -/
theorem set {p : Nat} {trx : Trx} (hTrx : sys'.trx = update sys.trx p trx)
    (hList : sys'.trxList ⊆ sys.trxList) (hMax : sys'.maxTrxId = sys.maxTrxId)
    (hId : trx.id = (sys.trx p).id) (hNo : trx.no = (sys.trx p).no) : SameNo sys sys' := by
  refine ⟨hList, hMax, fun q => ?_, fun q => ?_⟩ <;>
  · rw [hTrx]
    rcases eq_or_ne q p with rfl | hNe
    · rw [update_self]
      assumption
    · rw [update_of_ne hNe]

theorem of_trx (hTrx : sys'.trx = sys.trx) (hList : sys'.trxList = sys.trxList)
    (hMax : sys'.maxTrxId = sys.maxTrxId) : SameNo sys sys' :=
  ⟨fun _ hp => hList ▸ hp, hMax, fun p => by rw [hTrx], fun p => by rw [hTrx]⟩

theorem trxCommitInMemory (sys : TrxSys) (p : Nat) : SameNo sys (trxCommitInMemory sys p) := by
  rw [Read.trxCommitInMemory]
  cases (sys.trx p).globalReadView <;> exact set rfl (fun _ hp => hp) rfl rfl rfl

theorem trxCommitFinish (sys : TrxSys) (p : Nat) : SameNo sys (trxCommitFinish sys p) :=
  set rfl (fun _ hq => mem_of_mem_erase hq) rfl rfl rfl

end SameNo

variable {s : State}

theorem Numbers.same (h : Numbers s) {sys : TrxSys} (hSame : SameNo s.sys sys)
    (started committed : List Nat) (opened : List Opened) (creatorId : Nat → Option Nat) :
    Numbers ⟨sys, started, committed, s.number, opened, creatorId⟩ := by
  refine ⟨fun p hp => ?_, fun t ht => ?_, fun p => ?_⟩
  · rw [hSame.id, hSame.no]
    exact h.listed p (hSame.trxList hp)
  · rw [hSame.maxTrxId] at ht
    exact h.unused t ht
  · rw [hSame.id, hSame.maxTrxId]
    exact h.ids_le p

def Call.takesId : Call → Bool
  | .start _ | .number _ => true
  | _ => false

variable {call : Call}

theorem sameNo_next (h : call.takesId = false) : SameNo s.sys (s.next call).sys := by
  cases call with
  | start p => exact absurd h (by simp [Call.takesId])
  | number p => exact absurd h (by simp [Call.takesId])
  | commit p =>
    rw [State.next, trxCommitOffKernel]
    split
    · exact .set rfl (fun _ hp => hp) rfl rfl rfl
    · exact (SameNo.trxCommitInMemory s.sys p).trans (.trxCommitFinish _ p)
  | commitInMemory p => exact .trxCommitInMemory s.sys p
  | finish p => exact .trxCommitFinish s.sys p
  | cleanup p => exact .trxCommitFinish s.sys p
  | assignReadView p =>
    rw [State.next, trxAssignReadView]
    split
    · exact .of_trx rfl rfl rfl
    · exact .set rfl (fun _ hp => hp) rfl rfl rfl
  | closeReadView p =>
    rw [State.next]
    cases (s.sys.trx p).globalReadView with
    | none => exact .of_trx rfl rfl rfl
    | some v => exact .set rfl (fun _ hp => hp) rfl rfl rfl
  | createCursorView p => exact .of_trx rfl rfl rfl
  | purge =>
    obtain ⟨hTrx, hList, hMax⟩ := purge_same s.sys
    exact .of_trx hTrx hList hMax
  | change | prepare | closeCursorView | setCursorView =>
    exact .set rfl (fun _ hp => hp) rfl rfl rfl

section
variable {s : State} {p : Nat}

/-- One transaction is replaced, with an id below the limit. -/
theorem Numbers.set {s' : State} {trx : Trx} (h : Numbers s) (hTrx : s'.sys.trx = update s.sys.trx p trx)
    (hMax : s.sys.maxTrxId ≤ s'.sys.maxTrxId) (hId : trx.id ≤ s'.sys.maxTrxId)
    (hUnused : ∀ t, s'.sys.maxTrxId ≤ t → s'.number t = ⊤)
    (hSelf : p ∈ s'.sys.trxList → s'.number trx.id = trx.no)
    (hOther : ∀ q ∈ s'.sys.trxList, q ≠ p →
      q ∈ s.sys.trxList ∧ s'.number (s.sys.trx q).id = s.number (s.sys.trx q).id) : Numbers s' := by
  refine ⟨fun q hq => ?_, hUnused, fun q => ?_⟩ <;>
  · rw [hTrx]
    rcases eq_or_ne q p with rfl | hNe
    · simp only [update_self]
      first
        | exact hSelf hq
        | exact hId
    · simp only [update_of_ne hNe]
      first
        | exact (hOther q hq hNe).2.trans (h.listed q (hOther q hq hNe).1)
        | exact (h.ids_le q).trans hMax

theorem Numbers.start (h : Numbers s) (hUser : (s.sys.trx p).type ≠ .purge)
    (started : List Nat) : Numbers { s with sys := trxStartLow s.sys p, started } := by
  rw [trxStartLow, if_neg hUser]
  exact h.set rfl (Nat.le_succ _) (Nat.le_succ _) (fun t ht => h.unused t (Nat.le_of_succ_le ht))
    (fun _ => h.unused _ (le_refl _)) fun q hq hNe => ⟨mem_of_ne_of_mem hNe hq, rfl⟩

section
variable (h : Numbers s) (hOrderly : Orderly s)
include h hOrderly

theorem Numbers.startPurge (hPurge : (s.sys.trx p).type = .purge) :
    Numbers { s with sys := trxStartLow s.sys p } := by
  have hNot : p ∉ s.sys.trxList := fun hMem =>
    absurd ((hOrderly.listed p).mp hMem).1 (by rw [hPurge]; decide)
  rw [trxStartLow, if_pos hPurge]
  exact h.set rfl (Nat.le_refl _) (Nat.zero_le _) h.unused (fun hp => absurd hp hNot) fun q hq _ => ⟨hq, rfl⟩

/-- A transaction on the list takes the next number. -/
theorem Numbers.take (hp : p ∈ s.sys.trxList) (hUpdate : (s.sys.trx p).updateUndo = true) :
    Numbers { s with
      sys := trxCommitNumber s.sys p
      number := update s.number (s.sys.trx p).id s.sys.maxTrxId } := by
  rw [trxCommitNumber, if_pos hUpdate]
  refine h.set rfl (Nat.le_succ _) (Nat.le_succ_of_le (h.ids_le p)) (fun t ht => ?_)
    (fun _ => update_self ..) fun q hq hNe => ⟨hq, ?_⟩
  · have hLt : s.sys.maxTrxId < t := ht
    have hNe : t ≠ (s.sys.trx p).id := Nat.ne_of_gt (lt_of_le_of_lt (h.ids_le p) hLt)
    exact (update_of_ne hNe ..).trans (h.unused t (le_of_lt hLt))
  · exact update_of_ne (fun hEq => hNe (hOrderly.eq_of_id hq hp hEq)) ..

end

end

theorem step_numbers (h : Numbers s) (hOrderly : Orderly s) (hStaged : Staged s.sys)
    (hAllowed : Allowed s call) : Numbers (s.next call) := by
  have hSame (hTakes : call.takesId = false) := @sameNo_next s call hTakes
  cases call with
  | start p =>
    rw [State.next]
    by_cases hPurge : (s.sys.trx p).type = .purge
    · rw [if_pos hPurge]
      exact h.startPurge hOrderly hPurge
    · rw [if_neg hPurge]
      exact h.start hPurge _
  | number p =>
    obtain ⟨hUser, hLive⟩ := (hStaged p).committing (.inl hAllowed)
    rw [State.next]
    by_cases hUpdate : (s.sys.trx p).updateUndo = true
    · rw [if_pos hUpdate]
      exact h.take hOrderly (hOrderly.mem hUser (by rw [hLive]; decide)) hUpdate
    · rw [if_neg hUpdate, trxCommitNumber, if_neg hUpdate]
      have hStage : SameNo s.sys (s.sys.setTrx p { s.sys.trx p with stage := .numbered }) :=
        .set rfl (fun _ hq => hq) rfl rfl rfl
      exact h.same hStage _ _ _ _
  | change | prepare | commit | commitInMemory | finish | cleanup | assignReadView | closeReadView
  | createCursorView | closeCursorView | setCursorView | purge => exact h.same (hSame rfl) _ _ _ _

/-! ### Views along a run -/

structure Closes (sys sys' : TrxSys) : Prop where
  view : sys'.view = sys.view
  views : sys'.views = sys.views
  viewList : sys'.viewList.Sublist sys.viewList
  purgeView : sys'.purgeView = sys.purgeView

def Call.opensView : Call → Bool
  | .assignReadView _ | .createCursorView _ | .purge => true
  | _ => false

theorem closes_next (h : call.opensView = false) : Closes s.sys (s.next call).sys := by
  have hMemory (p : Nat) : Closes s.sys (trxCommitInMemory s.sys p) := by
    rw [trxCommitInMemory]
    cases (s.sys.trx p).globalReadView with
    | none => exact ⟨rfl, rfl, Sublist.refl _, rfl⟩
    | some v => exact ⟨rfl, rfl, erase_sublist, rfl⟩
  cases call with
  | start p =>
    rw [State.next, trxStartLow]
    split <;> exact ⟨rfl, rfl, Sublist.refl _, rfl⟩
  | commit p =>
    rw [State.next, trxCommitOffKernel]
    split
    · exact ⟨rfl, rfl, Sublist.refl _, rfl⟩
    · exact ⟨(hMemory p).view, (hMemory p).views, (hMemory p).viewList, (hMemory p).purgeView⟩
  | number p =>
    rw [State.next, trxCommitNumber]
    split <;> exact ⟨rfl, rfl, Sublist.refl _, rfl⟩
  | commitInMemory p => exact hMemory p
  | closeReadView p =>
    rw [State.next]
    cases (s.sys.trx p).globalReadView with
    | none => exact ⟨rfl, rfl, Sublist.refl _, rfl⟩
    | some v => exact ⟨rfl, rfl, erase_sublist, rfl⟩
  | closeCursorView p v => exact ⟨rfl, rfl, erase_sublist, rfl⟩
  | change | prepare | finish | cleanup | setCursorView => exact ⟨rfl, rfl, Sublist.refl _, rfl⟩
  | assignReadView | createCursorView | purge => exact absurd h (by simp [Call.opensView])

theorem later_started {t : Nat} (ht : t ∈ (s.next call).started) :
    t ∈ s.started ∨ s.sys.maxTrxId ≤ t := by
  cases call with
  | start p =>
    rw [State.next] at ht
    split at ht
    · exact .inl ht
    · rcases mem_cons.mp ht with rfl | ht
      · exact .inr (le_refl _)
      · exact .inl ht
  | _ => exact .inl ht

theorem later_number (t : Nat) :
    (s.next call).number t = s.number t ∨ (s.sys.maxTrxId : WithTop Nat) ≤ (s.next call).number t := by
  cases call with
  | number p =>
    rw [State.next]
    split
    · rcases eq_or_ne t (s.sys.trx p).id with rfl | hNe
      · exact .inr (by simp)
      · exact .inl (by simp [hNe])
    · exact .inl rfl
  | _ => exact .inl rfl

theorem committed_subset_next {t : Nat} (ht : t ∈ s.committed) : t ∈ (s.next call).committed := by
  cases call with
  | commit p =>
    rw [State.next]
    split
    · exact ht
    · exact mem_cons_of_mem _ ht
  | commitInMemory p => exact mem_cons_of_mem _ ht
  | _ => exact ht

theorem creatorId_next {v : Nat} (hv : v < s.sys.views) :
    (s.next call).creatorId v = s.creatorId v := by
  cases call with
  | assignReadView p =>
    rw [State.next]
    split
    · rfl
    · exact update_of_ne (ne_of_lt hv) ..
  | createCursorView p => exact update_of_ne (ne_of_lt hv) ..
  | purge => exact update_of_ne (ne_of_lt hv) ..
  | _ => rfl

theorem views_closePurgeView (sys : TrxSys) : (closePurgeView sys).views = sys.views ∧
    (closePurgeView sys).view = sys.view := by
  rw [closePurgeView]
  split <;> exact ⟨rfl, rfl⟩

theorem view_next {v : Nat} (hv : v < s.sys.views) : (s.next call).sys.view v = s.sys.view v := by
  have hCloses (hOpens : call.opensView = false) := @closes_next s call hOpens
  cases call with
  | assignReadView p =>
    rw [State.next, trxAssignReadView]
    split
    · rfl
    · exact update_of_ne (ne_of_lt hv) ..
  | createCursorView p => exact update_of_ne (ne_of_lt hv) ..
  | purge =>
    obtain ⟨hViews, hView⟩ := views_closePurgeView s.sys
    have hNe : v ≠ (closePurgeView s.sys).views := by
      rw [hViews]
      exact ne_of_lt hv
    have hOpen : (readViewOldestCopyOrOpenNew (closePurgeView s.sys) none).2.view v =
        (closePurgeView s.sys).view v := by
      rw [readViewOldestCopyOrOpenNew]
      split <;> exact update_of_ne hNe ..
    exact hOpen.trans (congrFun hView v)
  | _ => exact congrFun (hCloses rfl).view v

theorem later_next (s : State) (call : Call) : Later s (s.next call) :=
  ⟨fun _ => view_next, fun _ => creatorId_next, maxTrxId_le_next s call, fun _ => committed_subset_next,
    fun _ => later_started, fun t _ => later_number t⟩

section
variable {s s' : State}

theorem Views.reader_old (h : Views s) {v : Nat} (hv : v ∈ s.readers) : v < s.sys.views :=
  h.old v (mem_filter.mp hv).1

section
variable (h : Views s) (hNumbers : Numbers s) (hLater : Later s s')
include h hNumbers hLater

theorem Views.viewOk_later : ∀ v ∈ s.readers, ViewOk s' v :=
  fun v hv => hLater.viewOk hNumbers (h.reader_old hv) (h.ok v hv)

theorem Views.ordered_later : s.readers.Pairwise (Above s') :=
  h.ordered.imp_of_mem fun hNewer hOlder hAbove =>
    hLater.above hNumbers (h.reader_old hNewer) (h.reader_old hOlder) (h.ok _ hOlder) hAbove

/-- The views that stay open. -/
theorem Views.closes (hCloses : Closes s.sys s'.sys) : Views s' := by
  have hReaders : s'.readers.Sublist s.readers := by
    rw [State.readers, hCloses.purgeView]
    exact hCloses.viewList.filter _
  refine ⟨h.nodup.sublist hCloses.viewList, fun v hv => ?_, fun v hv => ?_, fun v hv => ?_, ?_⟩
  · rw [hCloses.views]
    exact h.old v (hCloses.viewList.subset hv)
  · rw [hCloses.purgeView] at hv
    rw [hCloses.views]
    exact h.purge_old v hv
  · exact h.viewOk_later hNumbers hLater v (hReaders.subset hv)
  · exact (h.ordered_later hNumbers hLater).sublist hReaders

/-- A view at the front of the list. -/
theorem Views.opens (hList : s'.sys.viewList = s.sys.views :: s.sys.viewList)
    (hViews : s'.sys.views = s.sys.views + 1) (hPurge : s'.sys.purgeView = s.sys.purgeView)
    (hNew : ViewOk s' s.sys.views) (hAbove : ∀ v ∈ s.readers, Above s' s.sys.views v) :
    Views s' := by
  have hNot : some s.sys.views ≠ s.sys.purgeView := fun hEq =>
    lt_irrefl _ (h.purge_old _ hEq.symm)
  have hReaders : s'.readers = s.sys.views :: s.readers := by
    rw [State.readers, State.readers, hPurge, hList, filter_cons_of_pos (by simpa using hNot)]
  refine ⟨?_, fun v hv => ?_, fun v hv => ?_, fun v hv => ?_, ?_⟩
  · rw [hList, nodup_cons]
    exact ⟨fun hMem => lt_irrefl _ (h.old _ hMem), h.nodup⟩
  · rw [hList] at hv
    rw [hViews]
    rcases mem_cons.mp hv with rfl | hv
    · exact Nat.lt_succ_self _
    · exact Nat.lt_succ_of_lt (h.old v hv)
  · rw [hPurge] at hv
    rw [hViews]
    exact Nat.lt_succ_of_lt (h.purge_old v hv)
  · rw [hReaders] at hv
    rcases mem_cons.mp hv with rfl | hv
    · exact hNew
    · exact h.viewOk_later hNumbers hLater v hv
  · rw [hReaders]
    exact pairwise_cons.mpr ⟨hAbove, h.ordered_later hNumbers hLater⟩

end

/-- A transaction with a small number is committed. -/
theorem committed_of_number (hOrderly : Orderly s) (hStaged : Staged s.sys) (hNumbers : Numbers s) {p t : Nat}
    (hIdle : s.Idle p) (hSess : (s.sys.trx p).hasSess = true) (ht : t ∈ s.started)
    (hLess : s.number t < (s.sys.viewNow (some p)).lowLimitNo) : t ∈ s.committed := by
  by_contra hNot
  obtain ⟨q, hq, rfl, hLive⟩ := hOrderly.on_list t ht hNot
  rw [hNumbers.listed q hq] at hLess
  by_cases hEq : q = p
  · subst hEq
    obtain ⟨hUser, -⟩ := (hOrderly.listed q).mp hq
    rw [(hStaged q).unnumbered hSess (.inl hIdle) hUser hLive] at hLess
    exact not_top_lt hLess
  · have hActive : s.sys.isActiveFor (some p) q = true :=
      isActiveFor_iff.mpr ⟨fun hSome => hEq (some.inj hSome), hLive⟩
    exact not_lt_of_ge ((viewNow_lowLimitNo s.sys (some p)).2 q hq hActive) hLess

/-- What is opened now, by a transaction of a session. -/
theorem Views.opensNow (h : Views s) (hOrderly : Orderly s) (hStaged : Staged s.sys) (hNumbers : Numbers s)
    {p : Nat} (hIdle : s.Idle p) (hSess : (s.sys.trx p).hasSess = true) (hLater : Later s s')
    (hList : s'.sys.viewList = s.sys.views :: s.sys.viewList) (hViews : s'.sys.views = s.sys.views + 1)
    (hPurge : s'.sys.purgeView = s.sys.purgeView)
    (hView : s'.sys.view s.sys.views = s.sys.viewNow (some p))
    (hCreator : s'.creatorId s.sys.views = some (s.sys.trx p).id) (hStarted : s'.started = s.started)
    (hCommitted : s'.committed = s.committed) (hNumber : s'.number = s.number)
    (hMax : s'.sys.maxTrxId = s.sys.maxTrxId) : Views s' := by
  have hSees {t : Nat} (ht : t ∈ s.started) (hDone : t ∈ s.committed) :
      readViewSeesTrxId (s'.sys.view s.sys.views) t = true := by
    rw [hView]
    exact (hOrderly.viewNow_sees (some p) ht).mpr (.inl hDone)
  refine h.opens hNumbers hLater hList hViews hPurge ⟨?_, ?_, ?_, ?_, ?_, fun t ht hSeesT => ?_, fun t ht hLess => ?_⟩
    fun v hv => ⟨fun t ht hSeesT hNot => ?_, fun t ht hLess => ?_⟩
  · rw [hView]
    exact hOrderly.viewNow_wf (some p)
  · rw [hView, hMax]
    exact le_refl _
  · rw [hView, hMax]
    exact (viewNow_lowLimitNo s.sys (some p)).1
  · intro c hc
    rw [hCreator] at hc
    rw [hView, ← some.inj hc]
    exact hNumbers.ids_le p
  · intro hNone
    rw [hView] at hNone
    exact absurd hNone (some_ne_none p)
  · rw [hStarted] at ht
    rw [hView, hOrderly.viewNow_sees (some p) ht] at hSeesT
    rw [hCreator, hCommitted]
    rcases hSeesT with hDone | ⟨q, hq, -, -, hId⟩
    · exact .inr hDone
    · obtain rfl := some.inj hq
      exact .inl (congrArg some hId)
  · rw [hStarted] at ht
    rw [hNumber, hView] at hLess
    have hDone := committed_of_number hOrderly hStaged hNumbers hIdle hSess ht hLess
    exact ⟨by rw [hCommitted]; exact hDone, hSees ht hDone⟩
  · have hOld := h.reader_old hv
    rw [hStarted] at ht
    rw [hLater.view v hOld] at hSeesT
    rw [hLater.creatorId v hOld] at hNot
    exact hSees ht (((h.ok v hv).only t ht hSeesT).resolve_left hNot)
  · have hOld := h.reader_old hv
    rw [hStarted] at ht
    rw [hNumber, hLater.view v hOld] at hLess
    exact hSees ht ((h.ok v hv).numbered t ht hLess).1

end

theorem Views.viewList_closePurgeView (h : Views s) :
    (closePurgeView s.sys).viewList = s.readers := by
  rw [closePurgeView, State.readers]
  cases hPurge : s.sys.purgeView with
  | none =>
    refine (filter_eq_self.mpr fun v _ => ?_).symm
    exact decide_eq_true (some_ne_none v)
  | some v =>
    simp only [readViewClose]
    rw [h.nodup.erase_eq_filter]
    refine filter_congr fun w _ => ?_
    rw [Bool.eq_iff_iff, bne_iff_ne, decide_eq_true_iff, ne_eq, ne_eq, some.injEq]

/-- The view of the purge is the last one. -/
theorem openPurgeView_spec (sys : TrxSys) :
    (openPurgeView sys).viewList = sys.viewList ++ [sys.views] ∧
      (openPurgeView sys).views = sys.views + 1 ∧ (openPurgeView sys).purgeView = some sys.views := by
  rw [openPurgeView, readViewOldestCopyOrOpenNew]
  split
  · rename_i v sys' hEq
    split at hEq
    · rename_i hNone
      rw [getLast?_eq_none_iff] at hNone
      obtain ⟨rfl, rfl⟩ := Prod.mk.inj hEq
      refine ⟨?_, rfl, rfl⟩
      simp only [hNone, nil_append]
    · obtain ⟨rfl, rfl⟩ := Prod.mk.inj hEq
      exact ⟨rfl, rfl, rfl⟩

theorem Views.purge (h : Views s) (hNumbers : Numbers s) : Views (s.next .purge) := by
  have hLater := later_next s .purge
  have hList := h.viewList_closePurgeView
  obtain ⟨hNext, hViews, hPurge⟩ := openPurgeView_spec _
  rw [(views_closePurgeView s.sys).1, hList] at hNext
  rw [(views_closePurgeView s.sys).1] at hViews hPurge
  have hNew : s.sys.views ∉ s.readers := fun hMem => lt_irrefl _ (h.reader_old hMem)
  have hReaders : (s.next .purge).readers = s.readers := by
    have hKeep : s.readers.filter (fun v => some v ≠ some s.sys.views) = s.readers :=
      filter_eq_self.mpr fun v hv => decide_eq_true fun hEq => hNew (some.inj hEq ▸ hv)
    have hDrop : [s.sys.views].filter (fun v => some v ≠ some s.sys.views) = [] := by simp
    rw [State.readers]
    simp only [State.next, hPurge]
    rw [hNext, filter_append, hKeep, hDrop, append_nil]
  refine ⟨?_, fun v hv => ?_, fun v hv => ?_, fun v hv => ?_, ?_⟩
  · simp only [State.next]
    rw [hNext, nodup_append]
    refine ⟨h.nodup.filter _, nodup_singleton _, fun v hv w hw hEq => hNew ?_⟩
    rwa [← mem_singleton.mp hw, ← hEq]
  · simp only [State.next, hViews, hNext, mem_append, mem_singleton] at hv ⊢
    rcases hv with hOld | rfl
    · exact Nat.lt_succ_of_lt (h.reader_old hOld)
    · exact Nat.lt_succ_self _
  · simp only [State.next, hViews, hPurge] at hv ⊢
    rw [← some.inj hv]
    exact Nat.lt_succ_self _
  · rw [hReaders] at hv
    exact h.viewOk_later hNumbers hLater v hv
  · rw [hReaders]
    exact h.ordered_later hNumbers hLater

theorem step_views (h : Views s) (hOrderly : Orderly s) (hStaged : Staged s.sys)
    (hNumbers : Numbers s) (hAllowed : Allowed s call) : Views (s.next call) := by
  have hLater := later_next s call
  have hCloses (hOpens : call.opensView = false) : Views (s.next call) :=
    h.closes hNumbers hLater (closes_next hOpens)
  cases call with
  | assignReadView p =>
    obtain ⟨⟨hIdle, -⟩, hSess⟩ := hAllowed
    by_cases hHas : (s.sys.trx p).readView.isSome = true
    · have hSame : s.next (.assignReadView p) = s := by
        simp only [State.next, trxAssignReadView, if_pos hHas]
      rwa [hSame]
    · have hNext : s.next (.assignReadView p) = { s with
          sys := (readViewOpenNow s.sys (some p)).2.setTrx p
            { (readViewOpenNow s.sys (some p)).2.trx p with
              readView := some s.sys.views, globalReadView := some s.sys.views }
          opened := s.addOpened s.sys (some p), creatorId := s.setCreator p } := by
        simp only [State.next, trxAssignReadView, if_neg hHas]
        rfl
      rw [hNext] at hLater ⊢
      exact h.opensNow hOrderly hStaged hNumbers hIdle hSess hLater rfl rfl rfl
        (update_self ..) (update_self ..) rfl rfl rfl rfl
  | createCursorView p =>
    exact h.opensNow hOrderly hStaged hNumbers hAllowed.1 hAllowed.2.2 hLater rfl rfl rfl
      (update_self ..) (update_self ..) rfl rfl rfl rfl
  | purge => exact h.purge hNumbers
  | _ => exact hCloses rfl

/-! ### The view of the purge -/

/-- What the purge relies on: each transaction that its view sees, or that has a number
below its limit, is seen by every open view, and it does not see the creator of the oldest
view. -/
structure PurgeSafe (s : State) (purge : ReadView) : Prop where
  sees : ∀ t ∈ s.started, readViewSeesTrxId purge t = true →
    ∀ v ∈ s.sys.viewList, readViewSeesTrxId (s.sys.view v) t = true
  numbered : ∀ t ∈ s.started, s.number t < purge.lowLimitNo →
    ∀ v ∈ s.sys.viewList, readViewSeesTrxId (s.sys.view v) t = true
  creator : ∀ v, s.sys.viewList.getLast? = some v → ∀ c, s.creatorId v = some c →
    readViewSeesTrxId purge c = false

def State.closed (s : State) : State := { s with sys := closePurgeView s.sys }

def State.nextPurgeView (s : State) : ReadView :=
  (readViewOldestCopyOrOpenNew s.closed.sys none).2.view (readViewOldestCopyOrOpenNew s.closed.sys none).1

/-- The creator of the oldest view has the id that it had when it opened the view. -/
def State.KeepsCreator (s : State) : Prop :=
  ∀ v, s.closed.sys.viewList.getLast? = some v → ∀ p, (s.closed.sys.view v).creator = some p →
    s.creatorId v = some (s.closed.sys.trx p).id

theorem nextPurgeView_eq {old : Nat} (h : s.closed.sys.viewList.getLast? = some old) :
    s.nextPurgeView = s.closed.sys.viewCopy (s.closed.sys.view old) none := by
  rw [State.nextPurgeView, readViewOldestCopyOrOpenNew]
  simp only [h]
  exact update_self ..

theorem Views.purgeSafe (h : Views s) (hKeeps : s.KeepsCreator) :
    PurgeSafe s.closed s.nextPurgeView := by
  have hReaders : s.closed.sys.viewList = s.readers := h.viewList_closePurgeView
  have hView : s.closed.sys.view = s.sys.view := (views_closePurgeView s.sys).2
  cases hLast : s.closed.sys.viewList.getLast? with
  | none =>
    rw [getLast?_eq_none_iff] at hLast
    constructor <;> simp [hLast]
  | some old =>
    obtain ⟨front, hFront⟩ := getLast?_eq_some_iff.mp hLast
    have hOld : old ∈ s.readers := by
      rw [← hReaders, hFront]
      simp
    have hOk := h.ok old hOld
    have hId (p : Nat) (hp : (s.sys.view old).creator = some p) :
        s.creatorId old = some (s.closed.sys.trx p).id := by
      refine hKeeps old hLast p ?_
      rw [hView]
      exact hp
    have hCopy (t : Nat) : readViewSeesTrxId s.nextPurgeView t = true ↔
        readViewSeesTrxId (s.sys.view old) t = true ∧
          ∀ p, (s.sys.view old).creator = some p → (s.closed.sys.trx p).id ≠ t := by
      rw [nextPurgeView_eq hLast, hView]
      exact viewCopy_sees none hOk.wf (fun p hp => hOk.creator_le _ (hId p hp)) t
    have hCreator {t : Nat} (hCreatorId : s.creatorId old = some t) :
        ∃ p, (s.sys.view old).creator = some p ∧ (s.closed.sys.trx p).id = t := by
      cases hp : (s.sys.view old).creator with
      | none => exact absurd (hOk.creator hp) (by rw [hCreatorId]; exact some_ne_none t)
      | some p => exact ⟨p, rfl, some.inj ((hId p hp).symm.trans hCreatorId)⟩
    have hAbove {v : Nat} (hv : v ∈ s.closed.sys.viewList) : v = old ∨ Above s v old := by
      have hOrdered := h.ordered
      rw [← hReaders, hFront] at hOrdered
      rw [hFront] at hv
      rcases mem_append.mp hv with hv | hv
      · exact .inr ((pairwise_append.mp hOrdered).2.2 v hv old (mem_singleton.mpr rfl))
      · exact .inl (mem_singleton.mp hv)
    refine ⟨fun t ht hSees v hv => ?_, fun t ht hLess v hv => ?_, fun v hv c hc => ?_⟩
    · obtain ⟨hSees, hNot⟩ := (hCopy t).mp hSees
      rw [hView]
      rcases hAbove hv with rfl | hAboveOld
      · exact hSees
      · refine hAboveOld.sees t ht hSees fun hEq => ?_
        obtain ⟨p, hp, hIdP⟩ := hCreator hEq
        exact hNot p hp hIdP
    · have hNo : s.nextPurgeView.lowLimitNo = (s.sys.view old).lowLimitNo := by
        rw [nextPurgeView_eq hLast, hView]
        rfl
      rw [hNo] at hLess
      rw [hView]
      rcases hAbove hv with rfl | hAboveOld
      · exact (hOk.numbered t ht hLess).2
      · exact hAboveOld.numbered t ht hLess
    · obtain rfl := some.inj (hLast.symm.trans hv)
      obtain ⟨p, hp, hIdP⟩ := hCreator hc
      rw [← Bool.not_eq_true, hCopy]
      exact fun hBoth => hBoth.2 p hp hIdP

section
variable {types : Nat → TrxType} {maxTrxId : Nat} {forceRecovery : Bool} {rsegs : List Rseg} {s : State}

theorem numbers_init (hLogs : LogsOk maxTrxId rsegs) :
    Numbers (State.init types maxTrxId forceRecovery rsegs) := by
  have h := recovering_init forceRecovery types hLogs
  have hOrderly := orderly_init forceRecovery types hLogs
  have hNumber (t : Nat) : (State.init types maxTrxId forceRecovery rsegs).number t =
      ((trxGetOnId (State.init types maxTrxId forceRecovery rsegs).sys t).map fun p =>
        ((State.init types maxTrxId forceRecovery rsegs).sys.trx p).no).getD ⊤ := rfl
  obtain ⟨s, hs⟩ : ∃ s, s = State.init types maxTrxId forceRecovery rsegs := ⟨_, rfl⟩
  rw [← hs] at h hOrderly hNumber ⊢
  refine ⟨fun p hp => ?_, fun t ht => ?_, fun p => ?_⟩
  · rw [hNumber]
    cases hFound : trxGetOnId s.sys (s.sys.trx p).id with
    | none => exact absurd (decide_eq_true rfl) (find?_eq_none.mp hFound p hp)
    | some q =>
      have hId : (s.sys.trx q).id = (s.sys.trx p).id := by simpa using find?_some hFound
      rw [hOrderly.eq_of_id (mem_of_find?_eq_some hFound) hp hId]
      rfl
  · have hNone : trxGetOnId s.sys t = none := find?_eq_none.mpr fun p hp => by
      have hLt := hOrderly.lt p hp
      simp only [decide_eq_true_eq]
      omega
    rw [hNumber, hNone]
    rfl
  · by_cases hp : p ∈ s.sys.trxList
    · exact le_of_lt (hOrderly.lt p hp)
    · rw [h.unlisted p hp]
      exact Nat.zero_le _

theorem views_init (hLogs : LogsOk maxTrxId rsegs) :
    Views (State.init types maxTrxId forceRecovery rsegs) := by
  have h := recovering_init forceRecovery types hLogs
  have hReaders : (State.init types maxTrxId forceRecovery rsegs).readers = [] := by
    rw [State.readers, h.viewList]
    rfl
  constructor <;> simp [h.viewList, h.purgeView, hReaders]

/-- The invariant of the views needs those of the kept logs and of the numbers, so a whole run
preserves the three together. -/
theorem views_of_reachable (hLogs : LogsOk maxTrxId rsegs)
    (run : system.Reachable (State.init types maxTrxId forceRecovery rsegs) s) : Views s := by
  obtain ⟨-, -, hViews⟩ : Kept s ∧ Numbers s ∧ Views s := by
    refine run.invariant (fun s => Kept s ∧ Numbers s ∧ Views s)
      ⟨kept_of_run hLogs Relation.ReflTransGen.refl, numbers_init hLogs, views_init hLogs⟩ ?_
    rintro a call b ⟨hKept, hNumbers, hViews⟩ - hStep
    obtain ⟨hAllowed, rfl⟩ := step_allowed hStep
    exact ⟨hKept.step hAllowed, step_numbers hNumbers hKept.orderly hKept.staged hAllowed,
      step_views hViews hKept.orderly hKept.staged hNumbers hAllowed⟩
  exact hViews

/-- In every state in which the creator of the oldest view still has the id it opened the
view with, the view of the purge is safe. -/
theorem purgeSafe_of_keepsCreator (hLogs : LogsOk maxTrxId rsegs)
    (run : system.Reachable (State.init types maxTrxId forceRecovery rsegs) s) (hKeeps : s.KeepsCreator) :
    PurgeSafe s.closed s.nextPurgeView :=
  (views_of_reachable hLogs run).purgeSafe hKeeps

end

/-- The cursor of transaction 512 is open when 513 opens its view, and 512 commits. -/
theorem purgeSafe_open_cursor : ∃ s, system.exec (State.init (fun _ => .user) 512 false twoLogs)
      [.start 10, .createCursorView 10, .start 11, .assignReadView 11, .purge, .commit 10] = some s ∧
    s.KeepsCreator ∧ PurgeSafe s.closed s.nextPurgeView := by
  have hRun : (system.exec (State.init (fun _ => .user) 512 false twoLogs)
      [.start 10, .createCursorView 10, .start 11, .assignReadView 11, .purge, .commit 10]).map
        (fun s => (s.closed.sys.viewList, (s.closed.sys.view 0).creator, s.creatorId 0,
          (s.closed.sys.trx 10).id)) = some ([1, 0], some 10, some 512, 512) := by decide
  obtain ⟨s, hExec, hEq⟩ := map_eq_some_iff.mp hRun
  simp only [Prod.mk.injEq] at hEq
  obtain ⟨hList, hCreator, hCreatorId, hId⟩ := hEq
  have hKeeps : s.KeepsCreator := by
    intro v hv p hp
    rw [hList] at hv
    obtain rfl : 0 = v := some.inj hv
    obtain rfl := some.inj (hCreator.symm.trans hp)
    rw [hCreatorId, hId]
  exact ⟨s, hExec, hKeeps, purgeSafe_of_keepsCreator twoLogs_ok (System.reachable_of_exec hExec) hKeeps⟩

/-- The cursor of transaction 512 survives its commit, and its session starts 514. The copy
of the cursor's view has the id 514 instead of 512, so it sees 512, which the view of 513
does not see. -/
theorem not_purgeSafe_of_reachable : ¬ ∀ s,
    system.Reachable (State.init (fun _ => .user) 512 false twoLogs) s →
    PurgeSafe s.closed s.nextPurgeView := by
  intro h
  have hRun : (system.exec (State.init (fun _ => .user) 512 false twoLogs)
      [.start 10, .createCursorView 10, .start 11, .assignReadView 11, .commit 10, .start 10]).map
        (fun s => (s.closed.started.contains 512, s.closed.sys.viewList, readViewSeesTrxId s.nextPurgeView 512,
          readViewSeesTrxId (s.closed.sys.view 1) 512)) = some (true, [1, 0], true, false) := by decide
  obtain ⟨s, hExec, hEq⟩ := map_eq_some_iff.mp hRun
  simp only [Prod.mk.injEq] at hEq
  obtain ⟨hStarted, hList, hPurge, hView⟩ := hEq
  have hSees := (h s (System.reachable_of_exec hExec)).sees 512 (contains_iff_mem.mp hStarted) hPurge 1
    (by rw [hList]; exact mem_cons_self)
  rw [hView] at hSees
  exact absurd hSees (by decide)

section
variable {types : Nat → TrxType} {maxTrxId : Nat} {forceRecovery : Bool} {rsegs : List Rseg} {s : State}

/-- In every state no open view but purge's own sees a transaction of another that is not
committed, and of these views each sees all that an older one sees but for that one's own transaction. -/
theorem readers_nested (hLogs : LogsOk maxTrxId rsegs)
    (run : system.Reachable (State.init types maxTrxId forceRecovery rsegs) s) :
    (∀ v ∈ s.readers, ∀ t ∈ s.started, readViewSeesTrxId (s.sys.view v) t = true →
      s.creatorId v = some t ∨ t ∈ s.committed) ∧
    s.readers.Pairwise fun newer older => ∀ t ∈ s.started,
      readViewSeesTrxId (s.sys.view older) t = true → s.creatorId older ≠ some t →
        readViewSeesTrxId (s.sys.view newer) t = true := by
  have hViews := views_of_reachable hLogs run
  exact ⟨fun v hv => (hViews.ok v hv).only, hViews.ordered.imp fun h => h.sees⟩

end

theorem readers_nested_open_cursor : ∃ s, system.exec (State.init (fun _ => .user) 512 false twoLogs)
      [.start 10, .createCursorView 10, .start 11, .assignReadView 11, .purge, .commit 10] = some s ∧
    s.readers.Pairwise fun newer older => ∀ t ∈ s.started,
      readViewSeesTrxId (s.sys.view older) t = true → s.creatorId older ≠ some t →
        readViewSeesTrxId (s.sys.view newer) t = true := by
  apply System.exists_exec (by decide)
  exact fun s hExec => (readers_nested twoLogs_ok (System.reachable_of_exec hExec)).2

end MySQL.Innobase.Read
