import MySQL.Innobase.Read.Recovery

/-! A read view sees its creator and the transactions that were committed in memory before
it was opened. -/
namespace MySQL.Innobase.Read

open Library Option

variable {s : State}

theorem Orderly.viewNow_wf (h : Orderly s) (crTrx : Option Nat) : (s.sys.viewNow crTrx).Wf :=
  Read.viewNow_wf crTrx h.sorted h.lt

theorem Orderly.viewNow_sees (h : Orderly s) (crTrx : Option Nat) {t : Nat} (ht : t ∈ s.started) :
    readViewSeesTrxId (s.sys.viewNow crTrx) t = true ↔ t ∈ s.committed ∨
      ∃ p, crTrx = some p ∧ p ∈ s.sys.trxList ∧ (s.sys.trx p).phase = .live ∧ (s.sys.trx p).id = t := by
  have hLt : t < (s.sys.viewNow crTrx).lowLimitId := h.started_lt t ht
  rw [(h.viewNow_wf crTrx).sees_iff, mem_viewNow]
  constructor
  · rintro ⟨-, hNot⟩
    by_cases hDone : t ∈ s.committed
    · exact .inl hDone
    · obtain ⟨p, hp, hId, hLive⟩ := h.on_list t ht hDone
      refine .inr ⟨p, ?_, hp, hLive, hId⟩
      by_contra hOther
      exact hNot ⟨p, hp, isActiveFor_iff.mpr ⟨fun hEq => hOther hEq.symm, hLive⟩, hId⟩
  · rintro (hDone | ⟨p, rfl, hp, -, hId⟩)
    · refine ⟨hLt, fun ⟨q, hq, hActive, hId⟩ => ?_⟩
      exact (h.live q hq (isActiveFor_iff.mp hActive).2).2 (hId ▸ hDone)
    · refine ⟨hLt, fun ⟨q, hq, hActive, hIdQ⟩ => ?_⟩
      exact (isActiveFor_iff.mp hActive).1 (congrArg some (h.eq_of_id hq hp (hIdQ.trans hId.symm)))

structure Snapshot (s : State) (o : Opened) : Prop where
  wf : o.view.Wf
  low_le : o.view.lowLimitId ≤ s.sys.maxTrxId
  creator_started : ∀ t, o.creatorId = some t → t ∈ s.started
  committed_started : ∀ t ∈ o.committed, t ∈ s.started
  sees : ∀ t ∈ s.started, readViewSeesTrxId o.view t = true ↔ o.creatorId = some t ∨ t ∈ o.committed

namespace Snapshot
variable {s : State} {o : Opened}

theorem same (h : Snapshot s o) {sys : TrxSys} (hMax : s.sys.maxTrxId ≤ sys.maxTrxId)
    (committed : List Nat) (number : Nat → WithTop Nat) (opened : List Opened) (creatorId : Nat → Option Nat) :
    Snapshot ⟨sys, s.started, committed, number, opened, creatorId⟩ o :=
  ⟨h.wf, le_trans h.low_le hMax, h.creator_started, h.committed_started, h.sees⟩

/-- A later transaction is not seen. -/
theorem start (h : Snapshot s o) (hLt : ∀ t ∈ s.started, t < s.sys.maxTrxId) {sys : TrxSys}
    (hMax : s.sys.maxTrxId ≤ sys.maxTrxId) :
    Snapshot { s with sys, started := s.sys.maxTrxId :: s.started } o := by
  refine ⟨h.wf, le_trans h.low_le hMax, fun t ht => List.mem_cons_of_mem _ (h.creator_started t ht),
    fun t ht => List.mem_cons_of_mem _ (h.committed_started t ht), fun t ht => ?_⟩
  rcases List.mem_cons.mp ht with rfl | ht
  · have hNot : readViewSeesTrxId o.view s.sys.maxTrxId ≠ true := by
      rw [ne_eq, h.wf.sees_iff]
      exact fun hSees => absurd h.low_le (Nat.not_le_of_lt hSees.1)
    refine ⟨fun hSees => absurd hSees hNot, ?_⟩
    rintro (hCreator | hDone)
    · exact absurd (hLt _ (h.creator_started _ hCreator)) (lt_irrefl _)
    · exact absurd (hLt _ (h.committed_started _ hDone)) (lt_irrefl _)
  · exact h.sees t ht

/-- A view that is opened now, by a live transaction or by nobody. -/
theorem opened (hOrderly : Orderly s) {crTrx : Option Nat}
    (hLive : ∀ p, crTrx = some p → p ∈ s.sys.trxList ∧ (s.sys.trx p).phase = .live) :
    Snapshot s ⟨s.sys.viewNow crTrx, crTrx.map fun p => (s.sys.trx p).id, s.committed⟩ := by
  refine ⟨hOrderly.viewNow_wf crTrx, le_refl _, fun t ht => ?_, hOrderly.committed_started,
    fun t ht => ?_⟩
  · obtain ⟨p, hp, rfl⟩ := map_eq_some_iff.mp ht
    obtain ⟨hMem, hLiveP⟩ := hLive p hp
    exact (hOrderly.live p hMem hLiveP).1
  · rw [hOrderly.viewNow_sees crTrx ht, or_comm, map_eq_some_iff]
    refine or_congr_left ⟨fun ⟨p, hp, _, _, hId⟩ => ⟨p, hp, hId⟩, fun ⟨p, hp, hId⟩ => ?_⟩
    exact ⟨p, hp, (hLive p hp).1, (hLive p hp).2, hId⟩

end Snapshot

def Snapshots (s : State) : Prop := ∀ o ∈ s.opened, Snapshot s o

theorem Snapshots.same (h : Snapshots s) {sys : TrxSys} (hMax : s.sys.maxTrxId ≤ sys.maxTrxId)
    (committed : List Nat) (number : Nat → WithTop Nat) (creatorId : Nat → Option Nat) :
    Snapshots ⟨sys, s.started, committed, number, s.opened, creatorId⟩ :=
  fun o ho => (h o ho).same hMax _ _ _ _

/-- One more view. -/
theorem Snapshots.add (h : Snapshots s) (hOrderly : Orderly s) {crTrx : Option Nat}
    (hLive : ∀ p, crTrx = some p → p ∈ s.sys.trxList ∧ (s.sys.trx p).phase = .live) {sys : TrxSys}
    (hMax : s.sys.maxTrxId ≤ sys.maxTrxId) (creatorId : Nat → Option Nat) :
    Snapshots ⟨sys, s.started, s.committed, s.number, s.addOpened s.sys crTrx, creatorId⟩ := by
  intro o ho
  rcases List.mem_cons.mp ho with rfl | ho
  · exact (Snapshot.opened hOrderly hLive).same hMax _ _ _ _
  · exact (h o ho).same hMax _ _ _ _

theorem maxTrxId_le_next (s : State) (call : Call) : s.sys.maxTrxId ≤ (s.next call).sys.maxTrxId := by
  cases call with
  | start p =>
    rw [State.next, trxStartLow]
    split
    · exact le_refl _
    · exact Nat.le_succ _
  | commit p =>
    rw [State.next, trxCommitOffKernel]
    split
    · exact le_refl _
    · rw [trxCommitInMemory]
      cases (s.sys.trx p).globalReadView <;> exact le_refl _
  | number p => exact (SameTrx.trxCommitNumber _ p).maxTrxId
  | commitInMemory p =>
    rw [State.next, trxCommitInMemory]
    cases (s.sys.trx p).globalReadView <;> exact le_refl _
  | assignReadView p => exact (SameTrx.trxAssignReadView _ p).maxTrxId
  | closeReadView p =>
    rw [State.next]
    cases (s.sys.trx p).globalReadView <;> exact le_refl _
  | purge => exact (purge_same s.sys).2.2.ge
  | change | prepare | finish | cleanup | createCursorView | closeCursorView | setCursorView =>
    exact le_refl _

variable {call : Call}

theorem step_snapshots (h : Snapshots s) (hOrderly : Orderly s) (hAllowed : Allowed s call) :
    Snapshots (s.next call) := by
  have hMax := maxTrxId_le_next s call
  cases call with
  | start p =>
    rw [State.next] at hMax ⊢
    by_cases hPurge : (s.sys.trx p).type = .purge
    · rw [if_pos hPurge]
      exact h.same hMax _ _ _
    · rw [if_neg hPurge]
      exact fun o ho => (h o ho).start hOrderly.started_lt hMax
  | assignReadView p =>
    obtain ⟨⟨-, hUser, hActive⟩, -⟩ := hAllowed
    have hLive := phase_eq_live.mpr (.inl hActive)
    rw [State.next] at hMax ⊢
    split
    · exact h.same hMax _ _ _
    · refine h.add hOrderly (fun q hq => ?_) hMax _
      obtain rfl := some.inj hq
      exact ⟨hOrderly.mem hUser (by rw [hLive]; decide), hLive⟩
  | purge =>
    obtain ⟨hTrx, hList, hMax⟩ := closePurgeView_same s.sys
    have hClose : SameTrx s.sys (closePurgeView s.sys) := .of_trx hTrx hList hMax
    have hOpen := (openPurgeView_same (closePurgeView s.sys)).2.2.ge
    have hClosed : Snapshots { s with sys := closePurgeView s.sys } := h.same hClose.maxTrxId _ _ _
    rw [State.next]
    split
    · exact hClosed.add (hOrderly.same hClose rfl rfl) (by simp) hOpen _
    · exact hClosed.same hOpen _ _ _
  | change | prepare | commit | number | commitInMemory | finish | cleanup | closeReadView
  | createCursorView | closeCursorView | setCursorView => exact h.same hMax _ _ _

structure Kept (s : State) : Prop where
  orderly : Orderly s
  staged : Staged s.sys
  snapshots : Snapshots s

theorem step_allowed {s' : State} (h : system.step s call = some s') :
    Allowed s call ∧ s' = s.next call := by
  simp only [system, ite_none_right_eq_some, some.injEq] at h
  exact ⟨h.1, h.2.symm⟩

theorem Kept.step (h : Kept s) (hAllowed : Allowed s call) : Kept (s.next call) :=
  ⟨step_orderly h.orderly h.staged hAllowed, step_staged h.staged hAllowed,
    step_snapshots h.snapshots h.orderly hAllowed⟩

section
variable {types : Nat → TrxType} {maxTrxId : Nat} {forceRecovery : Bool} {rsegs : List Rseg} {s : State}

theorem kept_of_run (hLogs : LogsOk maxTrxId rsegs)
    (run : system.Reachable (State.init types maxTrxId forceRecovery rsegs) s) : Kept s := by
  refine run.invariant Kept ⟨orderly_init forceRecovery types hLogs, staged_init forceRecovery types hLogs,
    fun o ho => absurd ho List.not_mem_nil⟩ fun a call b h _ hStep => ?_
  obtain ⟨hAllowed, rfl⟩ := step_allowed hStep
  exact h.step hAllowed

/-- A view of `read_view_open_now` sees a transaction if and only if that is its creator or
was committed in memory before. -/
theorem sees_iff_committed (hLogs : LogsOk maxTrxId rsegs)
    (run : system.Reachable (State.init types maxTrxId forceRecovery rsegs) s) {o : Opened}
    (hOpened : o ∈ s.opened) {t : Nat} (hStarted : t ∈ s.started) :
    readViewSeesTrxId o.view t = true ↔ o.creatorId = some t ∨ t ∈ o.committed :=
  ((kept_of_run hLogs run).snapshots o hOpened).sees t hStarted

end

def twoLogs : List Rseg := [⟨[⟨5, .prepared⟩], [⟨3, .finished⟩]⟩]

theorem twoLogs_ok : LogsOk 512 twoLogs := ⟨by decide, by decide, by decide⟩

/-- After that start, transaction 512 has its number when 513 opens a view, and is
committed in memory later. -/
theorem sees_iff_committed_midCommit : ∃ s, system.exec (State.init (fun _ => .user) 512 false twoLogs)
      [.start 10, .start 11, .change 10 false true, .commit 10, .number 10, .assignReadView 11,
        .commitInMemory 10, .finish 10] = some s ∧
    ∃ o ∈ s.opened, ∀ t ∈ s.started, readViewSeesTrxId o.view t = true ↔ o.creatorId = some t ∨ t ∈ o.committed := by
  have hRun : (system.exec (State.init (fun _ => .user) 512 false twoLogs)
      [.start 10, .start 11, .change 10 false true, .commit 10, .number 10, .assignReadView 11,
        .commitInMemory 10, .finish 10]).map (fun s => s.opened.length) = some 1 := by decide
  obtain ⟨s, hExec, hLength⟩ := map_eq_some_iff.mp hRun
  obtain ⟨o, hOpened⟩ := List.length_eq_one_iff.mp hLength
  have hMem : o ∈ s.opened := by rw [hOpened]; exact List.mem_singleton.mpr rfl
  exact ⟨s, hExec, o, hMem, fun t ht =>
    sees_iff_committed twoLogs_ok (System.reachable_of_exec hExec) hMem ht⟩

end MySQL.Innobase.Read
