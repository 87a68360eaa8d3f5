import MySQL.Mysys.ThrLock.Bookkeeping

/-! Runs of the linked lists follow runs of the lists of instances, so an
invariant proved of the lists holds of the links. -/
namespace MySQL.ThrLock
open Library Model Function Option

structure SessionRefines (c : LinkedSession) (a : QueuedSession) : Prop where
  lock : Refines c.lock a.lock
  use : c.use = a.use

theorem Refines.bound {c : LinkedLock} {a : QueuedLock} (h : Refines c a) :
    ∀ n, ∀ d ∈ a.queues n, d < a.instances := by
  obtain ⟨-, -, -, hBound⟩ := h
  exact hBound

section
variable {c : LinkedSession} {a : QueuedSession} {d : DataId}

private theorem SessionRefines.ofLock {l : LinkedLock} {l' : QueuedLock} (hUse : c.use = a.use)
    (h : Refines l l') (u : Use) :
    SessionRefines ⟨l, update c.use d u⟩ ⟨l', update a.use d u⟩ :=
  ⟨h, by rw [hUse]⟩

private theorem SessionRefines.ofResult {r : LinkedLock × Outcome} {r' : QueuedLock × Outcome}
    (hUse : c.use = a.use) (h : RefinesResult r r') :
    SessionRefines ⟨r.1, update c.use d (.after r.2)⟩
      ⟨r'.1, update a.use d (.after r'.2)⟩ := by
  rw [h.2]
  exact .ofLock hUse h.1 _

/-- The model makes every call that the code makes, with the same effect. -/
theorem step_refines {env : Env} {c' : LinkedSession} {call : Call}
    (h : SessionRefines c a) (hSettled : Settled a.lock a.use)
    (hStep : step Code.calls env c call = some c') :
    ∃ a', step calls env a call = some a' ∧ SessionRefines c' a' := by
  obtain ⟨hLock, hUse⟩ := h
  have hType := hLock.type_eq
  have hCond := hLock.cond_eq
  cases call with
  | dataInit =>
    cases hStep
    exact ⟨_, rfl, hLock.thrLockDataInit, hUse⟩
  | lock d owner t checkStatus =>
    simp only [step, ite_none_right_eq_some, some.injEq] at hStep
    obtain ⟨hGuard, rfl⟩ := hStep
    rw [hUse, hLock.instances_eq] at hGuard
    refine ⟨_, if_pos hGuard, .ofResult hUse ?_⟩
    exact hLock.thrLock env checkStatus owner t (hSettled.notMem_of_idle hGuard.2.1) hGuard.1
  | wake d =>
    simp only [step, hUse, hType, hCond] at hStep ⊢
    split at hStep
    · simp only [ite_none_left_eq_some, some.injEq] at hStep
      obtain ⟨hAwake, rfl⟩ := hStep
      exact ⟨_, if_neg hAwake, hLock, rfl⟩
    · cases hStep
  | waitFails d =>
    simp only [step, hUse, hCond] at hStep ⊢
    split at hStep
    · next n hWaiting =>
      simp only [ite_none_right_eq_some, some.injEq] at hStep
      obtain ⟨hAsleep, rfl⟩ := hStep
      exact ⟨_, if_pos hAsleep, hLock.waitFailed (hSettled.mem_of_waiting hWaiting hAsleep), rfl⟩
    · cases hStep
  | unlock d checkStatus =>
    simp only [step, ite_none_right_eq_some, some.injEq] at hStep
    obtain ⟨hHeld, rfl⟩ := hStep
    rw [hUse] at hHeld
    refine ⟨_, if_pos hHeld, .ofLock hUse ?_ _⟩
    rw [hType]
    split_ifs with hUnlock
    · exact hLock
    · exact hLock.thrUnlock (hSettled.mem_heldIn hHeld hUnlock)
  | abortLocks =>
    cases hStep
    exact ⟨_, rfl, hLock.thrAbortLocks, hUse⟩
  | abortLocksForThread thread =>
    cases hStep
    exact ⟨_, rfl, hLock.thrAbortLocksForThread env thread, hUse⟩
  | upgrade d =>
    simp only [step, ite_none_right_eq_some, some.injEq] at hStep
    obtain ⟨hGuard, rfl⟩ := hStep
    rw [hUse, hType] at hGuard
    refine ⟨_, if_pos hGuard, .ofResult hUse (hLock.thrUpgradeWriteDelayLock ?_)⟩
    intro hLocked hGiven
    exact hSettled.mem_write (by simp [hGuard.1]) (hGuard.2.resolve_left hLocked) hGiven
  | reschedule d =>
    simp only [step, ite_none_right_eq_some, some.injEq] at hStep
    obtain ⟨hGuard, rfl⟩ := hStep
    rw [hUse, hType, hCond] at hGuard
    obtain ⟨hHeld, hWrite, hRuns⟩ := hGuard
    refine ⟨_, if_pos ⟨hHeld, hWrite, hRuns⟩, ?_, hUse⟩
    exact hLock.thrRescheduleWriteLock (hSettled.mem_write (by simp [hHeld]) hWrite hRuns)

end

/-- The sessions of a run of the code: some lists are behind the links, and
every instance is in its place. -/
structure Behind (c : LinkedSession) (a : QueuedSession) : Prop where
  refines : SessionRefines c a
  settled : Settled a.lock a.use

theorem behind_init : Behind (.init Code.calls) (.init calls) where
  refines := ⟨refines_thrLockInit, rfl⟩
  settled := by
    refine ⟨⟨fun n => List.nodup_nil, ?_⟩, fun d => .idle ?_, rfl⟩
    · intro m n d hd
      simp [Session.init, calls, thrLockInit] at hd
    · intro n
      simp [Session.init, calls, thrLockInit]

theorem Behind.step {env : Env} {c c' : LinkedSession} {a : QueuedSession} {call : Call}
    (h : Behind c a) (hStep : ThrLock.step Code.calls env c call = some c') :
    ∃ a', Model.Moves env a call a' ∧ Behind c' a' := by
  obtain ⟨a', hModel, hRefines⟩ := step_refines h.refines h.settled hStep
  have hMoves := moves_of_step hModel
  exact ⟨a', hMoves, hRefines, h.settled.moves h.refines.lock.bound hMoves⟩

/-- An invariant of the lists holds along every run of the code. -/
theorem run_invariant {env : Env} {ok : LinkedSession → Call → Prop} {c : LinkedSession}
    (run : (system Code.calls env).Run ok (.init Code.calls) c)
    (Inv : QueuedSession → Prop) (hInit : Inv (.init calls))
    (hMoves : ∀ c a call a', Behind c a → Inv a → ok c call → Model.Moves env a call a' →
      Settled a'.lock a'.use → Inv a') :
    ∃ a, Behind c a ∧ Inv a := by
  apply run.invariant (fun c => ∃ a, Behind c a ∧ Inv a) ⟨_, behind_init, hInit⟩
  rintro c call c' ⟨a, hBehind, hInv⟩ hOk hStep
  obtain ⟨a', hMove, hBehind'⟩ := hBehind.step hStep
  exact ⟨a', hBehind', hMoves c a call a' hBehind hInv hOk hMove hBehind'.settled⟩

/-! ### Bookkeeping of the queues -/

/-- In every reachable state the four lists are well formed (`last` addresses
the cell that ends the list, each `prev` the cell that points at the
instance, and no instance occurs twice), every instance that was locked or
waits is in exactly one list unless it was aborted, running instances have no
`cond`, and the readers that forbid inserts are counted. -/
theorem queues_wellFormed {env : Env} {c : LinkedSession}
    (hReachable : (system Code.calls env).Reachable (.init Code.calls) c) :
    ∃ q : ListName → List DataId, c.lock.queues.Represents none q ∧
      (∀ d, c.use d ≠ .idle → c.lock.type d ≠ .unlock → ∃! n, d ∈ q n) ∧
      (∀ d, d ∈ q .read ∨ d ∈ q .write → c.lock.cond d = false) ∧
      c.lock.readNoWriteCount = (q .read).countP fun d => c.lock.type d = .readNoInsert := by
  obtain ⟨a, ⟨⟨hLock, hUse⟩, hSettled⟩, -⟩ := run_invariant hReachable (fun _ => True) trivial
    (fun _ _ _ _ _ _ _ _ _ => trivial)
  refine ⟨a.lock.queues, ?_, ?_, ?_, ?_⟩
  · obtain ⟨L, hEq, hRep, -⟩ := hLock
    rw [hEq]
    exact hRep
  · intro d hd hType
    rw [hUse] at hd
    rw [hLock.type_eq] at hType
    obtain ⟨n, hn⟩ := hSettled.listed hd hType
    exact ⟨n, hn, fun m hm => hSettled.separate.disjoint m n d hm hn⟩
  · rw [hLock.cond_eq]
    rintro d (hd | hd)
    · exact (hSettled.entry hd).2.2.2
    · exact (hSettled.entry hd).2.2
  · rw [hLock.readNoWriteCount_eq, hLock.type_eq]
    exact hSettled.count

/-- A run with a running writer, a reader behind it and a delayed insert. -/
theorem queues_wellFormed_three_requests : ∃ c, (system Code.calls .default).exec (.init Code.calls)
        [.dataInit, .dataInit, .dataInit, .lock 0 1 .write false,
          .lock 1 2 .readNoInsert false, .lock 2 3 .writeDelayed false] = some c ∧
      ∃ q : ListName → List DataId, c.lock.queues.Represents none q ∧
        (∀ d, c.use d ≠ .idle → c.lock.type d ≠ .unlock → ∃! n, d ∈ q n) ∧
        (∀ d, d ∈ q .read ∨ d ∈ q .write → c.lock.cond d = false) ∧
        c.lock.readNoWriteCount = (q .read).countP fun d => c.lock.type d = .readNoInsert := by
  apply System.exists_exec (by decide)
  exact fun c hExec => queues_wellFormed (System.reachable_of_exec hExec)

/-! ### Runs of the code as runs of the model -/

theorem behind_exec {env : Env} {c c' : LinkedSession} {a : QueuedSession} {labels : List Call}
    (h : Behind c a) (hExec : (system Code.calls env).exec c labels = some c') :
    ∃ a', (system calls env).exec a labels = some a' ∧ Behind c' a' := by
  induction labels generalizing c a with
  | nil =>
    cases hExec
    exact ⟨a, rfl, h⟩
  | cons label rest ih =>
    obtain ⟨middle, hFirst, hRest⟩ := bind_eq_some_iff.mp hExec
    obtain ⟨a₁, hModel, hRefines⟩ := step_refines h.refines h.settled hFirst
    have hSettled := h.settled.moves h.refines.lock.bound (moves_of_step hModel)
    obtain ⟨a', hExec', hBehind⟩ := ih ⟨hRefines, hSettled⟩ hRest
    exact ⟨a', bind_eq_some_iff.mpr ⟨a₁, hModel, hExec'⟩, hBehind⟩

/-- Every run of the linked lists is a run of the lists of instances with the same calls, which
ends with the same uses and the lists that the links stand for. -/
theorem exec_refines {env : Env} {labels : List Call} {c : LinkedSession}
    (h : (system Code.calls env).exec (.init Code.calls) labels = some c) :
    ∃ a, (system calls env).exec (.init calls) labels = some a ∧ SessionRefines c a := by
  obtain ⟨a, hExec, hBehind⟩ := behind_exec behind_init h
  exact ⟨a, hExec, hBehind.refines⟩

theorem exec_refines_three_requests : ∃ c, (system Code.calls .default).exec (.init Code.calls)
        [.dataInit, .dataInit, .dataInit, .lock 0 1 .write false,
          .lock 1 2 .readNoInsert false, .lock 2 3 .writeDelayed false, .unlock 0 false] = some c ∧
      ∃ a : QueuedSession, SessionRefines c a := by
  apply System.exists_exec (by decide)
  intro c hExec
  obtain ⟨a, -, hRefines⟩ := exec_refines hExec
  exact ⟨a, hRefines⟩

end MySQL.ThrLock
