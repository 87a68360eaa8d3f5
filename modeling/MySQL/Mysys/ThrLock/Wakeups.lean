import MySQL.Mysys.ThrLock.Runs

/-! Nobody is left waiting for a lock that is free. Each release hands the
lock on; a wait that fails or is killed for one thread hands nothing on,
which matters when it was the last waiting writer. -/
namespace MySQL.ThrLock
open Library Model

structure Awake (s : QueuedLock) : Prop where
  free : s.queues .read = [] → s.queues .write = [] →
    s.queues .readWait = [] ∧ s.queues .writeWait = []
  unwritten : s.queues .write = [] → s.queues .writeWait = [] → s.queues .readWait = []

namespace Awake
variable {env : Env} {s s' : QueuedLock} {d : DataId}

theorem congr (h : Awake s) (hQueues : s'.queues = s.queues) : Awake s' :=
  ⟨by rw [hQueues]; exact h.free, by rw [hQueues]; exact h.unwritten⟩

/-- A running writer leaves nothing to show. -/
theorem of_write (hWrite : s.queues .write ≠ []) : Awake s :=
  ⟨fun _ h => absurd h hWrite, fun h => absurd h hWrite⟩

theorem of_read (hRead : s.queues .read ≠ []) (hWait : s.queues .writeWait ≠ []) : Awake s :=
  ⟨fun h => absurd h hRead, fun _ h => absurd h hWait⟩

theorem grantRead (h : Awake s) (t : LockType) : Awake (grantRead s d t) := by
  refine ⟨fun hRead => ?_, h.unwritten⟩
  simp [Model.grantRead, Model.append_self] at hRead

theorem grantWrite : Awake (append s .write d) :=
  of_write (by simp [append_self])

/-- A request may wait where a writer runs, waits, or is kept out by a reader. -/
theorem wait {n : ListName} (hn : n = .readWait ∨ n = .writeWait)
    (hBusy : s.queues .write ≠ [] ∨ (s.queues .read ≠ [] ∧
      (n = .writeWait ∨ s.queues .writeWait ≠ []))) : Awake (wait s n d) := by
  have hWrite : (Model.wait s n d).queues .write = s.queues .write :=
    Model.append_of_ne (by rcases hn with rfl | rfl <;> simp)
  have hRead : (Model.wait s n d).queues .read = s.queues .read :=
    Model.append_of_ne (by rcases hn with rfl | rfl <;> simp)
  rcases hBusy with hBusy | ⟨hBusy, hWaits⟩
  · exact of_write (hWrite ▸ hBusy)
  · refine of_read (hRead ▸ hBusy) ?_
    change (append s n d).queues .writeWait ≠ []
    rcases hn with rfl | rfl
    · rw [append_of_ne (by simp)]
      simpa using hWaits
    · simp [append_self]

theorem decided {r : QueuedLock × Outcome} (h : Awake s) (hDecided : Model.Decided env s d r) :
    Awake r.1 := by
  cases hDecided with
  | aborted => exact h.congr rfl
  | deadlock => exact h
  | readBeside => exact h.grantRead _
  | readAlone => exact h.grantRead _
  | writeBeside => exact grantWrite
  | writeAlone => exact grantWrite
  | readWaits hType hBlocked =>
    apply wait (.inl rfl)
    rcases hBlocked with ⟨w, hw, -⟩ | ⟨hWrite, hNot⟩
    · exact .inl (ne_nil_of_first hw)
    · have hWait : s.queues .writeWait ≠ [] := by
        intro hNil
        exact hNot (.inl (by simp [first, hNil]))
      exact .inr ⟨fun hRead => hWait (h.free hRead hWrite).2, .inr hWait⟩
  | writeWaits hType hBlocked =>
    apply wait (.inr rfl)
    rcases hBlocked with ⟨w, hw, -⟩ | ⟨hWrite, hWait | ⟨hRead, -⟩⟩
    · exact .inl (ne_nil_of_first hw)
    · exact .inr ⟨fun hRead => hWait (h.free hRead hWrite).2, .inl rfl⟩
    · exact .inr ⟨hRead, .inl rfl⟩
  | delayed hType hBusy => exact wait (.inr rfl) (hBusy.imp_right fun hRead => ⟨hRead, .inl rfl⟩)

theorem freeAllReadLocks (hWaiting : s.queues .writeWait = [] ∨ s.queues .readWait ≠ [] ∨
    s.queues .read ≠ []) : Awake (freeAllReadLocks s false) := by
  obtain ⟨hRead, hReadWait⟩ := freeAllReadLocks_false s
  refine ⟨fun hNil _ => ⟨hReadWait, ?_⟩, fun _ _ => hReadWait⟩
  rw [hRead, List.append_eq_nil_iff] at hNil
  simpa [hNil.1, hNil.2] using hWaiting

theorem startBatch (hFirst : Model.first s .writeWait = some d) (t : LockType) :
    (Model.startBatch (s.setType d t)).queues .write ≠ [] := by
  obtain ⟨rest, hWait⟩ := first_eq_some_iff.mp hFirst
  simp [Model.startBatch, batch, hWait]

/-- Every release hands the lock on, whatever it has left. -/
theorem given (hGiven : Model.Given s s') : Awake s' := by
  cases hGiven with
  | busy hWrite => exact of_write hWrite
  | closed hWrite hRead hFirst => exact of_read hRead (ne_nil_of_first hFirst)
  | freed count hWrite hWaiting =>
    exact freeAllReadLocks (hWaiting.imp_right fun h => .inl h.2.1)
  | upgraded hWrite hRead => exact freeAllReadLocks (.inr (.inr hRead))
  | @started count d t hWrite hRead hFirst =>
    exact of_write (startBatch hFirst t)
  | @startedShared count d t hWrite hFirst hType =>
    have hStarted := startBatch (s := { s with writeLockCount := count }) hFirst (s.type d)
    rw [Lock.setType_self { s with writeLockCount := count } d] at hStarted
    exact of_write hStarted

theorem requeueWrite (hRead : s.queues .read ≠ []) (t : LockType) :
    Awake ((requeueWrite (s.setType d t) d).setCond d true) :=
  of_read hRead (by simp [Model.requeueWrite, Model.put])

theorem upgraded {r : QueuedLock × Outcome} (h : Awake s) (hUpgraded : Model.Upgraded s d r) :
    Awake r.1 := by
  cases hUpgraded with
  | aborted => exact h
  | already => exact h
  | alone => exact h.congr rfl
  | requeued _ _ hRead => exact requeueWrite hRead .write
  | waits => exact h.congr rfl

theorem thrRescheduleWriteLock (h : Awake s) : Awake (thrRescheduleWriteLock s d) := by
  unfold Model.thrRescheduleWriteLock
  split_ifs with hWait
  · exact h
  · exact freeAllReadLocks (.inr (.inl hWait))

theorem thrAbortLocks : Awake (Model.thrAbortLocks s) := by
  have hQueues : (Model.thrAbortLocks s).queues .readWait = [] ∧
      (Model.thrAbortLocks s).queues .writeWait = [] := by
    unfold Model.thrAbortLocks
    dsimp only
    split <;> simp [abort, put]
  exact ⟨fun _ _ => hQueues, fun _ _ => hQueues.1⟩

/-- Waiting requests are dropped. Only the last waiting writer matters. -/
theorem fewer (h : Awake s) (hRead : s'.queues .read = s.queues .read)
    (hWrite : s'.queues .write = s.queues .write)
    (hReadWait : s'.queues .readWait ⊆ s.queues .readWait)
    (hWriteWait : s'.queues .writeWait ⊆ s.queues .writeWait)
    (hLast : s.queues .write = [] → s'.queues .writeWait = [] → s'.queues .readWait = []) :
    Awake s' := by
  refine ⟨fun hr hw => ?_, fun hw => hLast (hWrite ▸ hw)⟩
  obtain ⟨hNoReader, hNoWriter⟩ := h.free (hRead ▸ hr) (hWrite ▸ hw)
  rw [hNoReader] at hReadWait
  rw [hNoWriter] at hWriteWait
  exact ⟨List.subset_nil.mp hReadWait, List.subset_nil.mp hWriteWait⟩

theorem waitFailed {n : ListName} (h : Awake s) (hn : n = .readWait ∨ n = .writeWait)
    (hLast : s.queues .write = [] → s.queues .writeWait = [d] → s.queues .readWait = []) :
    Awake (Model.waitFailed s n d) := by
  have hSame {m : ListName} (hm : m ≠ n) : (Model.waitFailed s n d).queues m = s.queues m :=
    remove_of_ne hm
  have hErased : (Model.waitFailed s n d).queues n = (s.queues n).erase d := remove_self
  rcases hn with rfl | rfl
  · apply h.fewer (hSame (by simp)) (hSame (by simp))
    · rw [hErased]
      exact List.erase_subset
    · rw [hSame (by simp)]
      exact List.Subset.refl _
    · intro hWrite hWait
      rw [hSame (by simp)] at hWait
      rw [hErased, h.unwritten hWrite hWait]
      rfl
  · apply h.fewer (hSame (by simp)) (hSame (by simp))
    · rw [hSame (by simp)]
      exact List.Subset.refl _
    · rw [hErased]
      exact List.erase_subset
    · intro hWrite hWait
      rw [hErased, List.erase_eq_nil_iff] at hWait
      rw [hSame (by simp)]
      exact hWait.elim (h.unwritten hWrite) (hLast hWrite)

theorem thrAbortLocksForThread {thread : Thread} (h : Awake s)
    (hLast : s.queues .write = [] → s.queues .writeWait ≠ [] →
      (∀ e ∈ s.queues .writeWait, ofThread env s thread e) →
      ∀ e ∈ s.queues .readWait, ofThread env s thread e) :
    Awake (thrAbortLocksForThread env s thread) := by
  have hReaders : (Model.thrAbortLocksForThread env s thread).queues .readWait =
      (s.queues .readWait).filter fun e => !ofThread env s thread e := rfl
  have hWriters : (Model.thrAbortLocksForThread env s thread).queues .writeWait =
      (s.queues .writeWait).filter fun e => !ofThread env s thread e := rfl
  have hRead : (Model.thrAbortLocksForThread env s thread).queues .read = s.queues .read := rfl
  apply h.fewer hRead rfl
  · rw [hReaders]
    exact List.filter_subset_self _
  · rw [hWriters]
    exact List.filter_subset_self _
  · intro hWrite hWait
    simp only [hWriters, List.filter_eq_nil_iff, Bool.not_eq_true', Bool.not_eq_false] at hWait
    simp only [hReaders, List.filter_eq_nil_iff, Bool.not_eq_true', Bool.not_eq_false]
    by_cases hNone : s.queues .writeWait = []
    · simp [h.unwritten hWrite hNone]
    · exact hLast hWrite hNone hWait

end Awake

/-- What `check_locks` asserts of waiting requests. -/
structure NobodyStranded (c : LinkedLock) : Prop where
  free : Code.listOf c .read = [] → Code.listOf c .write = [] →
    Code.listOf c .readWait = [] ∧ Code.listOf c .writeWait = []
  unwritten : Code.listOf c .write = [] → Code.listOf c .writeWait = [] →
    Code.listOf c .readWait = []

/-- The call does not take away the last waiting writer, with no writer running
and readers left waiting behind it, by a failed wait or by
`thr_abort_locks_for_thread`. -/
def HandsOn (env : Env) (c : LinkedSession) : Call → Prop
  | .waitFails d =>
    ¬ (Code.listOf c.lock .write = [] ∧ Code.listOf c.lock .writeWait = [d] ∧
      Code.listOf c.lock .readWait ≠ [])
  | .abortLocksForThread thread =>
    ¬ (Code.listOf c.lock .write = [] ∧ Code.listOf c.lock .writeWait ≠ [] ∧
      (∀ e ∈ Code.listOf c.lock .writeWait,
        env.thread (env.info (c.lock.owner e)) = thread) ∧
      ∃ e ∈ Code.listOf c.lock .readWait, env.thread (env.info (c.lock.owner e)) ≠ thread)
  | _ => True

instance (env : Env) (c : LinkedSession) : (call : Call) → Decidable (HandsOn env c call)
  | .waitFails _ | .abortLocksForThread _ => inferInstanceAs (Decidable (¬ (_ ∧ _)))
  | .dataInit | .lock .. | .wake _ | .unlock .. | .abortLocks | .upgrade _ | .reschedule _ =>
    inferInstanceAs (Decidable True)

theorem Awake.moves {env : Env} {c : LinkedSession} {a a' : QueuedSession} {call : Call}
    (hBehind : Behind c a) (h : Awake a.lock) (hOk : HandsOn env c call)
    (hMoves : Model.Moves env a call a') : Awake a'.lock := by
  have hList := hBehind.refines.lock.listOf_eq
  cases hMoves with
  | dataInit => exact h.congr rfl
  | @lock d owner t t' checkStatus r hUse hType hDecidedType hDecided =>
    have hRequested : Awake (request a.lock d owner t') := h.congr rfl
    exact hRequested.decided hDecided
  | wake => exact h
  | @waitFails d n hUse hCond =>
    have hd := hBehind.settled.mem_of_waiting hUse hCond
    have hEntry := hBehind.settled.entry hd
    have hn : n = .readWait ∨ n = .writeWait := by
      cases n <;> simp [Entry, hCond] at hEntry ⊢
    apply h.waitFailed hn
    intro hWrite hWait
    by_contra hReaders
    exact hOk (by simp only [hList]; exact ⟨hWrite, hWait, hReaders⟩)
  | unlockAborted => exact h
  | unlock _ _ hGiven => exact given hGiven
  | abortLocks => exact thrAbortLocks
  | @abortLocksForThread thread =>
    apply h.thrAbortLocksForThread
    intro hWrite hWait hAll e he
    by_contra hOther
    refine hOk ?_
    simp only [hList, hBehind.refines.lock.owner_eq]
    refine ⟨hWrite, hWait, fun f hf => ?_, e, he, fun hEq => hOther ?_⟩
    · have hThread := hAll f hf
      simp only [ofThread, decide_eq_true_eq] at hThread
      exact hThread.symm
    · simp [ofThread, hEq]
  | upgrade _ _ hUpgraded => exact h.upgraded hUpgraded
  | reschedule => exact h.thrRescheduleWriteLock

/-- In every run that hands the lock on, nobody waits for a free lock. -/
theorem nobodyStranded_of_run {env : Env} {c : LinkedSession}
    (run : (system Code.calls env).Run (HandsOn env) (.init Code.calls) c) :
    NobodyStranded c.lock := by
  obtain ⟨a, hBehind, hAwake⟩ := run_invariant run (fun a => Awake a.lock)
    ⟨fun _ _ => ⟨rfl, rfl⟩, fun _ _ => rfl⟩
    (fun c a call a' hBehind hAwake hOk hMoves _ => hAwake.moves hBehind hOk hMoves)
  have hList := hBehind.refines.lock.listOf_eq
  exact ⟨by simpa only [hList] using hAwake.free, by simpa only [hList] using hAwake.unwritten⟩

/-- A run in which a waiting writer gives up with nobody behind it. -/
theorem nobodyStranded_writer_gives_up :
    ∃ c, ((system Code.calls .default).checked (HandsOn .default)).exec (.init Code.calls)
        [.dataInit, .dataInit, .lock 0 1 .read false, .lock 1 2 .write false, .waitFails 1] =
          some c ∧ NobodyStranded c.lock := by
  apply System.exists_exec (by decide)
  exact fun c hExec => nobodyStranded_of_run (System.run_of_exec_checked hExec)

/-- A reader runs, a writer waits for it, a second reader waits behind the
writer, and the writer's wait fails: the second reader sleeps beside the
first one with no writer anywhere. -/
theorem not_nobodyStranded_of_reachable :
    ¬ ∀ c, (system Code.calls .default).Reachable (.init Code.calls) c → NobodyStranded c.lock := by
  intro h
  have hRun : ((system Code.calls .default).exec (.init Code.calls)
      [.dataInit, .dataInit, .dataInit, .lock 0 1 .read false, .lock 1 2 .write false,
        .lock 2 3 .read false, .waitFails 1]).map
      (fun c => (Code.listOf c.lock .write, Code.listOf c.lock .writeWait,
        Code.listOf c.lock .readWait)) = some ([], [], [2]) := by decide
  obtain ⟨c, hExec, hEq⟩ := Option.map_eq_some_iff.mp hRun
  simp only [Prod.mk.injEq] at hEq
  have hNone := (h c (System.reachable_of_exec hExec)).unwritten hEq.1 hEq.2.1
  rw [hEq.2.2] at hNone
  cases hNone

end MySQL.ThrLock
