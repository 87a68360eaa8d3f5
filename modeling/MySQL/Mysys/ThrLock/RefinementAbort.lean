import MySQL.Mysys.ThrLock.RefinementUnlock

/-! Refinement of the calls that abort waits or take a running lock back. -/
namespace MySQL.ThrLock
open Library Model

variable {c : LinkedLock} {a : QueuedLock} {d : DataId} {n : ListName}

variable {before : List DataId}

/-- The element behind `d` in a list. -/
private theorem Refines.next_eq_head? {after : List DataId} (h : Refines c a)
    (hList : a.queues n = before ++ d :: after) : c.queues.next d = after.head? := by
  obtain ⟨L, rfl, hRep, -⟩ := h
  exact (hList ▸ hRep.holds n).next_eq_head?
    (hRep.terminated n (by simp))

private theorem Refines.markAborted (h : Refines c a) (ids : List DataId) :
    Refines (c.markAborted ids) (a.markAborted ids) := by
  obtain ⟨L, rfl, hRep, hBound⟩ := h
  exact ⟨L, rfl, hRep, hBound⟩

/-- The loop marks what is left of the list; the induction is on the part that it has not reached. -/
private theorem abortLoop_eq {fuel : Nat} :
    ∀ {c : LinkedLock} {a : QueuedLock} {before ids : List DataId}, Refines c a →
      a.queues n = before ++ ids → ids.length ≤ fuel →
      Code.abortLoop fuel c ids.head? = c.markAborted ids := by
  induction fuel with
  | zero =>
    intro c a before ids h hList hFuel
    rw [List.length_eq_zero_iff.mp (Nat.le_zero.mp hFuel), Lock.markAborted_nil]
    rfl
  | succ fuel ih =>
    intro c a before ids h hList hFuel
    cases ids with
    | nil => exact c.markAborted_nil.symm
    | cons d ids =>
      have hRest : (a.markAborted [d]).queues n = (before ++ [d]) ++ ids := by
        simp [hList]
      have hLoop := ih (h.markAborted [d]) hRest (by simpa using hFuel)
      simp only [List.head?_cons, Code.abortLoop, h.next_eq_head? hList]
      rw [← Lock.markAborted_singleton, hLoop, Lock.markAborted_markAborted]
      rfl

/-- A loop of `thr_abort_locks` over the whole of a list. -/
private theorem Refines.abortLoop_eq (h : Refines c a) (n : ListName) :
    Code.abortLoop c.instances c (Code.data c n) = c.markAborted (a.queues n) := by
  have hList : a.queues n = [] ++ a.queues n := rfl
  rw [h.data_eq, h.instances_eq]
  exact ThrLock.abortLoop_eq h hList (h.length_le n)

/-- After the loop the code empties the list by its two ends. -/
private theorem Refines.clear (h : Refines c a) (n : ListName) :
    Refines { c with queues := c.queues.clear n } (put a n []) := by
  obtain ⟨L, rfl, hRep, hBound⟩ := h
  exact ⟨L.clear n, rfl, hRep.clear n, bound_update hBound (by simp)⟩

/-- The running writer becomes `TL_WRITE_ONLY` on both sides. -/
private theorem Refines.closeHead (h : Refines c a) : Refines (match Code.data c .write with
      | some d => c.setType d .writeOnly
      | none => c)
      (match first a .write with
      | some d => a.setType d .writeOnly
      | none => a) := by
  rw [h.data_eq]
  cases first a .write with
  | none => exact h
  | some d => exact h.setType d .writeOnly

/-- Aborting every request empties the list. -/
private theorem abort_all (s : QueuedLock) (n : ListName) :
    abort s n (fun _ => true) = put (s.markAborted (s.queues n)) n [] := by
  simp [abort]

/-- `thr_abort_locks` does to the links what the model does to the lists. -/
theorem Refines.thrAbortLocks (h : Refines c a) :
    Refines (Code.thrAbortLocks c) (thrAbortLocks a) := by
  have hFirst := h.markAborted (a.queues .readWait)
  have hSecond := hFirst.markAborted (a.queues .writeWait)
  have hCleared := (hSecond.clear .readWait).clear .writeWait
  -- the model empties a list as soon as it has marked it, the code both at the end
  have hModel : abort (abort a .readWait fun _ => true) .writeWait (fun _ => true) =
      put (put ((a.markAborted (a.queues .readWait)).markAborted
        (a.queues .writeWait)) .readWait []) .writeWait [] := by
    rw [abort_all, abort_all]
    rfl
  unfold Code.thrAbortLocks Model.thrAbortLocks
  simp only [hModel, h.abortLoop_eq .readWait, hFirst.abortLoop_eq .writeWait]
  exact hCleared.closeHead

/-- The lock after the loop for a thread has passed `ids`; those `before` were kept. -/
private def passed (a : QueuedLock) (n : ListName) (before ids : List DataId)
    (killed : DataId → Bool) : QueuedLock :=
  put (a.markAborted (ids.filter killed)) n (before ++ ids.filter fun d => !killed d)

variable {killed : DataId → Bool}

/-- A request of the thread is unlinked, so the loop goes on behind the same `before`. -/
private theorem passed_cons_of_killed {ids : List DataId} (hd : killed d = true) :
    passed (remove (a.markAborted [d]) n d) n before ids killed =
      passed a n before (d :: ids) killed := by
  have hMark : (a.markAborted [d]).markAborted (ids.filter killed) =
      a.markAborted ((d :: ids).filter killed) := by
    rw [Lock.markAborted_markAborted, List.filter_cons_of_pos hd]
    rfl
  have hLeft : ((d :: ids).filter fun e => !killed e) = ids.filter fun e => !killed e := by
    simp [hd]
  unfold passed
  rw [hLeft, ← hMark]
  apply Lock.ext
  · simp [put, remove]
  all_goals rfl

private theorem passed_cons_of_kept {ids : List DataId} (hd : killed d = false) :
    passed a n (before ++ [d]) ids killed = passed a n before (d :: ids) killed := by
  simp [passed, hd]

private theorem passed_nil (hList : a.queues n = before) : passed a n before [] killed = a := by
  simp [passed, put, Lock.markAborted_nil, ← hList]

/-- The loop for a thread reads `next` before it unlinks a request, so it goes on in the rest of the list. -/
private theorem abortThreadLoop_refines {env : Env} {thread : Thread} {fuel : Nat} :
    ∀ {c : LinkedLock} {a : QueuedLock} {before ids : List DataId}, Refines c a →
      a.queues n = before ++ ids → ids.length ≤ fuel →
      Refines (Code.abortThreadLoop env thread n fuel c ids.head?)
        (passed a n before ids (ofThread env a thread)) := by
  induction fuel with
  | zero =>
    intro c a before ids h hList hFuel
    rw [List.length_eq_zero_iff.mp (Nat.le_zero.mp hFuel)] at hList ⊢
    rw [passed_nil (by simpa using hList)]
    exact h
  | succ fuel ih =>
    intro c a before ids h hList hFuel
    cases ids with
    | nil =>
      rw [passed_nil (by simpa using hList)]
      exact h
    | cons d ids =>
      have hMem : d ∈ a.queues n := by simp [hList]
      have hNext := h.next_eq_head? hList
      simp only [List.head?_cons, Code.abortThreadLoop, h.owner_eq]
      cases hKilled : ofThread env a thread d with
      | true =>
        have hThread : thread = env.thread (env.info (a.owner d)) := by
          simpa [ofThread] using hKilled
        have hMarked := h.markAborted [d]
        have hRemoved := hMarked.unlink hMem
        have hErase : (remove (a.markAborted [d]) n d).queues n = before ++ ids := by
          have hNodup := hList ▸ h.separate.nodup n
          have hd : d ∉ before :=
            fun hb => (List.nodup_append.mp hNodup).2.2 d hb d (by simp) rfl
          simp [remove, put, hList, List.erase_append_right _ hd]
        have hLink : (Code.unlink (c.markAborted [d]) n d).queues.next d = ids.head? := by
          obtain ⟨L, rfl, hRep, -⟩ := h
          exact (hRep.next_unlink hMem).trans hNext
        rw [if_pos hThread, ← Lock.markAborted_singleton, hLink, ← passed_cons_of_killed hKilled]
        exact ih hRemoved hErase (by simpa using hFuel)
      | false =>
        have hThread : thread ≠ env.thread (env.info (a.owner d)) := by
          simpa [ofThread] using hKilled
        rw [if_neg hThread, hNext, ← passed_cons_of_kept hKilled]
        exact ih h (by simpa using hList) (by simpa using hFuel)

section
variable (h : Refines c a)
include h

private theorem Refines.abortThread (env : Env) (thread : Thread) (n : ListName) :
    Refines (Code.abortThreadLoop env thread n c.instances c (Code.data c n))
      (abort a n (ofThread env a thread)) := by
  have hList : a.queues n = [] ++ a.queues n := rfl
  rw [h.data_eq, h.instances_eq]
  exact abortThreadLoop_refines h hList (h.length_le n)

/-- `thr_abort_locks_for_thread` does to the links what the model does to the lists. -/
theorem Refines.thrAbortLocksForThread (env : Env) (thread : Thread) :
    Refines (Code.thrAbortLocksForThread env c thread)
      (thrAbortLocksForThread env a thread) :=
  (h.abortThread env thread .readWait).abortThread env thread .writeWait

/-- The writer is unlinked and put before the head of the wait list. -/
private theorem Refines.requeueWrite (hd : d ∈ a.queues .write) :
    Refines (Code.requeueWrite c d) (requeueWrite a d) := by
  have hFresh : ∀ m, d ∉ (remove a .write d).queues m :=
    fun m => h.separate.notMem_erase hd
  have hInst : d < a.instances := by
    obtain ⟨-, -, -, hBound⟩ := h
    exact hBound _ d hd
  obtain ⟨L, hEq, hRep, hBound⟩ := h.unlink hd
  refine ⟨L.pushFront .writeWait d, ?_, hRep.pushFront (by simp) hFresh, ?_⟩
  · rw [Code.requeueWrite, hEq]
    rfl
  · refine bound_update hBound fun e he => ?_
    rcases List.mem_cons.mp he with rfl | he
    · exact hInst
    · exact hBound _ e he

/-- An instance without a condition that is locked for writing is among the running writers. -/
theorem Refines.thrUpgradeWriteDelayLock
    (hd : a.type d ≠ .unlock → a.cond d = false → d ∈ a.queues .write) :
    RefinesResult (Code.thrUpgradeWriteDelayLock c d) (thrUpgradeWriteDelayLock a d) := by
  unfold Code.thrUpgradeWriteDelayLock Model.thrUpgradeWriteDelayLock
  rw [h.type_eq]
  apply rel_ite Iff.rfl
  · intro _
    exact ⟨h, rfl⟩
  · intro hLocked
    apply rel_ite Iff.rfl
    · intro _
      exact ⟨h, rfl⟩
    · intro _
      have hTyped := h.setType d .write
      apply rel_ite (by rw [hTyped.cond_eq])
      · intro hGiven
        apply rel_ite
        · simp [hTyped.data_eq, first]
        · intro _
          exact ⟨hTyped, rfl⟩
        · intro _
          have hMem := hd hLocked (by simpa using hGiven)
          exact ⟨(hTyped.requeueWrite hMem).setCond d true, rfl⟩
      · intro hWaiting
        have hCond : a.cond d = true := by simpa using hWaiting
        have hSet : (a.setType d .write).setCond d true = a.setType d .write := by
          rw [← hCond]
          exact Lock.ext rfl rfl rfl (Function.update_eq_self d a.cond) rfl rfl rfl
        have hWaits := hTyped.setCond d true
        rw [hSet] at hWaits
        exact ⟨hWaits, rfl⟩

/-- `thr_reschedule_write_lock` does to the links what the model does to the lists. -/
theorem Refines.thrRescheduleWriteLock (hd : d ∈ a.queues .write) :
    Refines (Code.thrRescheduleWriteLock c d) (thrRescheduleWriteLock a d) := by
  unfold Code.thrRescheduleWriteLock Model.thrRescheduleWriteLock
  rw [h.data_eq, first]
  cases hWait : a.queues .readWait with
  | nil => exact h
  | cons r rest =>
    simp only [List.head?_cons, Option.isNone_some, Bool.false_eq_true, if_false, reduceCtorEq]
    have hRequeued := (h.setType d .writeDelayed).requeueWrite (d := d) hd
    exact (hRequeued.setCond d true).freeAllReadLocks false

end

/-- Empty lists are represented by null pointers. -/
theorem refines_thrLockInit : Refines Code.thrLockInit thrLockInit :=
  ⟨.empty, rfl, Links.represents_empty, fun n e he => by simp [thrLockInit] at he⟩

/-- A new instance is in no list yet. -/
theorem Refines.thrLockDataInit (h : Refines c a) :
    Refines (Code.thrLockDataInit c) (thrLockDataInit a) := by
  obtain ⟨L, rfl, hRep, hBound⟩ := h
  exact ⟨L, rfl, hRep, fun n e he => Nat.lt_succ_of_lt (hBound n e he)⟩

end MySQL.ThrLock
