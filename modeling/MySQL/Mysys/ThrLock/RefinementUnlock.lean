import MySQL.Mysys.ThrLock.Refinement

/-! Refinement of the calls that wake waiting requests. The loops over the
links are followed element by element; what they leave is then the model's
list operation. -/
namespace MySQL.ThrLock
open Function List Library Model

variable {c : LinkedLock} {a : QueuedLock} {q : ListName → List DataId} {d : DataId}

private def freedLock (c : LinkedLock) (L : Links ListName DataId) (freed : List DataId) :
    LinkedLock :=
  { c with
    queues := L
    cond := fun e => if e ∈ freed then false else c.cond e
    readNoWriteCount := c.readNoWriteCount + freed.countP fun e => c.type e = .readNoInsert }

private theorem freedLock_freedLock (L L' : Links ListName DataId) (freed freed' : List DataId) :
    freedLock (freedLock c L freed) L' freed' = freedLock c L' (freed ++ freed') := by
  unfold freedLock
  congr 1
  · funext e
    by_cases hFreed' : e ∈ freed' <;> by_cases hFreed : e ∈ freed <;> simp [hFreed, hFreed']
  · simp [countP_append, Nat.add_assoc]

private def moved (q : ListName → List DataId) (reads left : List DataId) :
    ListName → List DataId :=
  Function.update (Function.update q .read reads) .readWait (q .readWait ++ left)

private theorem moved_moved (reads reads' left left' : List DataId) :
    moved (moved q reads left) reads' left' = moved q reads' (left ++ left') := by
  funext n
  cases n <;> simp [moved]

private def back (keep : Bool) (type : DataId → LockType) (e : DataId) : Bool :=
  keep && type e = .readNoInsert

private theorem freeOne_spec (keep : Bool) {before after : List DataId}
    (hRep : c.queues.Represents (some .readWait) q) (hRead : q .read = before ++ d :: after) :
    ∃ L : Links ListName DataId, L.Represents (some .readWait)
        (moved q (before ++ ([d].filter fun e => !back keep c.type e) ++ after)
          ([d].filter (back keep c.type))) ∧
      L.next d = after.head? ∧
      Code.freeOne keep c d = freedLock c L ([d].filter fun e => !back keep c.type e) := by
  have hMem : d ∈ q .read := by simp [hRead]
  have hNext : c.queues.next d = after.head? :=
    (hRead ▸ hRep.holds .read).next_eq_head?
      (hRep.terminated .read (by simp))
  cases hBack : back keep c.type d with
  | true =>
    obtain ⟨rfl, hType⟩ : keep = true ∧ c.type d = .readNoInsert := by
      simpa [back] using hBack
    have hErase : (q .read).erase d = before ++ after := by
      have hNodup := hRead ▸ hRep.separate.nodup .read
      have hd : d ∉ before := fun hb => (nodup_append.mp hNodup).2.2 d hb d (by simp) rfl
      rw [hRead, erase_append_right _ hd, erase_cons_head]
    have hUnlinked := hRep.unlink (by simp) hMem
    have hFresh : ∀ m, d ∉ update q .read ((q .read).erase d) m :=
      fun m => hRep.separate.notMem_erase hMem
    refine ⟨(c.queues.unlink .read d).append .readWait d, ?_, ?_, ?_⟩
    · have hAppended := hUnlinked.append hFresh (absurd rfl)
      rw [hErase] at hAppended
      simpa [moved, hBack, update_of_ne] using hAppended
    · rw [hUnlinked.next_append hFresh, hRep.next_unlink hMem, hNext]
    · simp [Code.freeOne, Code.append, Code.unlink, freedLock, hType, hBack]
  | false =>
    have hFree : ([d].filter fun e => !back keep c.type e) = [d] := by simp [hBack]
    have hLeft : [d].filter (back keep c.type) = [] := by simp [hBack]
    rw [hFree, hLeft]
    refine ⟨c.queues, ?_, hNext, ?_⟩
    · have hSame : moved q (before ++ [d] ++ after) [] = q := by
        funext n
        cases n <;> simp [moved, hRead]
      rwa [hSame]
    · have hCond : update c.cond d false = fun e => if e ∈ [d] then false else c.cond e := by
        funext e
        simp [update_apply]
      by_cases hType : c.type d = .readNoInsert
      · have hKeep : keep = false := by simpa [back, hType] using hBack
        simp [Code.freeOne, freedLock, Lock.setCond, hType, hKeep, hCond]
      · simp [Code.freeOne, freedLock, Lock.setCond, hType, hCond]

variable {fuel : Nat}

private theorem freeLoop_spec (keep : Bool) (type : DataId → LockType) :
    ∀ (c : LinkedLock) (before : List DataId) (d : DataId) {after : List DataId}
      {q : ListName → List DataId}, after.length < fuel → c.type = type →
      c.queues.Represents (some .readWait) q → q .read = before ++ d :: after →
      ∃ L : Links ListName DataId, L.Represents (some .readWait)
          (moved q (before ++ ((d :: after).filter fun e => !back keep type e))
            ((d :: after).filter (back keep type))) ∧
        Code.freeLoop keep fuel c d =
          freedLock c L ((d :: after).filter fun e => !back keep type e) := by
  induction fuel with
  | zero => simp
  | succ fuel ih =>
    rintro c before d after q hFuel rfl hRep hRead
    obtain ⟨L, hOne, hNext, hEq⟩ := freeOne_spec keep hRep hRead
    simp only [Code.freeLoop, hEq]
    have hLink (freed : List DataId) : (freedLock c L freed).queues.next d = after.head? := hNext
    rw [hLink]
    cases after with
    | nil => exact ⟨L, by simpa using hOne, rfl⟩
    | cons y after =>
      obtain ⟨L', hRest, hLoop⟩ := ih (freedLock c L _)
        (before ++ [d].filter fun e => !back keep c.type e) y
        (by simpa using hFuel) rfl hOne (by simp [moved])
      refine ⟨L', ?_, ?_⟩
      · rw [moved_moved, append_assoc, ← filter_append, ← filter_append] at hRest
        exact hRest
      · simp only [head?_cons]
        rw [hLoop, freedLock_freedLock, ← filter_append]
        rfl

theorem Refines.freeAllReadLocks (h : Refines c a) (usingConcurrentInsert : Bool) :
    Refines (Code.freeAllReadLocks c usingConcurrentInsert)
      (freeAllReadLocks a usingConcurrentInsert) := by
  have hLength := h.length_le .readWait
  have hData := h.data_eq .readWait
  unfold Code.freeAllReadLocks
  rw [hData, first]
  cases hWait : a.queues .readWait with
  | nil =>
    rw [freeAllReadLocks_of_nil hWait]
    exact h
  | cons d rest =>
    obtain ⟨L, rfl, hRep, hBound⟩ := h
    have hFuel : rest.length < a.instances := by
      rw [hWait] at hLength
      exact hLength
    have hPoured := hRep.pour (show ListName.readWait ≠ .read by simp) hWait
    obtain ⟨L', hFreed, hLoop⟩ := freeLoop_spec usingConcurrentInsert a.type
      (a.withQueues (L.pour .readWait .read d)) (a.queues .read) d hFuel rfl hPoured
      (by simp [hWait])
    -- the lists left behind are those of the model
    have hLists : (moved (update (update a.queues .readWait []) .read
          (a.queues .read ++ a.queues .readWait))
        (a.queues .read ++ (d :: rest).filter fun e => !back usingConcurrentInsert a.type e)
        ((d :: rest).filter (back usingConcurrentInsert a.type))) =
        (freeAllReadLocks a usingConcurrentInsert).queues := by
      funext n
      cases n <;> simp [moved, freeAllReadLocks, put, hWait] <;> rfl
    have hTerminated := hFreed.terminate
    have hHead := hTerminated.data_eq_head? .readWait
    rw [hLists] at hTerminated hHead
    refine ⟨L'.terminate .readWait, ?_, hTerminated, ?_⟩
    · change Code.endReadWait (Code.freeLoop usingConcurrentInsert a.instances
        (a.withQueues (L.pour .readWait .read d)) d) = _
      rw [hLoop]
      simp only [freeAllReadLocks_readWait, hWait] at hHead
      simp only [Code.endReadWait, freedLock, freeAllReadLocks, hWait, Lock.withQueues,
        hHead, List.head?_eq_none_iff, ne_eq, reduceCtorEq, not_false_eq_true, true_and]
      rfl
    · intro n e he
      cases n with
      | read =>
        simp only [freeAllReadLocks_read, mem_append, mem_filter] at he
        rcases he with he | ⟨he, -⟩ <;> exact hBound _ e he
      | readWait => exact hBound .readWait e (mem_of_mem_filter he)
      | write => exact hBound .write e he
      | writeWait => exact hBound .writeWait e he

namespace Model
variable {s : QueuedLock} {d e : DataId} {rest : List DataId}

theorem start_start (started started' : List DataId) :
    start (start s started) started' = start s (started ++ started') := by
  have hQueues : (start (start s started) started').queues =
      (start s (started ++ started')).queues := by
    funext n
    cases n <;> simp [append_assoc]
  have hCond : (start (start s started) started').cond = (start s (started ++ started')).cond := by
    funext f
    by_cases h' : f ∈ started' <;> by_cases h : f ∈ started <;> simp [start, h, h']
  apply Lock.ext hQueues rfl rfl hCond rfl rfl rfl

/-- A batch of more than one writer is started one writer at a time. -/
theorem startBatch_of_two (hWait : s.queues .writeWait = d :: e :: rest)
    (hd : s.type d = .writeAllowWrite) (he : s.type e = .writeAllowWrite) :
    startBatch s = startBatch (start s [d]) := by
  have hBatch : batch s = [d] ++ batch (start s [d]) := by
    simp only [batch, start_writeWait, hWait, length_singleton, drop_succ_cons,
      drop_zero, if_pos hd, if_pos (show (start s [d]).type e = _ from he)]
    rw [takeWhile_cons_of_pos (by simpa using he)]
    rfl
  rw [startBatch, hBatch, ← start_start, startBatch]

theorem startBatch_of_one (hWait : s.queues .writeWait = d :: rest)
    (hStop : s.type d ≠ .writeAllowWrite ∨ ∀ e ∈ rest.head?, s.type e ≠ .writeAllowWrite) :
    startBatch s = start s [d] := by
  rw [startBatch, batch, hWait]
  rcases hStop with hd | he
  · simp [hd]
  · cases rest with
    | nil => simp
    | cons e rest => simp [he e (by simp)]

end Model

variable {rest : List DataId}

private theorem Refines.startWrite (h : Refines c a) (hWait : a.queues .writeWait = d :: rest) :
    Refines ((Code.startWrite c d).setCond d false) (start a [d]) := by
  have hMem : d ∈ a.queues .writeWait := by simp [hWait]
  have hFresh : ∀ m, d ∉ (remove a .writeWait d).queues m :=
    fun m => h.separate.notMem_erase hMem
  have hInst : d < a.instances := by
    obtain ⟨-, -, -, hBound⟩ := h
    exact hBound _ d hMem
  have hStarted : start a [d] =
      (Model.append (remove a .writeWait d) .write d).setCond d false := by
    apply Lock.ext
    · funext n
      cases n <;> simp [Model.append, remove, put, hWait]
    · rfl
    · rfl
    · funext e
      simp [start, Model.append, remove, put]
    all_goals rfl
  rw [hStarted]
  have hRemoved := h.unlink hMem
  obtain ⟨L, hEq, hRep, hBound⟩ := hRemoved
  apply Refines.setCond
  refine ⟨L.appendLast .write d, ?_, hRep.appendLast hFresh, ?_⟩
  · rw [Code.startWrite, hEq]
    rfl
  · intro n e he
    rcases eq_or_ne n .write with rfl | hn
    · simp only [Model.append, put, update_self, mem_append, mem_singleton] at he
      rcases he with he | rfl
      · exact hBound _ e he
      · exact hInst
    · simp only [Model.append, put, update_of_ne hn] at he
      exact hBound _ e he

variable {checkStatus : Bool}

private theorem startedType_of_allowWrite {s : QueuedLock} {d : DataId}
    (h : s.type d = .writeAllowWrite) : startedType checkStatus s d = s.type d := by
  simp [startedType, h]

/-- One round of the `for (;;)` of `thr_unlock`. -/
private theorem Refines.startUpgraded (h : Refines c a) (checkStatus : Bool)
    (hWait : a.queues .writeWait = d :: rest) :
    Refines ((if (Code.startWrite c d).type d = .writeConcurrentInsert ∧ checkStatus = true then
        (Code.startWrite c d).setType d .write else Code.startWrite c d).setCond d false)
      (start (a.setType d (startedType checkStatus a d)) [d]) := by
  have hType : (Code.startWrite c d).type = a.type := h.type_eq
  have hStarted := h.startWrite hWait
  rw [hType, startedType]
  split_ifs
  · exact hStarted.setType d .write
  · rw [Lock.setType_self]
    exact hStarted

private theorem Refines.startWriters (checkStatus : Bool) :
    ∀ {c : LinkedLock} {a : QueuedLock} {d : DataId} {rest : List DataId},
      Refines c a → a.queues .writeWait = d :: rest → rest.length < fuel →
      Refines (Code.startWriters checkStatus fuel c d).1
          (startBatch (a.setType d (startedType checkStatus a d))) ∧
        (a.setType d (startedType checkStatus a d)).type
            (Code.startWriters checkStatus fuel c d).2 =
          startedType checkStatus a d := by
  induction fuel with
  | zero => simp
  | succ fuel ih =>
    intro c a d rest h hWait hFuel
    have hStarted := h.startUpgraded checkStatus hWait
    set type := startedType checkStatus a d
    have hd : (a.setType d type).type d = type := by simp
    have hRest : (start (a.setType d type) [d]).queues .writeWait = rest := by
      simp [hWait]
    unfold Code.startWriters
    simp only [hStarted.data_eq, first, hRest, hStarted.type_eq, start_type]
    cases rest with
    | nil =>
      rw [startBatch_of_one (s := a.setType d type) hWait (.inr (by simp))]
      exact ⟨hStarted, hd⟩
    | cons e rest =>
      by_cases hStop : (a.setType d type).type d ≠ .writeAllowWrite ∨
          (a.setType d type).type e ≠ .writeAllowWrite
      · simp only [head?_cons, if_pos hStop]
        rw [startBatch_of_one (s := a.setType d type) hWait (by simpa using hStop)]
        exact ⟨hStarted, hd⟩
      · simp only [head?_cons, if_neg hStop]
        simp only [ne_eq, not_or, not_not] at hStop
        have hSame : startedType checkStatus (start (a.setType d type) [d]) e =
            (start (a.setType d type) [d]).type e :=
          startedType_of_allowWrite hStop.2
        obtain ⟨hIh, hLast⟩ := ih hStarted hRest (by simpa using hFuel)
        rw [hSame, Lock.setType_self] at hIh hLast
        rw [startBatch_of_two (s := a.setType d type) hWait hStop.1 hStop.2]
        refine ⟨hIh, ?_⟩
        rw [start_type] at hLast
        rw [hLast, hStop.2, ← hStop.1, hd]

/-- Without a status check the two loops of `thr_unlock` start the same writers. -/
private theorem startSharedWriters_eq :
    ∀ (c : LinkedLock) (d : DataId),
      Code.startSharedWriters (c.type d) fuel c d = (Code.startWriters false fuel c d).1 := by
  induction fuel with
  | zero =>
    intro c d
    rfl
  | succ fuel ih =>
    intro c d
    simp only [Code.startSharedWriters, Code.startWriters, and_false, if_false, Bool.false_eq_true]
    set s := (Code.startWrite c d).setCond d false
    have hType : s.type d = c.type d := rfl
    cases Code.data s .writeWait with
    | none => rfl
    | some e =>
      by_cases hNext : c.type d = .writeAllowWrite ∧ s.type e = .writeAllowWrite
      · simp [hType, hNext, ← ih]
      · simp only [if_neg hNext, hType]
        rw [if_pos (not_and_or.mp hNext)]

private theorem writerFirst_iff (h : Refines c a) :
    Code.writerFirst c d = true ↔ writerFirst a d := by
  unfold Code.writerFirst writerFirst
  rw [h.data_eq, h.type_eq]
  cases first a .readWait <;> simp

/-- The first of the waiting writers leaves fuel for those behind it. -/
private theorem Refines.length_lt (h : Refines c a) (hWait : a.queues .writeWait = d :: rest) :
    rest.length < c.instances := by
  have hLength := h.length_le .writeWait
  rw [hWait] at hLength
  rw [h.instances_eq]
  exact hLength

variable {env : Env}

theorem Refines.giveToWaiting (h : Refines c a) :
    Refines (Code.giveToWaiting env checkStatus c) (giveToWaiting env checkStatus a) := by
  unfold Code.giveToWaiting Model.giveToWaiting
  rw [h.data_eq]
  cases hFirst : first a .writeWait with
  | none => exact h.freeAllReadLocks false
  | some d =>
    obtain ⟨rest, hWait⟩ := first_eq_some_iff.mp hFirst
    apply rel_ite (writerFirst_iff h)
    · intro _
      rw [h.writeLockCount_eq]
      have hCounted := h.setWriteLockCount (if a.writeLockCount > env.maxWriteLockCount then 0
        else (a.writeLockCount + 1) % 2 ^ 64)
      apply rel_ite
      · rw [hCounted.data_eq, first]
        simp [List.head?_eq_none_iff, ← Option.ne_none_iff_isSome]
      · intro _
        exact hCounted.freeAllReadLocks false
      · intro _
        obtain ⟨hStarted, hLast⟩ := Refines.startWriters checkStatus hCounted hWait
          (hCounted.length_lt hWait)
        have hType := (congrFun hStarted.type_eq _).trans hLast
        apply rel_ite
        · exact iff_of_eq (congrArg (LockType.writeLowPriority ≤ ·) hType)
        · intro _
          exact hStarted
        · intro _
          rw [hType]
          exact hStarted.freeAllReadLocks _
    · intro hLow
      have hType : a.type d = .writeLowPriority := by
        by_contra hOther
        exact hLow (.inl hOther)
      rw [h.type_eq, hType]
      exact h.freeAllReadLocks false

theorem Refines.giveBesideReaders (h : Refines c a) :
    Refines (Code.giveBesideReaders checkStatus c) (giveBesideReaders checkStatus a) := by
  unfold Code.giveBesideReaders Model.giveBesideReaders
  rw [h.data_eq]
  cases hFirst : first a .writeWait with
  | none => exact h.freeAllReadLocks false
  | some d =>
    obtain ⟨rest, hWait⟩ := first_eq_some_iff.mp hFirst
    simp only [h.type_eq]
    apply rel_ite
    · rw [writerStarts, h.readNoWriteCount_eq]
    · intro _
      apply rel_ite Iff.rfl
      · intro _
        exact (h.setType d .write).freeAllReadLocks false
      · intro _
        have hStarted := (Refines.startWriters false h hWait (h.length_lt hWait)).1
        have hSame : startedType false a d = a.type d := by simp [startedType]
        rw [hSame, Lock.setType_self, ← startSharedWriters_eq, h.type_eq] at hStarted
        exact hStarted.freeAllReadLocks _
    · intro _
      exact h

private theorem Refines.give (h : Refines c a) : Refines (if (Code.data c .write).isSome then c
      else if (Code.data c .read).isNone then Code.giveToWaiting env checkStatus c
      else Code.giveBesideReaders checkStatus c)
      (give env checkStatus a) := by
  unfold Model.give
  apply rel_ite
  · simp [h.data_eq, first, ← Option.ne_none_iff_isSome]
  · intro _
    exact h
  · intro _
    apply rel_ite
    · simp [h.data_eq, first]
    · intro _
      exact h.giveToWaiting
    · intro _
      exact h.giveBesideReaders

theorem Refines.thrUnlock (h : Refines c a) (hd : d ∈ a.queues (heldIn a d)) :
    Refines (Code.thrUnlock env checkStatus c d) (thrUnlock env checkStatus a d) := by
  unfold Code.thrUnlock Model.thrUnlock
  apply Refines.give
  simp only [h.type_eq, h.cond_eq]
  have hRemoved := (h.unlink hd)
  have hReleased : Refines (if a.type d = .readNoInsert then
        { Code.unlink c (heldIn a d) d with
          readNoWriteCount := (Code.unlink c (heldIn a d) d).readNoWriteCount - 1 }
      else Code.unlink c (heldIn a d) d)
      { remove a (heldIn a d) d with
        readNoWriteCount := a.readNoWriteCount - if a.type d = .readNoInsert then 1 else 0 } := by
    rw [hRemoved.readNoWriteCount_eq]
    split_ifs
    · exact hRemoved.setReadNoWriteCount _
    · exact hRemoved
  exact hReleased.setType d .unlock

end MySQL.ThrLock
