import MySQL.Mysys.ThrLock.Sessions

/-! What a request and a release can do, case by case with the tests that led
there. Every invariant of the lists is read off these cases. -/
namespace MySQL.ThrLock.Model
open Function Option

def readerBlocked (s : QueuedLock) (owner : Owner) (lockType : LockType) : Prop :=
  (∃ w ∈ first s .write, ¬ readerPasses s w owner lockType) ∨
    (s.queues .write = [] ∧ ¬ readerOvertakes s owner lockType)

def writerBlocked (s : QueuedLock) (owner : Owner) (lockType : LockType) : Prop :=
  (∃ w ∈ first s .write, ¬ writerJoins s w owner lockType) ∨
    (s.queues .write = [] ∧
      (s.queues .writeWait ≠ [] ∨ (s.queues .read ≠ [] ∧ ¬ writerStarts s lockType)))

inductive Decided (env : Env) (s : QueuedLock) (d : DataId) : QueuedLock × Outcome → Prop
  | aborted : Decided env s d (s.setType d .unlock, .aborted)
  | deadlock : Decided env s d (s, .deadlock)
  | readBeside {w : DataId} (hType : s.type d ≤ .readNoInsert) (hFirst : first s .write = some w)
      (hPasses : readerPasses s w (s.owner d) (s.type d)) :
      Decided env s d (grantRead s d (s.type d), .success)
  | readAlone (hType : s.type d ≤ .readNoInsert) (hWrite : s.queues .write = [])
      (hOvertakes : readerOvertakes s (s.owner d) (s.type d)) :
      Decided env s d (grantRead s d (s.type d), .success)
  | readWaits (hType : s.type d ≤ .readNoInsert)
      (hBlocked : readerBlocked s (s.owner d) (s.type d))
      (hOther : ownConnection env s (s.owner d) = false) :
      Decided env s d (wait s .readWait d, .waits .readWait)
  | writeBeside {w : DataId} (hType : .readNoInsert < s.type d)
      (hFirst : first s .write = some w) (hOnly : s.type w ≠ .writeOnly)
      (hJoins : writerJoins s w (s.owner d) (s.type d)) :
      Decided env s d (append s .write d, .success)
  | writeAlone (hType : .readNoInsert < s.type d) (hWrite : s.queues .write = [])
      (hWait : s.queues .writeWait = [])
      (hRead : s.queues .read = [] ∨ writerStarts s (s.type d)) :
      Decided env s d (append s .write d, .success)
  | writeWaits (hType : .readNoInsert < s.type d)
      (hBlocked : writerBlocked s (s.owner d) (s.type d))
      (hOther : ownConnection env s (s.owner d) = false) :
      Decided env s d (wait s .writeWait d, .waits .writeWait)
  | delayed (hType : s.type d = .writeDelayed)
      (hBusy : s.queues .write ≠ [] ∨ s.queues .read ≠ []) :
      Decided env s d (wait s .writeWait d, .success)

section
variable {env : Env} {checkStatus : Bool} {s : QueuedLock} {d : DataId} {n : ListName}

private theorem decided_waitOrDeadlock
    (hWaits : ownConnection env s (s.owner d) = false → Decided env s d (wait s n d, .waits n)) :
    Decided env s d (waitOrDeadlock env s d (s.owner d) n) := by
  unfold waitOrDeadlock
  cases hOwn : ownConnection env s _ with
  | true => exact .deadlock
  | false => exact hWaits hOwn

private theorem decided_thrLockRead (env : Env) (hType : s.type d ≤ .readNoInsert) :
    Decided env s d (thrLockRead env s d (s.owner d) (s.type d)) := by
  unfold thrLockRead
  cases hFirst : first s .write with
  | some w =>
    dsimp only
    split_ifs with hPasses
    · exact .readBeside hType hFirst hPasses
    · exact .aborted
    · exact decided_waitOrDeadlock (.readWaits hType (.inl ⟨w, hFirst, hPasses⟩))
  | none =>
    have hWrite := first_eq_none_iff.mp hFirst
    split_ifs with hOvertakes
    · exact .readAlone hType hWrite hOvertakes
    · exact decided_waitOrDeadlock (.readWaits hType (.inr ⟨hWrite, hOvertakes⟩))

/-- The type a write request goes on with once `check_status` has answered. -/
def grantedType (env : Env) (checkStatus : Bool) (s : QueuedLock) (t : LockType) : LockType :=
  if s.queues .write = [] ∧ s.queues .writeWait = [] ∧ t = .writeConcurrentInsert ∧ checkStatus
  then env.upgradedConcurrentInsertLock else t

theorem readNoInsert_lt_upgraded (env : Env) :
    .readNoInsert < env.upgradedConcurrentInsertLock := by
  unfold Env.upgradedConcurrentInsertLock
  split <;> decide

private theorem decided_thrLockWrite (env : Env) (checkStatus : Bool)
    (hType : .readNoInsert < s.type d) :
    Decided env (s.setType d (grantedType env checkStatus s (s.type d))) d
      (thrLockWrite env checkStatus s d (s.owner d) (s.type d)) := by
  unfold thrLockWrite
  cases hFirst : first s .write with
  | some w =>
    obtain ⟨rest, hWrite⟩ := first_eq_some_iff.mp hFirst
    have hSame : grantedType env checkStatus s (s.type d) = s.type d := by
      simp [grantedType, hWrite]
    rw [hSame, Lock.setType_self]
    dsimp only
    split_ifs with hOnly hJoins
    · exact .aborted
    · exact .writeBeside hType hFirst hOnly hJoins
    · exact decided_waitOrDeadlock (.writeWaits hType (.inl ⟨w, hFirst, hJoins⟩))
  | none =>
    have hWrite := first_eq_none_iff.mp hFirst
    dsimp only
    by_cases hWait : s.queues .writeWait = []
    · rw [if_pos hWait]
      have hGranted : (if s.type d = .writeConcurrentInsert ∧ checkStatus = true then
          env.upgradedConcurrentInsertLock else s.type d) =
          grantedType env checkStatus s (s.type d) := by
        simp [grantedType, hWrite, hWait]
      rw [hGranted]
      set t := grantedType env checkStatus s _ with ht
      have hLt : .readNoInsert < (s.setType d t).type d := by
        rw [Lock.setType_type, if_pos rfl, ht, grantedType]
        split
        · exact readNoInsert_lt_upgraded env
        · exact hType
      have hSet : (s.setType d t).type d = t := by simp
      split_ifs with hRead
      · exact .writeAlone hLt hWrite hWait (by rwa [hSet])
      · rw [not_or] at hRead
        refine decided_waitOrDeadlock (.writeWaits hLt ?_)
        rw [hSet]
        exact .inr ⟨hWrite, .inr hRead⟩
    · rw [if_neg hWait]
      have hSame : grantedType env checkStatus s (s.type d) = s.type d := by
        simp [grantedType, hWait]
      rw [hSame, Lock.setType_self]
      exact decided_waitOrDeadlock (.writeWaits hType (.inr ⟨hWrite, .inl hWait⟩))

private theorem decided_thrLockDelayed (env : Env) (checkStatus : Bool)
    (hType : s.type d = .writeDelayed) :
    Decided env s d (thrLockDelayed env checkStatus s d (s.owner d) (s.type d)) := by
  unfold thrLockDelayed
  split_ifs with hOnly hQueues
  · exact .aborted
  · exact .delayed hType hQueues.2.2
  · have hSame : grantedType env checkStatus s (s.type d) = s.type d := by
      simp [grantedType, hType]
    have hDecided := decided_thrLockWrite env checkStatus (by rw [hType]; decide)
    rwa [hSame, Lock.setType_self] at hDecided

section
variable (owner : Owner) (t : LockType)
include owner t

@[simp] theorem request_owner : (request s d owner t).owner d = owner := by
  simp [request]

@[simp] theorem request_type : (request s d owner t).type d = t := by
  simp [request]

theorem request_type_of_ne {e : DataId} (he : e ≠ d) : (request s d owner t).type e = s.type e := by
  simp [request, he]

theorem request_owner_of_ne {e : DataId} (he : e ≠ d) :
    (request s d owner t).owner e = s.owner e := by
  simp [request, he]

end

private theorem request_setType (owner : Owner) (t t' : LockType) :
    (request s d owner t).setType d t' = request s d owner t' := by
  simp [request, Lock.setType, Lock.setCond]

/-- The type under which a request is decided. With no writer running or
waiting, `check_status` may still upgrade a `TL_WRITE_CONCURRENT_INSERT`. -/
def DecidedType (env : Env) (s : QueuedLock) (t t' : LockType) : Prop :=
  t' = env.requestedType t ∨
    (t = .writeConcurrentInsert ∧ s.queues .write = [] ∧ t' = env.upgradedConcurrentInsertLock)

theorem DecidedType.ne_unlock {t t' : LockType} (h : DecidedType env s t t')
    (hType : t ≠ .unlock) : t' ≠ .unlock := by
  have hUpgraded : env.upgradedConcurrentInsertLock ≠ .unlock := by
    unfold Env.upgradedConcurrentInsertLock
    split <;> simp
  rcases h with rfl | ⟨-, -, rfl⟩
  · unfold Env.requestedType
    split
    · exact hUpgraded
    · exact hType
  · exact hUpgraded

private theorem requestedType_of_ne {t : LockType} (h : t ≠ .writeConcurrentInsert) :
    env.requestedType t = t :=
  if_neg fun hInsert => h hInsert.1

private theorem decidedType_grantedType {t : LockType}
    (h : ¬ (t = .writeConcurrentInsert ∧ ¬ env.hasCheckStatus)) :
    DecidedType env s t (grantedType env checkStatus s t) := by
  unfold grantedType
  split_ifs with hGranted
  · exact .inr ⟨hGranted.2.2.1, hGranted.1, rfl⟩
  · exact .inl (if_neg h).symm

private theorem decided_request (env : Env) (checkStatus : Bool) (s : QueuedLock) (d : DataId)
    (owner : Owner) {t : LockType} (hType : .readNoInsert < t) :
    Decided env (request s d owner (grantedType env checkStatus s t)) d
      (thrLockWrite env checkStatus (request s d owner t) d owner t) := by
  have hDecided := decided_thrLockWrite (s := request s d owner t) env checkStatus
    (by rwa [request_type])
  rwa [request_owner, request_type, request_setType] at hDecided

theorem thrLock_decided (env : Env) (checkStatus : Bool) (s : QueuedLock) (d : DataId)
    (owner : Owner) (t : LockType) :
    ∃ t', DecidedType env s t t' ∧
      Decided env (request s d owner t') d (thrLock env checkStatus s d owner t) := by
  unfold thrLock
  dsimp only
  split_ifs with hRead hDelayed hUpgrade
  · have hNe : t ≠ .writeConcurrentInsert := by
      rintro rfl
      exact absurd hRead (by decide)
    refine ⟨t, .inl (requestedType_of_ne hNe).symm, ?_⟩
    have hDecided := decided_thrLockRead (s := request s d owner t) env
      (by rwa [request_type])
    rwa [request_owner, request_type] at hDecided
  · refine ⟨t, .inl (requestedType_of_ne (by simp [hDelayed])).symm, ?_⟩
    have hDecided := decided_thrLockDelayed (s := request s d owner t) env checkStatus
      (by rwa [request_type])
    rwa [request_owner, request_type] at hDecided
  · have hSame : grantedType env checkStatus s env.upgradedConcurrentInsertLock =
        env.upgradedConcurrentInsertLock := by
      simp [grantedType]
    have hDecided := decided_request env checkStatus s d owner (readNoInsert_lt_upgraded env)
    rw [hSame] at hDecided
    rw [request_setType]
    exact ⟨_, .inl (if_pos hUpgrade).symm, hDecided⟩
  · exact ⟨_, decidedType_grantedType hUpgrade,
      decided_request env checkStatus s d owner (LockType.not_le.mp hRead)⟩

/-- How the lock is given away after a release has left `s`. The number of
write locks given in a row changes as `count` says. -/
inductive Given (s : QueuedLock) : QueuedLock → Prop
  | busy (hWrite : s.queues .write ≠ []) : Given s s
  | closed {d : DataId} (hWrite : s.queues .write = []) (hRead : s.queues .read ≠ [])
      (hFirst : first s .writeWait = some d) (hStarts : ¬ writerStarts s (s.type d)) : Given s s
  | freed (count : Nat) (hWrite : s.queues .write = [])
      (hWaiting : s.queues .writeWait = [] ∨
        (s.queues .read = [] ∧ s.queues .readWait ≠ [] ∧ s.queues .writeWait ≠ [])) :
      Given s (freeAllReadLocks { s with writeLockCount := count } false)
  | upgraded {d : DataId} (hWrite : s.queues .write = []) (hRead : s.queues .read ≠ [])
      (hFirst : first s .writeWait = some d) (hType : s.type d = .writeConcurrentInsert) :
      Given s (freeAllReadLocks (s.setType d .write) false)
  | started (count : Nat) {d : DataId} {t : LockType} (hWrite : s.queues .write = [])
      (hRead : s.queues .read = []) (hFirst : first s .writeWait = some d)
      (hType : t = s.type d ∨ (s.type d = .writeConcurrentInsert ∧ t = .write))
      (hAlone : .writeLowPriority ≤ t) :
      Given s (startBatch ({ s with writeLockCount := count }.setType d t))
  | startedShared (count : Nat) {d : DataId} {t : LockType} (hWrite : s.queues .write = [])
      (hFirst : first s .writeWait = some d) (hType : t = s.type d) (hShared : t ≤ .writeDelayed)
      (hRead : s.queues .read = [] ∨ writerStarts s t) :
      Given s (freeAllReadLocks (startBatch { s with writeLockCount := count }) t.allowsInsert)

private theorem startedType_cases (checkStatus : Bool) (s : QueuedLock) (d : DataId) :
    startedType checkStatus s d = s.type d ∨
      (s.type d = .writeConcurrentInsert ∧ startedType checkStatus s d = .write) := by
  unfold startedType
  split_ifs with h
  · exact .inr ⟨h.1, rfl⟩
  · exact .inl rfl

private theorem given_startBatch (count : Nat) (hWrite : s.queues .write = [])
    (hRead : s.queues .read = []) (hFirst : first s .writeWait = some d) :
    Given s (if .writeLowPriority ≤ startedType checkStatus s d then
        startBatch ({ s with writeLockCount := count }.setType d (startedType checkStatus s d))
      else freeAllReadLocks
        (startBatch ({ s with writeLockCount := count }.setType d (startedType checkStatus s d)))
        (startedType checkStatus s d).allowsInsert) := by
  have hCases := startedType_cases checkStatus s d
  split_ifs with hLow
  · exact .started count hWrite hRead hFirst hCases hLow
  · have hType : startedType checkStatus s d = s.type d := by
      rcases hCases with hType | ⟨-, hType⟩
      · exact hType
      · rw [hType] at hLow
        exact absurd (by decide) hLow
    rw [hType] at hLow ⊢
    have hSame := Lock.setType_self { s with writeLockCount := count } d
    rw [hSame]
    exact .startedShared count hWrite hFirst rfl (Nat.lt_succ_iff.mp (LockType.not_le.mp hLow))
      (.inl hRead)

private theorem given_giveToWaiting (env : Env) (checkStatus : Bool)
    (hWrite : s.queues .write = []) (hRead : s.queues .read = []) :
    Given s (giveToWaiting env checkStatus s) := by
  unfold giveToWaiting
  cases hFirst : first s .writeWait with
  | none => exact .freed s.writeLockCount hWrite (.inl (first_eq_none_iff.mp hFirst))
  | some d =>
    have hWait : s.queues .writeWait ≠ [] := by
      intro hNil
      rw [first_eq_none_iff.mpr hNil] at hFirst
      cases hFirst
    by_cases hWriter : writerFirst s d
    · simp only [if_pos hWriter]
      generalize (if s.writeLockCount > env.maxWriteLockCount then 0
        else _ % 2 ^ 64) = count
      by_cases hTooMany : s.writeLockCount > env.maxWriteLockCount ∧ s.queues .readWait ≠ []
      · rw [if_pos hTooMany]
        exact .freed count hWrite (.inr ⟨hRead, hTooMany.2, hWait⟩)
      · rw [if_neg hTooMany]
        exact given_startBatch count hWrite hRead hFirst
    · simp only [if_neg hWriter]
      have hReaders : s.queues .readWait ≠ [] := by
        intro hNil
        exact hWriter (.inr (by simp [first, hNil]))
      exact .freed s.writeLockCount hWrite (.inr ⟨hRead, hReaders, hWait⟩)

private theorem given_giveBesideReaders (checkStatus : Bool)
    (hWrite : s.queues .write = []) (hRead : s.queues .read ≠ []) :
    Given s (giveBesideReaders checkStatus s) := by
  unfold giveBesideReaders
  cases hFirst : first s .writeWait with
  | none => exact .freed s.writeLockCount hWrite (.inl (first_eq_none_iff.mp hFirst))
  | some d =>
    dsimp only
    split_ifs with hStarts hUpgrade
    · exact .upgraded hWrite hRead hFirst hUpgrade.1
    · exact .startedShared s.writeLockCount hWrite hFirst rfl hStarts.1 (.inr hStarts)
    · exact .closed hWrite hRead hFirst hStarts

theorem give_given (env : Env) (checkStatus : Bool) (s : QueuedLock) :
    Given s (give env checkStatus s) := by
  unfold give
  split_ifs with hWrite hRead
  · exact .busy hWrite
  · exact given_giveToWaiting env checkStatus (not_not.mp hWrite) hRead
  · exact given_giveBesideReaders checkStatus (not_not.mp hWrite) hRead

inductive Upgraded (s : QueuedLock) (d : DataId) : QueuedLock × Outcome → Prop
  | aborted (hType : s.type d = .unlock) : Upgraded s d (s, .aborted)
  | already (hType : .writeLowPriority ≤ s.type d) : Upgraded s d (s, .success)
  | alone (hLocked : s.type d ≠ .unlock) (hCond : s.cond d = false)
      (hRead : s.queues .read = []) : Upgraded s d (s.setType d .write, .success)
  | requeued (hLocked : s.type d ≠ .unlock) (hCond : s.cond d = false)
      (hRead : s.queues .read ≠ []) :
      Upgraded s d ((requeueWrite (s.setType d .write) d).setCond d true, .waits .writeWait)
  | waits (hLocked : s.type d ≠ .unlock) (hCond : s.cond d = true) :
      Upgraded s d (s.setType d .write, .waits .writeWait)

theorem thrUpgradeWriteDelayLock_upgraded (s : QueuedLock) (d : DataId) :
    Upgraded s d (thrUpgradeWriteDelayLock s d) := by
  unfold thrUpgradeWriteDelayLock
  dsimp only
  split_ifs with hUnlock hHigh hCond hRead
  · exact .aborted hUnlock
  · exact .already hHigh
  · exact .waits hUnlock hCond
  · exact .alone hUnlock (Bool.eq_false_iff.mpr hCond) hRead
  · exact .requeued hUnlock (Bool.eq_false_iff.mpr hCond) hRead

end

/-- What a call does in a session, with everything the call has tested. -/
inductive Moves (env : Env) (s : Session (ListName → List DataId)) :
    Call → Session (ListName → List DataId) → Prop
  | dataInit : Moves env s .dataInit { s with lock := thrLockDataInit s.lock }
  | lock {d : DataId} {owner : Owner} {t t' : LockType} {checkStatus : Bool}
      {r : QueuedLock × Outcome} (hUse : s.use d = .idle) (hType : t ≠ .unlock)
      (hDecidedType : DecidedType env s.lock t t')
      (hDecided : Decided env (request s.lock d owner t') d r) :
      Moves env s (.lock d owner t checkStatus) ⟨r.1, update s.use d (.after r.2)⟩
  | wake {d : DataId} {n : ListName} (hUse : s.use d = .waiting n)
      (hCond : s.lock.cond d = false) :
      Moves env s (.wake d)
        ⟨s.lock, update s.use d (if s.lock.type d = .unlock then .idle else .held)⟩
  | waitFails {d : DataId} {n : ListName} (hUse : s.use d = .waiting n)
      (hCond : s.lock.cond d = true) :
      Moves env s (.waitFails d) ⟨waitFailed s.lock n d, update s.use d .idle⟩
  | unlockAborted {d : DataId} {checkStatus : Bool} (hUse : s.use d = .held)
      (hType : s.lock.type d = .unlock) :
      Moves env s (.unlock d checkStatus) ⟨s.lock, update s.use d .idle⟩
  | unlock {d : DataId} {checkStatus : Bool} {lock : QueuedLock} (hUse : s.use d = .held)
      (hType : s.lock.type d ≠ .unlock) (hGiven : Given (release s.lock d) lock) :
      Moves env s (.unlock d checkStatus) ⟨lock, update s.use d .idle⟩
  | abortLocks : Moves env s .abortLocks { s with lock := thrAbortLocks s.lock }
  | abortLocksForThread {thread : Thread} :
      Moves env s (.abortLocksForThread thread)
        { s with lock := thrAbortLocksForThread env s.lock thread }
  | upgrade {d : DataId} {r : QueuedLock × Outcome} (hUse : s.use d = .held)
      (hType : s.lock.type d = .unlock ∨ .readNoInsert < s.lock.type d)
      (hUpgraded : Upgraded s.lock d r) :
      Moves env s (.upgrade d) ⟨r.1, update s.use d (.after r.2)⟩
  | reschedule {d : DataId} (hUse : s.use d = .held) (hType : .readNoInsert < s.lock.type d)
      (hCond : s.lock.cond d = false) :
      Moves env s (.reschedule d) { s with lock := thrRescheduleWriteLock s.lock d }

theorem moves_of_step {env : Env} {s s' : Session (ListName → List DataId)} {call : Call}
    (h : step calls env s call = some s') : Moves env s call s' := by
  cases call with
  | dataInit =>
    cases h
    exact .dataInit
  | lock d owner t checkStatus =>
    simp only [step, ite_none_right_eq_some, some.injEq] at h
    obtain ⟨⟨-, hUse, hType⟩, rfl⟩ := h
    obtain ⟨t', hDecidedType, hDecided⟩ := thrLock_decided env checkStatus s.lock d owner t
    exact .lock hUse hType hDecidedType hDecided
  | wake d =>
    simp only [step] at h
    split at h
    · next n hUse =>
      simp only [ite_none_left_eq_some, some.injEq] at h
      obtain ⟨hCond, rfl⟩ := h
      exact .wake hUse (Bool.eq_false_iff.mpr hCond)
    · cases h
  | waitFails d =>
    simp only [step] at h
    split at h
    · next n hUse =>
      simp only [ite_none_right_eq_some, some.injEq] at h
      obtain ⟨hCond, rfl⟩ := h
      exact .waitFails hUse hCond
    · cases h
  | unlock d checkStatus =>
    simp only [step, ite_none_right_eq_some, some.injEq] at h
    obtain ⟨hUse, rfl⟩ := h
    split_ifs with hType
    · exact .unlockAborted hUse hType
    · exact .unlock hUse hType (give_given env checkStatus _)
  | abortLocks =>
    cases h
    exact .abortLocks
  | abortLocksForThread thread =>
    cases h
    exact .abortLocksForThread
  | upgrade d =>
    simp only [step, ite_none_right_eq_some, some.injEq] at h
    obtain ⟨⟨hUse, hType⟩, rfl⟩ := h
    exact .upgrade hUse hType (thrUpgradeWriteDelayLock_upgraded s.lock d)
  | reschedule d =>
    simp only [step, ite_none_right_eq_some, some.injEq] at h
    obtain ⟨⟨hUse, hType, hCond⟩, rfl⟩ := h
    exact .reschedule hUse hType hCond

end MySQL.ThrLock.Model
