import MySQL.Mysys.ThrLock.Types

/-! The table lock as four lists of instances: who runs, who waits, and in
which order. The calls say what becomes of the lists as wholes; there are no
links and no loops. -/
namespace MySQL.ThrLock
open Function

/-- A table lock whose lists are lists of instances instead of links. -/
abbrev QueuedLock := Lock (ListName → List DataId)

namespace Model

/-- The instance at the head of a list, `lock->read.data` and its like. -/
def first (s : QueuedLock) (n : ListName) : Option DataId :=
  (s.queues n).head?

variable {s : QueuedLock} {n : ListName}

theorem first_eq_none_iff : first s n = none ↔ s.queues n = [] := by
  simp [first]

theorem ne_nil_of_first {d : DataId} (h : first s n = some d) : s.queues n ≠ [] := by
  intro hNil
  simp [first, hNil] at h

theorem first_eq_some_iff {d : DataId} : first s n = some d ↔ ∃ rest, s.queues n = d :: rest := by
  simp [first, List.head?_eq_some_iff]

/-- The lock with one of its lists replaced. -/
def put (s : QueuedLock) (n : ListName) (ids : List DataId) : QueuedLock :=
  { s with queues := Function.update s.queues n ids }

/-- A request goes to the end of a list. -/
def append (s : QueuedLock) (n : ListName) (d : DataId) : QueuedLock :=
  put s n (s.queues n ++ [d])

/-- An instance leaves a list, wherever it stands in it. -/
def remove (s : QueuedLock) (n : ListName) (d : DataId) : QueuedLock :=
  put s n ((s.queues n).erase d)

/-- A new lock: nobody runs and nobody waits. -/
def thrLockInit : QueuedLock where
  queues _ := []
  owner _ := 0
  type _ := .unlock
  cond _ := false
  writeLockCount := 0
  readNoWriteCount := 0
  instances := 0

/-- A new instance of the lock, which holds nothing. -/
def thrLockDataInit (s : QueuedLock) : QueuedLock :=
  let d := s.instances
  { (s.setType d .unlock).setCond d false with instances := s.instances + 1 }

/-- The request waits at the end of a list, with its condition set until somebody starts it. -/
def wait (s : QueuedLock) (n : ListName) (d : DataId) : QueuedLock :=
  (append s n d).setCond d true

/-- A wait that was killed or timed out takes the request out of its list. -/
def waitFailed (s : QueuedLock) (n : ListName) (d : DataId) : QueuedLock :=
  (remove s n d).setType d .unlock

section
variable {s : QueuedLock} {m n : ListName} {d : DataId}

theorem append_self : (append s n d).queues n = s.queues n ++ [d] :=
  update_self ..

theorem append_of_ne (h : m ≠ n) : (append s n d).queues m = s.queues m :=
  update_of_ne h ..

theorem remove_self : (remove s n d).queues n = (s.queues n).erase d :=
  update_self ..

theorem remove_of_ne (h : m ≠ n) : (remove s n d).queues m = s.queues m :=
  update_of_ne h ..

end

/-- The lock is held by the connection that asks for it. -/
def ownConnection (env : Env) (s : QueuedLock) (owner : Owner) : Bool :=
  ((first s .read).or (first s .write)).any fun e => env.info (s.owner e) = env.info owner

/-- A connection that would wait for itself gets a deadlock at once. -/
def waitOrDeadlock (env : Env) (s : QueuedLock) (d : DataId) (owner : Owner) (n : ListName) :
    QueuedLock × Outcome :=
  if ownConnection env s owner then (s, .deadlock) else (wait s n d, .waits n)

/-- A reader runs; `TL_READ_NO_INSERT` is counted, for it keeps concurrent inserts out. -/
def grantRead (s : QueuedLock) (d : DataId) (lockType : LockType) : QueuedLock :=
  { append s .read d with
    readNoWriteCount := s.readNoWriteCount + if lockType = .readNoInsert then 1 else 0 }

/-- A reader may run beside the writer that runs. -/
def readerPasses (s : QueuedLock) (w : DataId) (owner : Owner) (lockType : LockType) : Prop :=
  owner = s.owner w ∨
    (s.type w ≤ .writeDelayed ∧
      (lockType ≤ .readHighPriority ∨
        (s.type w ≠ .writeConcurrentInsert ∧ s.type w ≠ .writeAllowRead)))

/-- A reader may run before the writers that wait: they are unimportant, it has high priority, or
its thread has a read lock already and would wait for itself. -/
def readerOvertakes (s : QueuedLock) (owner : Owner) (lockType : LockType) : Prop :=
  (∀ w ∈ first s .writeWait, s.type w ≤ .writeLowPriority) ∨
    lockType = .readHighPriority ∨ ∃ e ∈ s.queues .read, s.owner e = owner

/-- A writer may run beside the one that runs. -/
def writerJoins (s : QueuedLock) (w : DataId) (owner : Owner) (lockType : LockType) : Prop :=
  owner = s.owner w ∨
    (lockType = .writeAllowWrite ∧ s.queues .writeWait = [] ∧ s.type w = .writeAllowWrite)

/-- A writer may run beside the readers that run. -/
def writerStarts (s : QueuedLock) (lockType : LockType) : Prop :=
  lockType ≤ .writeDelayed ∧
    ((lockType ≠ .writeConcurrentInsert ∧ lockType ≠ .writeAllowWrite) ∨
      s.readNoWriteCount = 0)

instance (s : QueuedLock) (w : DataId) (owner : Owner) (lockType : LockType) :
    Decidable (readerPasses s w owner lockType) :=
  inferInstanceAs (Decidable (_ ∨ _))

instance (s : QueuedLock) (owner : Owner) (lockType : LockType) :
    Decidable (readerOvertakes s owner lockType) :=
  inferInstanceAs (Decidable (_ ∨ _))

instance (s : QueuedLock) (w : DataId) (owner : Owner) (lockType : LockType) :
    Decidable (writerJoins s w owner lockType) :=
  inferInstanceAs (Decidable (_ ∨ _))

instance (s : QueuedLock) (lockType : LockType) : Decidable (writerStarts s lockType) :=
  inferInstanceAs (Decidable (_ ∧ _))

/-- The branch of `thr_lock` for readers. -/
def thrLockRead (env : Env) (s : QueuedLock) (d : DataId) (owner : Owner) (lockType : LockType) :
    QueuedLock × Outcome :=
  match first s .write with
  | some w =>
    if readerPasses s w owner lockType then (grantRead s d lockType, .success)
    else if s.type w = .writeOnly then (s.setType d .unlock, .aborted)
    else waitOrDeadlock env s d owner .readWait
  | none =>
    if readerOvertakes s owner lockType then (grantRead s d lockType, .success)
    else waitOrDeadlock env s d owner .readWait

/-- The branch of `thr_lock` for writers. A concurrent insert that the table refuses is upgraded. -/
def thrLockWrite (env : Env) (checkStatus : Bool) (s : QueuedLock) (d : DataId) (owner : Owner)
    (lockType : LockType) : QueuedLock × Outcome :=
  match first s .write with
  | some w =>
    if s.type w = .writeOnly then (s.setType d .unlock, .aborted)
    else if writerJoins s w owner lockType then (append s .write d, .success)
    else waitOrDeadlock env s d owner .writeWait
  | none =>
    if s.queues .writeWait = [] then
      let lockType :=
        if lockType = .writeConcurrentInsert ∧ checkStatus then env.upgradedConcurrentInsertLock
        else lockType
      let s := s.setType d lockType
      if s.queues .read = [] ∨ writerStarts s lockType then (append s .write d, .success)
      else waitOrDeadlock env s d owner .writeWait
    else waitOrDeadlock env s d owner .writeWait

/-- A `TL_WRITE_DELAYED` request is put in the wait list without waiting. -/
def queuesDelayed (s : QueuedLock) : Prop :=
  (∀ w ∈ first s .write, s.type w ≠ .writeAllowRead) ∧
    (∀ e ∈ s.queues .writeWait, s.type e ≠ .writeAllowRead) ∧
    (s.queues .write ≠ [] ∨ s.queues .read ≠ [])

instance (s : QueuedLock) : Decidable (queuesDelayed s) :=
  inferInstanceAs (Decidable (_ ∧ _ ∧ _))

/-- The branch of `thr_lock` for `TL_WRITE_DELAYED`. -/
def thrLockDelayed (env : Env) (checkStatus : Bool) (s : QueuedLock) (d : DataId) (owner : Owner)
    (lockType : LockType) : QueuedLock × Outcome :=
  if ∃ w ∈ first s .write, s.type w = .writeOnly then (s.setType d .unlock, .aborted)
  else if queuesDelayed s then (wait s .writeWait d, .success)
  else thrLockWrite env checkStatus s d owner lockType

/-- What `thr_lock` notes of a request before it looks at the lists. -/
def request (s : QueuedLock) (d : DataId) (owner : Owner) (lockType : LockType) : QueuedLock :=
  { (s.setCond d false).setType d lockType with owner := Function.update s.owner d owner }

/-- `thr_lock`, up to the wait. -/
def thrLock (env : Env) (checkStatus : Bool) (s : QueuedLock) (d : DataId) (owner : Owner)
    (lockType : LockType) : QueuedLock × Outcome :=
  let s := request s d owner lockType
  if lockType ≤ .readNoInsert then thrLockRead env s d owner lockType
  else if lockType = .writeDelayed then
    thrLockDelayed env checkStatus s d owner lockType
  else if lockType = .writeConcurrentInsert ∧ ¬ env.hasCheckStatus then
    let lockType := env.upgradedConcurrentInsertLock
    thrLockWrite env checkStatus (s.setType d lockType) d owner lockType
  else thrLockWrite env checkStatus s d owner lockType

/-- A reader that goes on waiting while an insert runs. -/
def kept (s : QueuedLock) (usingConcurrentInsert : Bool) (d : DataId) : Bool :=
  usingConcurrentInsert && s.type d = .readNoInsert

/-- The waiting readers run, except those that an insert keeps back. -/
def freeAllReadLocks (s : QueuedLock) (usingConcurrentInsert : Bool) : QueuedLock :=
  let waiting := s.queues .readWait
  let freed := waiting.filter fun d => !kept s usingConcurrentInsert d
  let left := waiting.filter (kept s usingConcurrentInsert)
  { put (put s .read (s.queues .read ++ freed)) .readWait left with
    cond := fun d => if d ∈ freed then false else s.cond d
    readNoWriteCount := s.readNoWriteCount + freed.countP fun d => s.type d = .readNoInsert
    writeLockCount := if waiting ≠ [] ∧ left = [] then 0 else s.writeLockCount }

section
variable (s : QueuedLock) (keep : Bool)

@[simp] theorem freeAllReadLocks_read : (freeAllReadLocks s keep).queues .read =
    s.queues .read ++ (s.queues .readWait).filter fun d => !kept s keep d := rfl

@[simp] theorem freeAllReadLocks_readWait : (freeAllReadLocks s keep).queues .readWait =
    (s.queues .readWait).filter (kept s keep) := rfl

@[simp] theorem freeAllReadLocks_write :
    (freeAllReadLocks s keep).queues .write = s.queues .write := rfl

@[simp] theorem freeAllReadLocks_writeWait :
    (freeAllReadLocks s keep).queues .writeWait = s.queues .writeWait := rfl

@[simp] theorem freeAllReadLocks_type : (freeAllReadLocks s keep).type = s.type := rfl

end

/-- Without an insert in progress every waiting reader is freed. -/
theorem freeAllReadLocks_false (s : QueuedLock) :
    (freeAllReadLocks s false).queues .read = s.queues .read ++ s.queues .readWait ∧
      (freeAllReadLocks s false).queues .readWait = [] := by
  simp [kept]

theorem freeAllReadLocks_of_nil (h : s.queues .readWait = []) (usingConcurrentInsert : Bool) :
    freeAllReadLocks s usingConcurrentInsert = s := by
  have hQueues : update (update s.queues .read (s.queues .read)) .readWait [] = s.queues := by
    rw [update_eq_self, ← h, update_eq_self]
  simp only [freeAllReadLocks, put, h, List.filter_nil, List.append_nil, hQueues]
  simp

/-- The writers that start together: the first one that waits, and behind a `TL_WRITE_ALLOW_WRITE`
all that follow it without another type between. -/
def batch (s : QueuedLock) : List DataId :=
  match s.queues .writeWait with
  | [] => []
  | d :: rest =>
    d :: if s.type d = .writeAllowWrite then rest.takeWhile fun e => s.type e = .writeAllowWrite
      else []

theorem batch_prefix (s : QueuedLock) : batch s <+: s.queues .writeWait := by
  unfold batch
  cases s.queues .writeWait with
  | nil => exact List.prefix_refl []
  | cons d rest =>
    apply (List.prefix_cons_inj d).mpr
    split
    · exact List.takeWhile_prefix _
    · exact List.nil_prefix

/-- Waiting writers run and are woken up. -/
def start (s : QueuedLock) (started : List DataId) : QueuedLock :=
  let waiting := (s.queues .writeWait).drop started.length
  { put (put s .write (s.queues .write ++ started)) .writeWait waiting with
    cond := fun d => if d ∈ started then false else s.cond d }

def startBatch (s : QueuedLock) : QueuedLock :=
  start s (batch s)

section
variable (s : QueuedLock) (started : List DataId)

@[simp] theorem start_write : (start s started).queues .write = s.queues .write ++ started := rfl

@[simp] theorem start_writeWait :
    (start s started).queues .writeWait = (s.queues .writeWait).drop started.length := rfl

@[simp] theorem start_read : (start s started).queues .read = s.queues .read := rfl

@[simp] theorem start_readWait : (start s started).queues .readWait = s.queues .readWait := rfl

@[simp] theorem start_type : (start s started).type = s.type := rfl

end

/-- A concurrent insert that the table refuses is started as a plain write. -/
def startedType (checkStatus : Bool) (s : QueuedLock) (d : DataId) : LockType :=
  if s.type d = .writeConcurrentInsert ∧ checkStatus then .write else s.type d

/-- The writer at the head of the wait list goes before the waiting readers. -/
def writerFirst (s : QueuedLock) (d : DataId) : Prop :=
  s.type d ≠ .writeLowPriority ∨ ∀ r ∈ first s .readWait, s.type r < .readHighPriority

instance (s : QueuedLock) (d : DataId) : Decidable (writerFirst s d) :=
  inferInstanceAs (Decidable (_ ∨ _))

/-- Nobody runs: the lock goes to the waiting writers or, after too many of them, to the readers. -/
def giveToWaiting (env : Env) (checkStatus : Bool) (s : QueuedLock) : QueuedLock :=
  match first s .writeWait with
  | none => freeAllReadLocks s false
  | some d =>
    if writerFirst s d then
      let tooMany := s.writeLockCount > env.maxWriteLockCount
      let s : QueuedLock :=
        { s with
          writeLockCount := if tooMany then 0 else (s.writeLockCount + 1) % 2 ^ 64 }
      if tooMany ∧ s.queues .readWait ≠ [] then freeAllReadLocks s false
      else
        let type := startedType checkStatus s d
        let s := startBatch (s.setType d type)
        if .writeLowPriority ≤ type then s else freeAllReadLocks s type.allowsInsert
    else freeAllReadLocks s false

/-- Readers run: a writer that may run beside them starts, and readers with it. -/
def giveBesideReaders (checkStatus : Bool) (s : QueuedLock) : QueuedLock :=
  match first s .writeWait with
  | none => freeAllReadLocks s false
  | some d =>
    if writerStarts s (s.type d) then
      if s.type d = .writeConcurrentInsert ∧ checkStatus then
        freeAllReadLocks (s.setType d .write) false
      else freeAllReadLocks (startBatch s) (s.type d).allowsInsert
    else s

/-- Who runs next after somebody has left the lock. -/
def give (env : Env) (checkStatus : Bool) (s : QueuedLock) : QueuedLock :=
  if s.queues .write ≠ [] then s
  else if s.queues .read = [] then giveToWaiting env checkStatus s
  else giveBesideReaders checkStatus s

/-- The list in which an instance stands. A delayed write that waits is still in the wait list. -/
def heldIn (s : QueuedLock) (d : DataId) : ListName :=
  if s.type d ≤ .readNoInsert then .read
  else if s.type d = .writeDelayed ∧ s.cond d then .writeWait
  else .write

/-- The instance leaves its list and is unlocked. -/
def release (s : QueuedLock) (d : DataId) : QueuedLock :=
  { (remove s (heldIn s d) d).setType d .unlock with
    readNoWriteCount := s.readNoWriteCount - if s.type d = .readNoInsert then 1 else 0 }

/-- `thr_unlock`: the instance leaves, and the lock is given to those that wait. -/
def thrUnlock (env : Env) (checkStatus : Bool) (s : QueuedLock) (d : DataId) : QueuedLock :=
  give env checkStatus (release s d)

/-- The chosen requests of a wait list are aborted, and their threads are woken up. -/
def abort (s : QueuedLock) (n : ListName) (killed : DataId → Bool) : QueuedLock :=
  put (s.markAborted ((s.queues n).filter killed)) n ((s.queues n).filter fun d => !killed d)

/-- `thr_abort_locks`: nobody waits any more, and the running writer lets nobody in. -/
def thrAbortLocks (s : QueuedLock) : QueuedLock :=
  let s := abort (abort s .readWait fun _ => true) .writeWait fun _ => true
  match first s .write with
  | some d => s.setType d .writeOnly
  | none => s

/-- The request was made by the thread. -/
def ofThread (env : Env) (s : QueuedLock) (thread : Thread) (d : DataId) : Bool :=
  thread = env.thread (env.info (s.owner d))

/-- `thr_abort_locks_for_thread`: the requests of one thread are aborted. -/
def thrAbortLocksForThread (env : Env) (s : QueuedLock) (thread : Thread) : QueuedLock :=
  abort (abort s .readWait (ofThread env s thread)) .writeWait (ofThread env s thread)

/-- A running writer goes back to the head of the wait list. -/
def requeueWrite (s : QueuedLock) (d : DataId) : QueuedLock :=
  let s := remove s .write d
  put s .writeWait (d :: s.queues .writeWait)

/-- `thr_upgrade_write_delay_lock`: a delayed write becomes a write and waits for the readers. -/
def thrUpgradeWriteDelayLock (s : QueuedLock) (d : DataId) : QueuedLock × Outcome :=
  if s.type d = .unlock then (s, .aborted)
  else if .writeLowPriority ≤ s.type d then (s, .success)
  else
    let s := s.setType d .write
    if ¬ s.cond d then
      if s.queues .read = [] then (s, .success)
      else ((requeueWrite s d).setCond d true, .waits .writeWait)
    else (s, .waits .writeWait)

/-- `thr_reschedule_write_lock`: a delayed write steps back for the waiting readers. -/
def thrRescheduleWriteLock (s : QueuedLock) (d : DataId) : QueuedLock :=
  if s.queues .readWait = [] then s
  else freeAllReadLocks ((requeueWrite (s.setType d .writeDelayed) d).setCond d true) false

end Model
end MySQL.ThrLock
