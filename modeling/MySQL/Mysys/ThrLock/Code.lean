import MySQL.Mysys.ThrLock.Types

/-! The calls of `mysys/thr_lock.c` on the linked lists, each as it runs under
`lock->mutex`. A loop over a list is given the number of instances as fuel,
which no list exceeds. The answer of `(*lock->check_status)` is an
argument. -/
namespace MySQL.ThrLock
open Library

/-- `THR_LOCK` with its four lists of links. -/
abbrev LinkedLock := Lock (Links ListName DataId)

namespace Code

def thrLockInit : LinkedLock where
  queues := .empty
  owner _ := 0
  type _ := .unlock
  cond _ := false
  writeLockCount := 0
  readNoWriteCount := 0
  instances := 0

def thrLockDataInit (s : LinkedLock) : LinkedLock :=
  let d := s.instances
  { (s.setType d .unlock).setCond d false with instances := s.instances + 1 }

/-- The head of a list. -/
def data (s : LinkedLock) (n : ListName) : Option DataId :=
  s.queues.data n

def append (s : LinkedLock) (n : ListName) (d : DataId) : LinkedLock :=
  { s with queues := s.queues.append n d }

/-- `data->prev` points to the link that points to the instance, so any instance can be unlinked. -/
def unlink (s : LinkedLock) (n : ListName) (d : DataId) : LinkedLock :=
  { s with queues := s.queues.unlink n d }

/-- The instances from a pointer on to the end of its list. -/
def from_ (s : LinkedLock) (p : Option DataId) : List DataId :=
  s.queues.walk s.instances p

def listOf (s : LinkedLock) (n : ListName) : List DataId :=
  from_ s (data s n)

/-- `have_old_read_lock`. -/
def haveOldReadLock (s : LinkedLock) (p : Option DataId) (owner : Owner) : Bool :=
  (from_ s p).any fun e => s.owner e = owner

/-- `have_specific_lock`. -/
def haveSpecificLock (s : LinkedLock) (p : Option DataId) (type : LockType) : Bool :=
  (from_ s p).any fun e => s.type e = type

/-- `wait_for_lock` up to the wait. -/
def waitForLock (s : LinkedLock) (wait : ListName) (d : DataId) (inWaitList : Bool) : LinkedLock :=
  let s := if inWaitList then s else append s wait d
  s.setCond d true

/-- `wait_for_lock` when the wait ends with `data->cond` still set: the
connection was aborted or the wait timed out. -/
def waitFailed (s : LinkedLock) (wait : ListName) (d : DataId) : LinkedLock :=
  (unlink s wait d).setType d .unlock

def waitOrDeadlock (env : Env) (s : LinkedLock) (d : DataId) (owner : Owner) (queue : ListName) :
    LinkedLock × Outcome :=
  let lockOwner := (data s .read).or (data s .write)
  match lockOwner with
  | some e =>
    if env.info (s.owner e) = env.info owner then (s, .deadlock)
    else (waitForLock s queue d false, .waits queue)
  | none => (waitForLock s queue d false, .waits queue)

/-- The reader runs; `TL_READ_NO_INSERT` is counted. -/
def grantRead (s : LinkedLock) (d : DataId) (lockType : LockType) : LinkedLock :=
  let s := append s .read d
  if lockType = .readNoInsert then { s with readNoWriteCount := s.readNoWriteCount + 1 } else s

/-- No writer that a new reader has to let go first. -/
def noImportantWriter (s : LinkedLock) : Bool :=
  match data s .writeWait with
  | none => true
  | some w => s.type w ≤ .writeLowPriority

/-- The branch of `thr_lock` for readers. -/
def thrLockRead (env : Env) (s : LinkedLock) (d : DataId) (owner : Owner) (lockType : LockType) :
    LinkedLock × Outcome :=
  match data s .write with
  | some w =>
    if owner = s.owner w ∨
        (s.type w ≤ .writeDelayed ∧
          (lockType ≤ .readHighPriority ∨
            (s.type w ≠ .writeConcurrentInsert ∧ s.type w ≠ .writeAllowRead))) then
      (grantRead s d lockType, .success)
    else if s.type w = .writeOnly then
      (s.setType d .unlock, .aborted)
    else waitOrDeadlock env s d owner .readWait
  | none =>
    if noImportantWriter s ∨ lockType = .readHighPriority ∨
        haveOldReadLock s (data s .read) owner then
      (grantRead s d lockType, .success)
    else waitOrDeadlock env s d owner .readWait

/-- Request for WRITE lock, after the special cases of `TL_WRITE_DELAYED` and
of a `TL_WRITE_CONCURRENT_INSERT` the table cannot do. -/
def thrLockWrite (env : Env) (checkStatus : Bool) (s : LinkedLock) (d : DataId) (owner : Owner)
    (lockType : LockType) : LinkedLock × Outcome :=
  match data s .write with
  | some w =>
    if s.type w = .writeOnly then
      (s.setType d .unlock, .aborted)
    else if owner = s.owner w ∨
        (lockType = .writeAllowWrite ∧ data s .writeWait = none ∧
          s.type w = .writeAllowWrite) then
      (append s .write d, .success)
    else waitOrDeadlock env s d owner .writeWait
  | none =>
    if data s .writeWait = none then
      -- no scheduled write locks
      let lockType :=
        if lockType = .writeConcurrentInsert ∧ checkStatus then env.upgradedConcurrentInsertLock
        else lockType
      let s := s.setType d lockType
      if data s .read = none ∨
          (lockType ≤ .writeDelayed ∧
            ((lockType ≠ .writeConcurrentInsert ∧ lockType ≠ .writeAllowWrite) ∨
              s.readNoWriteCount = 0)) then
        (append s .write d, .success)
      else waitOrDeadlock env s d owner .writeWait
    else waitOrDeadlock env s d owner .writeWait

/-- The branch of `thr_lock` for `TL_WRITE_DELAYED`. -/
def thrLockDelayed (env : Env) (checkStatus : Bool) (s : LinkedLock) (d : DataId) (owner : Owner)
    (lockType : LockType) : LinkedLock × Outcome :=
  match data s .write with
  | some w =>
    if s.type w = .writeOnly then
      (s.setType d .unlock, .aborted)
    else if s.type w ≠ .writeAllowRead ∧
        ¬ haveSpecificLock s (data s .writeWait) .writeAllowRead then
      -- add delayed write lock to write_wait queue, and return at once
      ((append s .writeWait d).setCond d true, .success)
    else thrLockWrite env checkStatus s d owner lockType
  | none =>
    if ¬ haveSpecificLock s (data s .writeWait) .writeAllowRead ∧ (data s .read).isSome then
      ((append s .writeWait d).setCond d true, .success)
    else thrLockWrite env checkStatus s d owner lockType

/-- `thr_lock`, up to the wait. -/
def thrLock (env : Env) (checkStatus : Bool) (s : LinkedLock) (d : DataId) (owner : Owner)
    (lockType : LockType) : LinkedLock × Outcome :=
  let s : LinkedLock :=
    { (s.setCond d false).setType d lockType with
      queues := s.queues.store (.next d) none
      owner := Function.update s.owner d owner }
  if lockType ≤ .readNoInsert then
    thrLockRead env s d owner lockType
  else if lockType = .writeDelayed then
    thrLockDelayed env checkStatus s d owner lockType
  else if lockType = .writeConcurrentInsert ∧ ¬ env.hasCheckStatus then
    let lockType := env.upgradedConcurrentInsertLock
    thrLockWrite env checkStatus (s.setType d lockType) d owner lockType
  else thrLockWrite env checkStatus s d owner lockType

/-- Body of the loop of `free_all_read_locks`. A lock that cannot be freed is
linked away from the read chain back into the read_wait chain; its `next` is
left as it is and steers the loop. -/
def freeOne (usingConcurrentInsert : Bool) (s : LinkedLock) (d : DataId) : LinkedLock :=
  if s.type d = .readNoInsert then
    if usingConcurrentInsert then append (unlink s .read d) .readWait d
    else { s.setCond d false with readNoWriteCount := s.readNoWriteCount + 1 }
  else s.setCond d false

/-- The loop of `free_all_read_locks` over the wait list. -/
def freeLoop (usingConcurrentInsert : Bool) : Nat → LinkedLock → DataId → LinkedLock
  | 0, s, _ => s
  | fuel + 1, s, d =>
    let s := freeOne usingConcurrentInsert s d
    match s.queues.next d with
    | some e => freeLoop usingConcurrentInsert fuel s e
    | none => s

def endReadWait (s : LinkedLock) : LinkedLock :=
  let links := s.queues.terminate .readWait
  { s with
    queues := links
    writeLockCount := if links.data .readWait = none then 0 else s.writeLockCount }

/-- `free_all_read_locks`. It is called with `lock->read_wait.data` set. -/
def freeAllReadLocks (s : LinkedLock) (usingConcurrentInsert : Bool) : LinkedLock :=
  match data s .readWait with
  | none => s
  | some d =>
    let s := { s with queues := s.queues.pour .readWait .read d }
    endReadWait (freeLoop usingConcurrentInsert s.instances s d)

/-- A waiting writer is moved to the running ones and woken up. -/
def startWrite (s : LinkedLock) (d : DataId) : LinkedLock :=
  let s := unlink s .writeWait d
  { s with queues := s.queues.appendLast .write d }

/-- The `for (;;)` of `thr_unlock`: start the write lock `d`, and with a
`TL_WRITE_ALLOW_WRITE` the ones behind it of the same type. The second
component is the last lock started. -/
def startWriters (checkStatus : Bool) : Nat → LinkedLock → DataId → LinkedLock × DataId
  | 0, s, d => (s, d)
  | fuel + 1, s, d =>
    let s := startWrite s d
    let s :=
      if s.type d = .writeConcurrentInsert ∧ checkStatus then s.setType d .write else s
    let s := s.setCond d false
    match data s .writeWait with
    | none => (s, d)
    | some e =>
      if s.type d ≠ .writeAllowWrite ∨ s.type e ≠ .writeAllowWrite then (s, d)
      else startWriters checkStatus fuel s e

/-- The `do .. while` of `thr_unlock` that starts write locks together with
running read locks. -/
def startSharedWriters (lockType : LockType) : Nat → LinkedLock → DataId → LinkedLock
  | 0, s, _ => s
  | fuel + 1, s, d =>
    let s := (startWrite s d).setCond d false
    match data s .writeWait with
    | some e =>
      if lockType = .writeAllowWrite ∧ s.type e = .writeAllowWrite then
        startSharedWriters lockType fuel s e
      else s
    | none => s

def writerFirst (s : LinkedLock) (d : DataId) : Bool :=
  s.type d ≠ .writeLowPriority ||
    match data s .readWait with
    | none => true
    | some r => s.type r < .readHighPriority

/-- Part of `thr_unlock` run when no lock is left in use. -/
def giveToWaiting (env : Env) (checkStatus : Bool) (s : LinkedLock) : LinkedLock :=
  match data s .writeWait with
  | none => freeAllReadLocks s false
  | some d =>
    if writerFirst s d then
      let tooMany := s.writeLockCount > env.maxWriteLockCount
      let s : LinkedLock :=
        { s with
          writeLockCount := if tooMany then 0 else (s.writeLockCount + 1) % 2 ^ 64 }
      if tooMany ∧ (data s .readWait).isSome then
        -- too many write locks in a row; release all waiting read locks
        freeAllReadLocks s false
      else
        let (s, d) := startWriters checkStatus s.instances s d
        if .writeLowPriority ≤ s.type d then s
        else freeAllReadLocks s (s.type d).allowsInsert
    else freeAllReadLocks s (s.type d).allowsInsert

/-- Part of `thr_unlock` run when only read locks are left in use. -/
def giveBesideReaders (checkStatus : Bool) (s : LinkedLock) : LinkedLock :=
  match data s .writeWait with
  | none => freeAllReadLocks s false
  | some d =>
    let lockType := s.type d
    if lockType ≤ .writeDelayed ∧
        ((lockType ≠ .writeConcurrentInsert ∧ lockType ≠ .writeAllowWrite) ∨
          s.readNoWriteCount = 0) then
      if lockType = .writeConcurrentInsert ∧ checkStatus then
        freeAllReadLocks (s.setType d .write) false
      else freeAllReadLocks (startSharedWriters lockType s.instances s d) lockType.allowsInsert
    else s

/-- `thr_unlock`, with its cascade of who runs next. -/
def thrUnlock (env : Env) (checkStatus : Bool) (s : LinkedLock) (d : DataId) : LinkedLock :=
  let lockType := s.type d
  let list : ListName :=
    if lockType ≤ .readNoInsert then .read
    else if lockType = .writeDelayed ∧ s.cond d then .writeWait
    else .write
  let s := unlink s list d
  let s : LinkedLock :=
    if lockType = .readNoInsert then { s with readNoWriteCount := s.readNoWriteCount - 1 } else s
  let s := s.setType d .unlock
  if (data s .write).isSome then s
  else if (data s .read).isNone then giveToWaiting env checkStatus s
  else giveBesideReaders checkStatus s

/-- The loops of `thr_abort_locks` do not unlink; the list is emptied after them. -/
def abortLoop : Nat → LinkedLock → Option DataId → LinkedLock
  | 0, s, _ => s
  | _ + 1, s, none => s
  | fuel + 1, s, some d =>
    abortLoop fuel ((s.setType d .unlock).setCond d false) (s.queues.next d)

/-- `thr_abort_locks`. -/
def thrAbortLocks (s : LinkedLock) : LinkedLock :=
  let s := abortLoop s.instances s (data s .readWait)
  let s := abortLoop s.instances s (data s .writeWait)
  let s := { s with queues := (s.queues.clear .readWait).clear .writeWait }
  match data s .write with
  | some d => s.setType d .writeOnly
  | none => s

/-- The loops of `thr_abort_locks_for_thread` unlink one request at a time. -/
def abortThreadLoop (env : Env) (thread : Thread) (n : ListName) :
    Nat → LinkedLock → Option DataId → LinkedLock
  | 0, s, _ => s
  | _ + 1, s, none => s
  | fuel + 1, s, some d =>
    let s :=
      if thread = env.thread (env.info (s.owner d)) then
        unlink ((s.setType d .unlock).setCond d false) n d
      else s
    abortThreadLoop env thread n fuel s (s.queues.next d)

def thrAbortLocksForThread (env : Env) (s : LinkedLock) (thread : Thread) : LinkedLock :=
  let s := abortThreadLoop env thread .readWait s.instances s (data s .readWait)
  abortThreadLoop env thread .writeWait s.instances s (data s .writeWait)

/-- The writer is put before the head of the wait list by hand. -/
def requeueWrite (s : LinkedLock) (d : DataId) : LinkedLock :=
  let s := unlink s .write d
  { s with queues := s.queues.pushFront .writeWait d }

def thrUpgradeWriteDelayLock (s : LinkedLock) (d : DataId) : LinkedLock × Outcome :=
  if s.type d = .unlock then (s, .aborted)
  else if .writeLowPriority ≤ s.type d then (s, .success)
  else
    let s := s.setType d .write
    if ¬ s.cond d then
      -- someone has given us the lock
      if (data s .read).isNone then (s, .success)
      else (waitForLock (requeueWrite s d) .writeWait d true, .waits .writeWait)
    else (waitForLock s .writeWait d true, .waits .writeWait)

/-- `thr_reschedule_write_lock` up to its call of
`thr_upgrade_write_delay_lock`, which takes the mutex again. -/
def thrRescheduleWriteLock (s : LinkedLock) (d : DataId) : LinkedLock :=
  if (data s .readWait).isNone then s
  else
    let s := requeueWrite (s.setType d .writeDelayed) d
    freeAllReadLocks (s.setCond d true) false

end Code
end MySQL.ThrLock
