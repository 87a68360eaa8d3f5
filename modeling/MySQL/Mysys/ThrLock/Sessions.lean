import MySQL.Library.System
import MySQL.Mysys.ThrLock.Code
import MySQL.Mysys.ThrLock.Model

/-! The callers of one table lock. Each instance is idle, waits in
`wait_for_lock`, or has been returned to its caller as locked; calls of
different callers come in any order, each atomic under `lock->mutex`. -/
namespace MySQL.ThrLock
open Library Model Function

inductive Use where
  | idle
  | held
  | waiting (list : ListName)
  deriving DecidableEq, Repr

def Use.after : Outcome → Use
  | .success => .held
  | .aborted => .idle
  | .deadlock => .idle
  | .waits list => .waiting list

structure Calls (Q : Type) where
  thrLockInit : Lock Q
  thrLockDataInit : Lock Q → Lock Q
  thrLock : Env → Bool → Lock Q → DataId → Owner → LockType → Lock Q × Outcome
  waitFailed : Lock Q → ListName → DataId → Lock Q
  thrUnlock : Env → Bool → Lock Q → DataId → Lock Q
  thrAbortLocks : Lock Q → Lock Q
  thrAbortLocksForThread : Env → Lock Q → Thread → Lock Q
  thrUpgradeWriteDelayLock : Lock Q → DataId → Lock Q × Outcome
  thrRescheduleWriteLock : Lock Q → DataId → Lock Q

def Code.calls : Calls (Links ListName DataId) where
  thrLockInit := Code.thrLockInit
  thrLockDataInit := Code.thrLockDataInit
  thrLock := Code.thrLock
  waitFailed := Code.waitFailed
  thrUnlock := Code.thrUnlock
  thrAbortLocks := Code.thrAbortLocks
  thrAbortLocksForThread := Code.thrAbortLocksForThread
  thrUpgradeWriteDelayLock := Code.thrUpgradeWriteDelayLock
  thrRescheduleWriteLock := Code.thrRescheduleWriteLock

def Model.calls : Calls (ListName → List DataId) where
  thrLockInit := thrLockInit
  thrLockDataInit := thrLockDataInit
  thrLock := thrLock
  waitFailed := waitFailed
  thrUnlock := thrUnlock
  thrAbortLocks := thrAbortLocks
  thrAbortLocksForThread := thrAbortLocksForThread
  thrUpgradeWriteDelayLock := thrUpgradeWriteDelayLock
  thrRescheduleWriteLock := thrRescheduleWriteLock

structure Session (Q : Type) where
  lock : Lock Q
  use : DataId → Use

/-- One call. The answer `checkStatus` is the storage engine's. -/
inductive Call where
  | dataInit
  | lock (d : DataId) (owner : Owner) (type : LockType) (checkStatus : Bool)
  | wake (d : DataId)
  | waitFails (d : DataId)
  | unlock (d : DataId) (checkStatus : Bool)
  | abortLocks
  | abortLocksForThread (thread : Thread)
  | upgrade (d : DataId)
  | reschedule (d : DataId)
  deriving DecidableEq, Repr

variable {Q : Type}

def Session.init (calls : Calls Q) : Session Q where
  lock := calls.thrLockInit
  use _ := .idle

/-- Effect of a call on the lock and on the instances; `none` for a call that
its caller must not make or cannot make yet. `thr_multi_unlock` passes only
instances to `thr_unlock` whose type is not `TL_UNLOCK`. -/
def step (calls : Calls Q) (env : Env) (s : Session Q) : Call → Option (Session Q)
  | .dataInit => some { s with lock := calls.thrLockDataInit s.lock }
  | .lock d owner type checkStatus =>
    if d < s.lock.instances ∧ s.use d = .idle ∧ type ≠ .unlock then
      let result := calls.thrLock env checkStatus s.lock d owner type
      some ⟨result.1, update s.use d (.after result.2)⟩
    else none
  | .wake d =>
    match s.use d with
    | .waiting _ =>
      if s.lock.cond d then none
      else some { s with
        use := update s.use d (if s.lock.type d = .unlock then .idle else .held) }
    | _ => none
  | .waitFails d =>
    match s.use d with
    | .waiting list =>
      if s.lock.cond d then
        some ⟨calls.waitFailed s.lock list d, update s.use d .idle⟩
      else none
    | _ => none
  | .unlock d checkStatus =>
    if s.use d = .held then
      some ⟨if s.lock.type d = .unlock then s.lock else calls.thrUnlock env checkStatus s.lock d,
        update s.use d .idle⟩
    else none
  | .abortLocks => some { s with lock := calls.thrAbortLocks s.lock }
  | .abortLocksForThread thread =>
    some { s with lock := calls.thrAbortLocksForThread env s.lock thread }
  | .upgrade d =>
    if s.use d = .held ∧ (s.lock.type d = .unlock ∨ .readNoInsert < s.lock.type d) then
      let result := calls.thrUpgradeWriteDelayLock s.lock d
      some ⟨result.1, update s.use d (.after result.2)⟩
    else none
  | .reschedule d =>
    if s.use d = .held ∧ .readNoInsert < s.lock.type d ∧ s.lock.cond d = false then
      some { s with lock := calls.thrRescheduleWriteLock s.lock d }
    else none

def system (calls : Calls Q) (env : Env) : System (Session Q) Call :=
  ⟨step calls env⟩

end MySQL.ThrLock
