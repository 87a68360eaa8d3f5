import MySQL.Library.LinkedQueue

/-! The records of `include/thr_lock.h`. A `THR_LOCK_DATA` is named by the
number it got from `thr_lock_data_init`, a `THR_LOCK_OWNER` and a
`THR_LOCK_INFO` by their addresses. Only what some call of `thr_lock.c`
reads is kept; the parameters of the status functions and the debug fields
steer nothing. -/
namespace MySQL.ThrLock
open Library Function

/-- The enumeration `thr_lock_type`. `TL_IGNORE` is never requested. -/
inductive LockType where
  | unlock
  | read
  | readWithSharedLocks
  | readHighPriority
  | readNoInsert
  | writeAllowWrite
  | writeAllowRead
  | writeConcurrentInsert
  | writeDelayed
  | writeLowPriority
  | write
  | writeOnly
  deriving DecidableEq, Repr

namespace LockType

def value : LockType → Nat
  | unlock => 0
  | read => 1
  | readWithSharedLocks => 2
  | readHighPriority => 3
  | readNoInsert => 4
  | writeAllowWrite => 5
  | writeAllowRead => 6
  | writeConcurrentInsert => 7
  | writeDelayed => 8
  | writeLowPriority => 9
  | write => 10
  | writeOnly => 11

instance : LE LockType := ⟨fun a b => a.value ≤ b.value⟩

instance : LT LockType := ⟨fun a b => a.value < b.value⟩

instance (a b : LockType) : Decidable (a ≤ b) :=
  inferInstanceAs (Decidable (a.value ≤ b.value))

instance (a b : LockType) : Decidable (a < b) :=
  inferInstanceAs (Decidable (a.value < b.value))

theorem le_iff {a b : LockType} : a ≤ b ↔ a.value ≤ b.value := Iff.rfl

theorem lt_iff {a b : LockType} : a < b ↔ a.value < b.value := Iff.rfl

theorem not_le {a b : LockType} : ¬ a ≤ b ↔ b < a := Nat.not_le

theorem value_injective : Function.Injective value := by
  intro a b h
  cases a <;> cases b <;> first | rfl | cases h

/-- The two types whose writers let readers in except `TL_READ_NO_INSERT`. -/
def allowsInsert (t : LockType) : Bool :=
  t = writeConcurrentInsert ∨ t = writeAllowWrite

end LockType

abbrev DataId := Nat
abbrev Owner := Nat
abbrev Info := Nat
abbrev Thread := Nat

/-- The four `st_lock_list` of a `THR_LOCK`. -/
inductive ListName where
  | readWait
  | read
  | writeWait
  | write
  deriving DecidableEq, Repr

/-- `enum_thr_lock_result`, with the case in which `wait_for_lock` goes to
sleep: its result is decided by later calls. -/
inductive Outcome where
  | success
  | aborted
  | deadlock
  | waits (list : ListName)
  deriving DecidableEq, Repr

/-- What does not change while a lock is in use. -/
structure Env where
  /-- `owner->info` -/
  info : Owner → Info
  /-- `info->thread` -/
  thread : Info → Thread
  /-- The storage engine has set `lock->check_status`. -/
  hasCheckStatus : Bool
  /-- `thr_upgraded_concurrent_insert_lock` is `TL_WRITE_LOW_PRIORITY`, as
  `--low-priority-updates` makes it. -/
  lowPriorityUpdates : Bool
  maxWriteLockCount : Nat

def Env.upgradedConcurrentInsertLock (env : Env) : LockType :=
  if env.lowPriorityUpdates then .writeLowPriority else .write

/-- A `TL_WRITE_CONCURRENT_INSERT` is upgraded at once where the storage engine
cannot do it. -/
def Env.requestedType (env : Env) (t : LockType) : LockType :=
  if t = .writeConcurrentInsert ∧ ¬ env.hasCheckStatus then env.upgradedConcurrentInsertLock
  else t

def Env.default : Env where
  info owner := owner
  thread info := info
  hasCheckStatus := true
  lowPriorityUpdates := false
  maxWriteLockCount := 2 ^ 64 - 1

/-- A `THR_LOCK` together with the fields of its instances, the queues being
kept as `Q`. -/
@[ext] structure Lock (Q : Type) where
  queues : Q
  owner : DataId → Owner
  type : DataId → LockType
  /-- Whether `data->cond` is set. -/
  cond : DataId → Bool
  writeLockCount : Nat
  readNoWriteCount : Nat
  /-- Number of instances that `thr_lock_data_init` has made. -/
  instances : Nat

namespace Lock
variable {Q R : Type}

@[simps -fullyApplied queues owner cond writeLockCount readNoWriteCount instances]
def setType (s : Lock Q) (d : DataId) (t : LockType) : Lock Q :=
  { s with type := update s.type d t }

@[simps -fullyApplied queues owner type writeLockCount readNoWriteCount instances]
def setCond (s : Lock Q) (d : DataId) (set : Bool) : Lock Q :=
  { s with cond := update s.cond d set }

@[simps -fullyApplied queues owner readNoWriteCount instances]
def markAborted (s : Lock Q) (ids : List DataId) : Lock Q :=
  { s with
    type := fun e => if e ∈ ids then .unlock else s.type e
    cond := fun e => if e ∈ ids then false else s.cond e }

@[simps -fullyApplied]
def withQueues (s : Lock Q) (queues : R) : Lock R where
  queues := queues
  owner := s.owner
  type := s.type
  cond := s.cond
  writeLockCount := s.writeLockCount
  readNoWriteCount := s.readNoWriteCount
  instances := s.instances

variable (s : Lock Q) (d e : DataId) (t : LockType) (b : Bool)

@[simp] theorem setType_type : (s.setType d t).type e = if e = d then t else s.type e := by
  simp [setType, update_apply]

theorem setType_self : s.setType d (s.type d) = s := by
  simp [setType]

@[simp] theorem setCond_cond : (s.setCond d b).cond e = if e = d then b else s.cond e := by
  simp [setCond, update_apply]

section
variable (ids ids' : List DataId)

@[simp] theorem markAborted_type :
    (s.markAborted ids).type e = if e ∈ ids then .unlock else s.type e := rfl
@[simp] theorem markAborted_cond :
    (s.markAborted ids).cond e = if e ∈ ids then false else s.cond e := rfl

theorem markAborted_markAborted :
    (s.markAborted ids).markAborted ids' = s.markAborted (ids ++ ids') := by
  apply Lock.ext
  · rfl
  · rfl
  · funext e
    by_cases h : e ∈ ids <;> by_cases h' : e ∈ ids' <;> simp [h, h']
  · funext e
    by_cases h : e ∈ ids <;> by_cases h' : e ∈ ids' <;> simp [h, h']
  all_goals rfl

theorem markAborted_singleton : s.markAborted [d] = (s.setType d .unlock).setCond d false := by
  apply Lock.ext
  · rfl
  · rfl
  · funext e
    simp
  · funext e
    simp
  all_goals rfl

theorem markAborted_nil : s.markAborted [] = s := by
  simp [markAborted]

end

end Lock

end MySQL.ThrLock
