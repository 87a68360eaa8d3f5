import MySQL.Mysys.ThrLock.Code
import MySQL.Mysys.ThrLock.Model

/-! Every call on the linked lists does what the call of the same name does on
lists of instances. -/
namespace MySQL.ThrLock
open Library Model

/-- The links of `c` hold the lists of `a`, and all else is equal. -/
def Refines (c : LinkedLock) (a : QueuedLock) : Prop :=
  ∃ L : Links ListName DataId, c = a.withQueues L ∧ L.Represents none a.queues ∧
    ∀ n, ∀ d ∈ a.queues n, d < a.instances

/-- Both calls have the same outcome and leave a lock that the lists describe. -/
def RefinesResult (r : LinkedLock × Outcome) (r' : QueuedLock × Outcome) : Prop :=
  Refines r.1 r'.1 ∧ r.2 = r'.2

/-- Two alternatives on equivalent tests are related if their branches are. -/
theorem rel_ite {α β : Type} {R : α → β → Prop} {p p' : Prop} [Decidable p] [Decidable p'] {x y : α} {x' y' : β}
    (hp : p ↔ p') (hThen : p' → R x x') (hElse : ¬ p' → R y y') :
    R (if p then x else y) (if p' then x' else y') := by
  by_cases h : p'
  · rw [if_pos h, if_pos (hp.mpr h)]
    exact hThen h
  · rw [if_neg h, if_neg (mt hp.mp h)]
    exact hElse h

/-- A list without repetitions of numbers below `bound` is no longer than `bound`. -/
private theorem length_le_of_nodup {ids : List DataId} {bound : Nat} (hNodup : ids.Nodup)
    (hBound : ∀ d ∈ ids, d < bound) : ids.length ≤ bound := by
  have hSubset : ids ⊆ List.range bound := fun d hd => List.mem_range.mpr (hBound d hd)
  simpa using (hNodup.subperm hSubset).length_le

namespace Refines
variable {c : LinkedLock} {a : QueuedLock} {d : DataId} {n : ListName}

section
variable (h : Refines c a)
include h

/-- The head that the code reads is the first instance of the list. -/
theorem data_eq (n : ListName) : Code.data c n = first a n := by
  obtain ⟨L, rfl, hRep, -⟩ := h
  exact hRep.data_eq_head? n

theorem type_eq : c.type = a.type := by
  obtain ⟨L, rfl, -⟩ := h
  rfl

theorem owner_eq : c.owner = a.owner := by
  obtain ⟨L, rfl, -⟩ := h
  rfl

theorem cond_eq : c.cond = a.cond := by
  obtain ⟨L, rfl, -⟩ := h
  rfl

theorem readNoWriteCount_eq : c.readNoWriteCount = a.readNoWriteCount := by
  obtain ⟨L, rfl, -⟩ := h
  rfl

theorem writeLockCount_eq : c.writeLockCount = a.writeLockCount := by
  obtain ⟨L, rfl, -⟩ := h
  rfl

theorem instances_eq : c.instances = a.instances := by
  obtain ⟨L, rfl, -⟩ := h
  rfl

/-- No instance is in two lists or twice in one. -/
theorem separate : Links.Separate a.queues := by
  obtain ⟨L, -, hRep, -⟩ := h
  exact hRep.separate

theorem length_le (n : ListName) : (a.queues n).length ≤ a.instances := by
  obtain ⟨L, -, hRep, hBound⟩ := h
  exact length_le_of_nodup (hRep.separate.nodup n) (hBound n)

/-- Walking a list along the links visits the instances of the list. -/
theorem listOf_eq (n : ListName) : Code.listOf c n = a.queues n := by
  have hLength := h.length_le n
  obtain ⟨L, rfl, hRep, -⟩ := h
  exact hRep.walk_eq hLength

/-- The links do not depend on the fields of the instances. -/
theorem setType (d : DataId) (t : LockType) : Refines (c.setType d t) (a.setType d t) := by
  obtain ⟨L, rfl, hRep, hBound⟩ := h
  exact ⟨L, rfl, hRep, hBound⟩

theorem setCond (d : DataId) (b : Bool) : Refines (c.setCond d b) (a.setCond d b) := by
  obtain ⟨L, rfl, hRep, hBound⟩ := h
  exact ⟨L, rfl, hRep, hBound⟩

theorem setReadNoWriteCount (count : Nat) :
    Refines { c with readNoWriteCount := count } { a with readNoWriteCount := count } := by
  obtain ⟨L, rfl, hRep, hBound⟩ := h
  exact ⟨L, rfl, hRep, hBound⟩

theorem setWriteLockCount (count : Nat) :
    Refines { c with writeLockCount := count } { a with writeLockCount := count } := by
  obtain ⟨L, rfl, hRep, hBound⟩ := h
  exact ⟨L, rfl, hRep, hBound⟩

end

/-- Entries put in one list are bounded when they come from the lists or are
themselves bounded. -/
theorem bound_update {q : ListName → List DataId} {bound : Nat} {ids : List DataId}
    (hBound : ∀ n, ∀ d ∈ q n, d < bound) (hIds : ∀ d ∈ ids, d < bound) (m : ListName) :
    ∀ d ∈ Function.update q n ids m, d < bound := by
  rcases eq_or_ne m n with rfl | hm
  · simpa using hIds
  · simpa [hm] using hBound m

/-- The code may append an instance that is in no list and whose `next` is null. -/
theorem append (h : Refines c a) (hd : ∀ m, d ∉ a.queues m) (hNext : c.queues.next d = none)
    (hInst : d < a.instances) : Refines (Code.append c n d) (append a n d) := by
  obtain ⟨L, rfl, hRep, hBound⟩ := h
  refine ⟨L.append n d, rfl, hRep.append hd fun _ => hNext, ?_⟩
  apply bound_update hBound
  intro e he
  rcases List.mem_append.mp he with he | he
  · exact hBound n e he
  · exact List.mem_singleton.mp he ▸ hInst

/-- Unlinking an instance of the list removes it and nothing else. -/
theorem unlink (h : Refines c a) (hd : d ∈ a.queues n) :
    Refines (Code.unlink c n d) (remove a n d) := by
  obtain ⟨L, rfl, hRep, hBound⟩ := h
  refine ⟨L.unlink n d, rfl, hRep.unlink (by simp) hd, ?_⟩
  exact bound_update hBound fun e he => hBound n e (List.mem_of_mem_erase he)

/-- `wait_for_lock` that fails unlinks the request again. -/
theorem waitFailed (h : Refines c a) (hd : d ∈ a.queues n) :
    Refines (Code.waitFailed c n d) (waitFailed a n d) :=
  (h.unlink hd).setType d .unlock

end Refines

/-- `thr_lock` was called with an instance that is in no list. -/
structure Requests (c : LinkedLock) (a : QueuedLock) (d : DataId) : Prop where
  refines : Refines c a
  fresh : ∀ n, d ∉ a.queues n
  next : c.queues.next d = none
  inst : d < a.instances

namespace Requests
variable {env : Env} {c : LinkedLock} {a : QueuedLock} {d : DataId} {n : ListName}
variable {owner : Owner} {lockType : LockType} {checkStatus : Bool}

section
variable (h : Requests c a d)
include h

theorem setType (t : LockType) : Requests (c.setType d t) (a.setType d t) d :=
  ⟨h.refines.setType d t, h.fresh, h.next, h.inst⟩

theorem append (n : ListName) : Refines (Code.append c n d) (append a n d) :=
  h.refines.append h.fresh h.next h.inst

theorem aborted : RefinesResult (c.setType d .unlock, .aborted) (a.setType d .unlock, .aborted) :=
  ⟨h.refines.setType d .unlock, rfl⟩

theorem granted (n : ListName) :
    RefinesResult (Code.append c n d, .success) (Model.append a n d, .success) :=
  ⟨h.append n, rfl⟩

theorem waits (n : ListName) : Refines (Code.waitForLock c n d false) (wait a n d) :=
  (h.append n).setCond d true

/-- The reader and its count go into the lock together. -/
theorem grantRead (lockType : LockType) : RefinesResult (Code.grantRead c d lockType, .success)
      (grantRead a d lockType, .success) := by
  refine ⟨?_, rfl⟩
  have hAppend := h.append .read
  have hCount := hAppend.readNoWriteCount_eq
  unfold Code.grantRead Model.grantRead
  by_cases hType : lockType = .readNoInsert
  · simp only [if_pos hType, hCount]
    exact hAppend.setReadNoWriteCount _
  · simp only [if_neg hType]
    exact hAppend

/-- Both sides look at the same running instance for a deadlock. -/
theorem waitOrDeadlock (env : Env) (owner : Owner) (n : ListName) :
    RefinesResult (Code.waitOrDeadlock env c d owner n) (waitOrDeadlock env a d owner n) := by
  unfold Code.waitOrDeadlock Model.waitOrDeadlock Model.ownConnection
  simp only [h.refines.data_eq, h.refines.owner_eq]
  cases (first a .read).or (first a .write) with
  | none => exact ⟨h.waits n, rfl⟩
  | some e =>
    apply rel_ite
    · simp
    · intro _
      exact ⟨h.refines, rfl⟩
    · intro _
      exact ⟨h.waits n, rfl⟩

end

/-- The test for writers that readers may overtake. -/
private theorem noImportantWriter_iff (h : Refines c a) : Code.noImportantWriter c = true ↔
      ∀ w ∈ first a .writeWait, a.type w ≤ .writeLowPriority := by
  unfold Code.noImportantWriter
  rw [h.data_eq, h.type_eq]
  cases first a .writeWait <;> simp

/-- The loop of `have_old_read_lock` looks at all running readers. -/
private theorem haveOldReadLock_iff (h : Refines c a) :
    Code.haveOldReadLock c (Code.data c .read) owner = true ↔
      ∃ e ∈ a.queues .read, a.owner e = owner := by
  change ((Code.listOf c .read).any fun e => decide (c.owner e = owner)) = true ↔ _
  simp [h.listOf_eq, h.owner_eq]

/-- The loop of `have_specific_lock` looks at all waiting writers. -/
private theorem haveSpecificLock_iff (h : Refines c a) (type : LockType) :
    Code.haveSpecificLock c (Code.data c .writeWait) type = true ↔
      ∃ e ∈ a.queues .writeWait, a.type e = type := by
  change ((Code.listOf c .writeWait).any fun e => decide (c.type e = type)) = true ↔ _
  simp [h.listOf_eq, h.type_eq]

/-- Readers get the same answer from the links as from the lists. -/
theorem thrLockRead (h : Requests c a d) : RefinesResult (Code.thrLockRead env c d owner lockType)
      (thrLockRead env a d owner lockType) := by
  unfold Code.thrLockRead Model.thrLockRead
  rw [h.refines.data_eq]
  cases first a .write with
  | some w =>
    apply rel_ite
    · rw [h.refines.type_eq, h.refines.owner_eq, readerPasses]
    · intro _
      exact h.grantRead lockType
    · intro _
      apply rel_ite (by rw [h.refines.type_eq])
      · intro _
        exact h.aborted
      · intro _
        exact h.waitOrDeadlock env owner .readWait
  | none =>
    apply rel_ite
    · rw [noImportantWriter_iff h.refines, haveOldReadLock_iff h.refines, readerOvertakes]
    · intro _
      exact h.grantRead lockType
    · intro _
      exact h.waitOrDeadlock env owner .readWait

/-- Writers get the same answer from the links as from the lists. -/
theorem thrLockWrite (h : Requests c a d) :
    RefinesResult (Code.thrLockWrite env checkStatus c d owner lockType)
      (thrLockWrite env checkStatus a d owner lockType) := by
  unfold Code.thrLockWrite Model.thrLockWrite
  rw [h.refines.data_eq]
  cases first a .write with
  | some w =>
    apply rel_ite (by rw [h.refines.type_eq])
    · intro _
      exact h.aborted
    · intro _
      apply rel_ite
      · rw [h.refines.type_eq, h.refines.owner_eq, h.refines.data_eq, first_eq_none_iff,
          writerJoins]
      · intro _
        exact h.granted .write
      · intro _
        exact h.waitOrDeadlock env owner .writeWait
  | none =>
    apply rel_ite (by rw [h.refines.data_eq, first_eq_none_iff])
    · intro _
      -- the type under which the request goes on
      generalize (if lockType = .writeConcurrentInsert ∧ checkStatus = true then
        env.upgradedConcurrentInsertLock else lockType) = type
      have hTyped := h.setType type
      apply rel_ite
      · rw [hTyped.refines.data_eq, first_eq_none_iff, writerStarts,
          hTyped.refines.readNoWriteCount_eq]
      · intro _
        exact hTyped.granted .write
      · intro _
        exact hTyped.waitOrDeadlock env owner .writeWait
    · intro _
      exact h.waitOrDeadlock env owner .writeWait

private theorem queuesDelayed_iff_of_some {w : DataId} (h : Refines c a)
    (hFirst : first a .write = some w) :
    (c.type w ≠ .writeAllowRead ∧
        ¬ Code.haveSpecificLock c (Code.data c .writeWait) .writeAllowRead) ↔
      queuesDelayed a := by
  have hNonempty : a.queues .write ≠ [] := by
    intro hEmpty
    simp [first, hEmpty] at hFirst
  rw [haveSpecificLock_iff h, h.type_eq, queuesDelayed, hFirst]
  simp [hNonempty]

private theorem queuesDelayed_iff_of_none (h : Refines c a) (hFirst : first a .write = none) :
    (¬ Code.haveSpecificLock c (Code.data c .writeWait) .writeAllowRead ∧
        (Code.data c .read).isSome) ↔ queuesDelayed a := by
  have hEmpty : a.queues .write = [] := first_eq_none_iff.mp hFirst
  rw [haveSpecificLock_iff h, h.data_eq, queuesDelayed, hFirst, hEmpty]
  simp [first]

/-- Delayed writes get the same answer from the links as from the lists. -/
theorem thrLockDelayed (h : Requests c a d) :
    RefinesResult (Code.thrLockDelayed env checkStatus c d owner lockType)
      (thrLockDelayed env checkStatus a d owner lockType) := by
  unfold Code.thrLockDelayed Model.thrLockDelayed
  rw [h.refines.data_eq .write]
  cases hFirst : first a .write with
  | some w =>
    apply rel_ite (by simp [h.refines.type_eq])
    · intro _
      exact h.aborted
    · intro _
      apply rel_ite (queuesDelayed_iff_of_some h.refines hFirst)
      · intro _
        exact ⟨h.waits .writeWait, rfl⟩
      · intro _
        exact h.thrLockWrite
  | none =>
    have hNone : ¬ ∃ w ∈ (none : Option DataId), a.type w = .writeOnly := by simp
    rw [if_neg hNone]
    apply rel_ite (queuesDelayed_iff_of_none h.refines hFirst)
    · intro _
      exact ⟨h.waits .writeWait, rfl⟩
    · intro _
      exact h.thrLockWrite

end Requests

/-- `thr_lock` does to the links what the model does to the lists. -/
theorem Refines.thrLock {c : LinkedLock} {a : QueuedLock} {d : DataId} (h : Refines c a)
    (env : Env) (checkStatus : Bool) (owner : Owner) (lockType : LockType)
    (hFresh : ∀ n, d ∉ a.queues n) (hInst : d < a.instances) :
    RefinesResult (Code.thrLock env checkStatus c d owner lockType)
      (thrLock env checkStatus a d owner lockType) := by
  obtain ⟨L, rfl, hRep, hBound⟩ := h
  have hRequests : Requests ((request a d owner lockType).withQueues (L.store (.next d) none))
      (request a d owner lockType) d :=
    ⟨⟨_, rfl, hRep.storeNext hFresh none, hBound⟩, hFresh, by simp [Links.next_eq_load], hInst⟩
  unfold Code.thrLock Model.thrLock
  apply rel_ite Iff.rfl
  · intro _
    exact hRequests.thrLockRead
  · intro _
    apply rel_ite Iff.rfl
    · intro _
      exact hRequests.thrLockDelayed
    · intro _
      apply rel_ite Iff.rfl
      · intro _
        exact (hRequests.setType _).thrLockWrite
      · intro _
        exact hRequests.thrLockWrite

end MySQL.ThrLock
