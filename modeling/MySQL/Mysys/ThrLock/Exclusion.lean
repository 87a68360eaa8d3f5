import MySQL.Mysys.ThrLock.Runs

/-! Which locks run together. The tests of a request look at the first running
writer only, and the one for readers lets `TL_READ_NO_INSERT` pass a
`TL_WRITE_ALLOW_WRITE`; where neither matters, the conflict rules of
`check_locks` hold along every run. -/
namespace MySQL.ThrLock
open List Library Model

/-- A write lock of type `w` may run beside another owner's read lock of type `r`. -/
def Compatible (w r : LockType) : Prop :=
  ¬ (.writeDelayed < w ∧ w ≠ .writeOnly) ∧ ¬ (w.allowsInsert ∧ r = .readNoInsert)

instance (w r : LockType) : Decidable (Compatible w r) :=
  inferInstanceAs (Decidable (_ ∧ _))

structure Exclusive (s : QueuedLock) : Prop where
  writers : ∀ d ∈ s.queues .write, ∀ e ∈ s.queues .write, s.owner d ≠ s.owner e →
    s.type d = .writeAllowWrite ∧ s.type e = .writeAllowWrite
  readers : ∀ d ∈ s.queues .write, ∀ e ∈ s.queues .read, s.owner d ≠ s.owner e →
    Compatible (s.type d) (s.type e)

namespace Exclusive
variable {env : Env} {s s' : QueuedLock} {use : DataId → Use} {d : DataId}

theorem of_no_writer (h : s.queues .write = []) : Exclusive s :=
  ⟨by simp [h], by simp [h]⟩

section
variable (h : Exclusive s) (hWrite : s'.queues .write ⊆ s.queues .write)
  (hRead : s'.queues .read ⊆ s.queues .read)
include h hWrite hRead

/-- The rules depend on the running locks only, and fewer of them is better. -/
theorem mono (hType : ∀ e, e ∈ s'.queues .write ∨ e ∈ s'.queues .read → s'.type e = s.type e)
    (hOwner : ∀ e, e ∈ s'.queues .write ∨ e ∈ s'.queues .read → s'.owner e = s.owner e) :
    Exclusive s' := by
  refine ⟨fun x hx y hy => ?_, fun x hx y hy => ?_⟩
  · rw [hType x (.inl hx), hType y (.inl hy), hOwner x (.inl hx), hOwner y (.inl hy)]
    exact h.writers x (hWrite hx) y (hWrite hy)
  · rw [hType x (.inl hx), hType y (.inr hy), hOwner x (.inl hx), hOwner y (.inr hy)]
    exact h.readers x (hWrite hx) y (hRead hy)

/-- The fields of one instance change, which runs neither before nor after. -/
theorem local_ (hOff : d ∉ s'.queues .write ∧ d ∉ s'.queues .read)
    (hType : ∀ e ≠ d, s'.type e = s.type e) (hOwner : ∀ e ≠ d, s'.owner e = s.owner e) :
    Exclusive s' := by
  have hNe (e : DataId) (he : e ∈ s'.queues .write ∨ e ∈ s'.queues .read) : e ≠ d := by
    rintro rfl
    exact he.elim hOff.1 hOff.2
  exact h.mono hWrite hRead (fun e he => hType e (hNe e he)) (fun e he => hOwner e (hNe e he))

end

theorem grantRead (h : Exclusive s)
    (hNew : ∀ w ∈ s.queues .write, s.owner w ≠ s.owner d → Compatible (s.type w) (s.type d)) :
    Exclusive (grantRead s d (s.type d)) := by
  have hRead : (Model.grantRead s d (s.type d)).queues .read = s.queues .read ++ [d] :=
    append_self (s := s) (n := .read)
  refine ⟨h.writers, fun x hx y hy => ?_⟩
  rw [hRead, mem_append, mem_singleton] at hy
  rcases hy with hy | rfl
  · exact h.readers x hx y hy
  · exact hNew x hx

theorem grantWrite (h : Exclusive s) (hWriters : ∀ e ∈ s.queues .write, s.owner e ≠ s.owner d →
      s.type e = .writeAllowWrite ∧ s.type d = .writeAllowWrite)
    (hReaders : ∀ e ∈ s.queues .read, s.owner e ≠ s.owner d → Compatible (s.type d) (s.type e)) :
    Exclusive (append s .write d) := by
  have hWrite : (append s .write d).queues .write = s.queues .write ++ [d] :=
    append_self
  refine ⟨fun x hx y hy => ?_, fun x hx y hy => ?_⟩
  · rw [hWrite, mem_append, mem_singleton] at hx hy
    rcases hx with hx | rfl <;> rcases hy with hy | rfl
    · exact h.writers x hx y hy
    · exact hWriters x hx
    · exact fun hNe => (hWriters y hy hNe.symm).symm
    · exact fun hNe => absurd rfl hNe
  · rw [hWrite, mem_append, mem_singleton] at hx
    rcases hx with hx | rfl
    · exact h.readers x hx y hy
    · exact fun hNe => hReaders y hy hNe.symm

variable {t : LockType}

/-- A write lock that starts beside readers is compatible with all of them. -/
theorem compatible_of_starts {e : DataId}
    (hCount : s.readNoWriteCount = (s.queues .read).countP fun d => s.type d = .readNoInsert)
    (hStarts : writerStarts s t) (he : e ∈ s.queues .read) : Compatible t (s.type e) := by
  refine ⟨fun hHigh => absurd hStarts.1 (LockType.not_le.mpr hHigh.1), fun ⟨hInsert, hType⟩ => ?_⟩
  rcases hStarts.2 with hOther | hNone
  · simp [LockType.allowsInsert, hOther.1, hOther.2] at hInsert
  · rw [hCount, countP_eq_zero] at hNone
    simpa [hType] using hNone e he

structure Sees (s : QueuedLock) (d : DataId) : Prop where
  reader : ∀ w, first s .write = some w → s.type d ≤ .readNoInsert →
    readerPasses s w (s.owner d) (s.type d) →
    ∀ e ∈ s.queues .write, s.owner e ≠ s.owner d → Compatible (s.type e) (s.type d)
  writer : ∀ w, first s .write = some w → .readNoInsert < s.type d →
    writerJoins s w (s.owner d) (s.type d) →
    (∀ e ∈ s.queues .write, s.owner e ≠ s.owner d →
      s.type e = .writeAllowWrite ∧ s.type d = .writeAllowWrite) ∧
    ∀ e ∈ s.queues .read, s.owner e ≠ s.owner d → Compatible (s.type d) (s.type e)

theorem decided {r : QueuedLock × Outcome} (h : Exclusive s) (hPending : Pending s use d)
    (hSees : Sees s d) (hDecided : Model.Decided env s d r) : Exclusive r.1 := by
  have hSame {s' : QueuedLock} (hWrite : s'.queues .write = s.queues .write)
      (hRead : s'.queues .read = s.queues .read) (hType : ∀ e ≠ d, s'.type e = s.type e)
      (hOwner : s'.owner = s.owner) : Exclusive s' := by
    apply h.mono (hWrite ▸ Subset.refl _) (hRead ▸ Subset.refl _)
    · rw [hWrite, hRead]
      rintro e (he | he) <;> exact hType e fun hEq => hPending.fresh _ (hEq ▸ he)
    · rw [hOwner]
      exact fun _ _ => rfl
  cases hDecided with
  | aborted => exact hSame rfl rfl (fun e he => by simp [he]) rfl
  | deadlock => exact h
  | readBeside hType hFirst hPasses => exact h.grantRead (hSees.reader _ hFirst hType hPasses)
  | readAlone hType hWrite => exact h.grantRead (by simp [hWrite])
  | readWaits => exact hSame rfl rfl (fun _ _ => rfl) rfl
  | writeBeside hType hFirst hOnly hJoins =>
    obtain ⟨hWriters, hReaders⟩ := hSees.writer _ hFirst hType hJoins
    exact h.grantWrite hWriters hReaders
  | writeAlone hType hWrite hWait hRead =>
    apply h.grantWrite (by simp [hWrite])
    intro e he _
    rcases hRead with hNone | hStarts
    · simp [hNone] at he
    · exact compatible_of_starts hPending.count hStarts he
  | writeWaits => exact hSame rfl rfl (fun _ _ => rfl) rfl
  | delayed => exact hSame rfl rfl (fun _ _ => rfl) rfl

/-- All the writers that start together have the type of the first. -/
private theorem type_of_mem_batch {e : DataId} (hFirst : first s .writeWait = some d)
    (hType : s.type d = t) (he : e ∈ batch s) :
    s.type e = t ∧ (t = .writeAllowWrite ∨ e = d) := by
  obtain ⟨rest, hWait⟩ := first_eq_some_iff.mp hFirst
  simp only [batch, hWait, mem_cons] at he
  rcases he with rfl | he
  · exact ⟨hType, .inr rfl⟩
  · split_ifs at he with hAllow
    · have hMem := mem_takeWhile_imp he
      have hOther : s.type e = .writeAllowWrite := by simpa using hMem
      rw [hType] at hAllow
      exact ⟨hOther.trans hAllow.symm, .inl hAllow⟩
    · simp at he

section
variable (hWrite : s.queues .write = []) (hFirst : first s .writeWait = some d)
include hWrite hFirst

/-- Writers started with no other writer running obey the rules among each other. -/
private theorem writers_startBatch (hType : s.type d = t) :
    ∀ x ∈ (startBatch s).queues .write, ∀ y ∈ (startBatch s).queues .write,
      s.owner x ≠ s.owner y → s.type x = .writeAllowWrite ∧ s.type y = .writeAllowWrite := by
  have hBatch : (startBatch s).queues .write = batch s := by
    simp [startBatch, hWrite]
  rw [hBatch]
  intro x hx y hy hNe
  obtain ⟨hx, hxd⟩ := type_of_mem_batch hFirst hType hx
  obtain ⟨hy, hyd⟩ := type_of_mem_batch hFirst hType hy
  rcases hxd with rfl | rfl
  · exact ⟨hx, hy⟩
  · rcases hyd with rfl | rfl
    · exact ⟨hx, hy⟩
    · exact absurd rfl hNe

private theorem type_startBatch :
    ∀ x ∈ (startBatch s).queues .write, ∀ y ∈ (startBatch s).queues .write,
      s.type x = s.type y := by
  have hBatch : (startBatch s).queues .write = batch s := by
    simp [startBatch, hWrite]
  rw [hBatch]
  intro x hx y hy
  exact (type_of_mem_batch hFirst rfl hx).1.trans (type_of_mem_batch hFirst rfl hy).1.symm

end

/-- A release leaves the lists as they are, or the writers that run then have
started together with no other writer running. -/
theorem of_given (hSettled : Settled s use) (hGiven : Model.Given s s') : s' = s ∨ (Exclusive s' ∧
      ∀ x ∈ s'.queues .write, ∀ y ∈ s'.queues .write, s'.type x = s'.type y) := by
  cases hGiven with
  | busy => exact .inl rfl
  | closed => exact .inl rfl
  | freed count hWrite => exact .inr ⟨of_no_writer hWrite, by simp [hWrite]⟩
  | upgraded hWrite => exact .inr ⟨of_no_writer hWrite, by simp [hWrite]⟩
  | @started count d t hWrite hRead hFirst hType =>
    right
    refine ⟨⟨writers_startBatch (t := t)
      hWrite hFirst (by simp), ?_⟩, ?_⟩
    · intro x _ y hy
      simp [startBatch, hRead] at hy
    · exact type_startBatch hWrite hFirst
  | @startedShared count d t hWrite hFirst hType hShared hRead =>
    right
    refine ⟨⟨writers_startBatch hWrite hFirst
      hType.symm, ?_⟩, type_startBatch hWrite hFirst⟩
    intro x hx y hy _
    have hBatch : x ∈ batch { s with writeLockCount := count } := by
      simpa [startBatch, hWrite] using hx
    obtain ⟨hx, -⟩ := type_of_mem_batch hFirst
      hType.symm hBatch
    change s.type x = t at hx
    change Compatible (s.type x) (s.type y)
    rw [hx]
    rw [freeAllReadLocks_read, mem_append] at hy
    rcases hy with hy | hy
    · rcases hRead with hNone | hStarts
      · simp [startBatch, hNone] at hy
      · exact compatible_of_starts hSettled.count hStarts hy
    · have hKept := (mem_filter.mp hy).2
      refine ⟨fun hHigh => absurd hShared (LockType.not_le.mpr hHigh.1), fun hInsert => ?_⟩
      have hNoInsert : (startBatch { s with writeLockCount := count }).type y =
        .readNoInsert := hInsert.2
      simp [kept, hInsert.1, hNoInsert] at hKept

section
variable (h : Exclusive s)
include h

theorem given (hSettled : Settled s use) (hGiven : Model.Given s s') : Exclusive s' := by
  rcases of_given hSettled hGiven with rfl | ⟨hNew, -⟩
  · exact h
  · exact hNew

/-- The type of a running writer changes, all running writers being its owner's. -/
theorem retype (hRead : d ∉ s.queues .read) (hOne : ∀ e ∈ s.queues .write, s.owner e = s.owner d)
    (hNew : ∀ e ∈ s.queues .read, Compatible t (s.type e)) : Exclusive (s.setType d t) := by
  refine ⟨fun x hx y hy hNe => ?_, fun x hx y hy hNe => ?_⟩
  · exact absurd ((hOne x hx).trans (hOne y hy).symm) hNe
  · have hyd : y ≠ d := fun hEq => hRead (hEq ▸ hy)
    rw [Lock.setType_type, Lock.setType_type]
    split
    · exact hNew y hy
    · exact h.readers x hx y hy hNe

section
variable (hSettled : Settled s use)
include hSettled

theorem abort {n : ListName} (hn : n = .readWait ∨ n = .writeWait) (killed : DataId → Bool) :
    Exclusive (abort s n killed) := by
  have hSame {m : ListName} (hm : m ≠ n) : (Model.abort s n killed).queues m = s.queues m :=
    Function.update_of_ne hm ..
  have hRead : (Model.abort s n killed).queues .read = s.queues .read :=
    hSame (by rcases hn with rfl | rfl <;> simp)
  have hWrite : (Model.abort s n killed).queues .write = s.queues .write :=
    hSame (by rcases hn with rfl | rfl <;> simp)
  apply h.mono (hWrite ▸ List.Subset.refl _) (hRead ▸ List.Subset.refl _)
  · rw [hRead, hWrite]
    intro e he
    refine if_neg fun hDropped => ?_
    have hIn := mem_of_mem_filter hDropped
    rcases he with he | he <;> have hClash := hSettled.separate.disjoint _ _ e he hIn <;>
      rcases hn with rfl | rfl <;> cases hClash
  · exact fun _ _ => rfl

theorem thrAbortLocks (hOne : ∀ x ∈ s.queues .write, ∀ y ∈ s.queues .write, s.owner x = s.owner y) :
    Exclusive (thrAbortLocks s) := by
  have hReaders := h.abort hSettled (.inl rfl) fun _ => true
  have hSettled' := hSettled.abort (n := .readWait) (fun _ => true) (by simp)
  have hBoth := hReaders.abort hSettled' (.inr rfl) fun _ => true
  unfold Model.thrAbortLocks
  dsimp only
  split
  · next w hw =>
    have hMem : w ∈ s.queues .write := mem_of_head? hw
    have hRead : w ∉ s.queues .read := fun hr =>
      absurd (hSettled.separate.disjoint _ _ w hMem hr) (by simp)
    exact hBoth.retype hRead (fun e he => hOne e he w hMem) fun e _ => ⟨by simp, by
      simp [LockType.allowsInsert]⟩
  · exact hBoth

/-- A running writer is put back among the waiting ones. -/
theorem requeue (hd : d ∈ s.queues .write) (t : LockType) :
    Exclusive ((requeueWrite (s.setType d t) d).setCond d true) := by
  have hWrite : ((requeueWrite (s.setType d t) d).setCond d true).queues .write =
      (s.queues .write).erase d := rfl
  have hRead : ((requeueWrite (s.setType d t) d).setCond d true).queues .read =
      s.queues .read := rfl
  apply h.mono (hWrite ▸ erase_subset) (hRead ▸ Subset.refl _)
  · rw [hRead]
    intro e he
    refine Function.update_of_ne (fun hEq => ?_) ..
    subst hEq
    rcases he with he | he
    · exact (hSettled.separate.nodup .write).not_mem_erase he
    · exact absurd (hSettled.separate.disjoint _ _ e hd he) (by simp)
  · exact fun _ _ => rfl

theorem upgraded {r : QueuedLock × Outcome} (hUse : use d = .held)
    (hType : s.type d = .unlock ∨ .readNoInsert < s.type d)
    (hOne : s.queues .read = [] → s.type d = .writeAllowWrite →
      ∀ e ∈ s.queues .write, s.owner e = s.owner d)
    (hUpgraded : Model.Upgraded s d r) : Exclusive r.1 := by
  have hRuns (hLocked : s.type d ≠ .unlock) (hCond : s.cond d = false) : d ∈ s.queues .write :=
    hSettled.mem_write (by simp [hUse]) (hType.resolve_left hLocked) hCond
  cases hUpgraded with
  | aborted => exact h
  | already => exact h
  | alone hLocked hCond hRead =>
    apply h.retype (by simp [hRead]) _ (by simp [hRead])
    intro e he
    by_contra hNe
    exact hNe (hOne hRead (h.writers d (hRuns hLocked hCond) e he (Ne.symm hNe)).1 e he)
  | requeued hLocked hCond =>
    have hd := hRuns hLocked hCond
    exact h.requeue hSettled hd .write
  | waits hLocked hCond =>
    have hOff (n : ListName) (hn : n = .read ∨ n = .write) : d ∉ s.queues n := by
      intro hIn
      have hEntry := hSettled.entry hIn
      rcases hn with rfl | rfl <;> simp [Entry, hCond] at hEntry
    exact h.local_ (fun _ he => he) (fun _ he => he)
      ⟨hOff .write (.inr rfl), hOff .read (.inl rfl)⟩ (fun e he => by simp [he]) (fun _ _ => rfl)

theorem thrRescheduleWriteLock (hd : d ∈ s.queues .write)
    (hFreed : ∀ e ∈ (s.queues .write).erase d, ∀ r ∈ s.queues .readWait,
      s.owner e ≠ s.owner r → Compatible (s.type e) (s.type r)) :
    Exclusive (thrRescheduleWriteLock s d) := by
  unfold Model.thrRescheduleWriteLock
  split_ifs
  · exact h
  · have hRequeued := h.requeue hSettled hd .writeDelayed
    refine ⟨hRequeued.writers, fun x hx y hy => ?_⟩
    rw [(freeAllReadLocks_false _).1, mem_append] at hy
    rcases hy with hy | hy
    · exact hRequeued.readers x hx y hy
    · have hx' : x ∈ (s.queues .write).erase d := hx
      have hy' : y ∈ s.queues .readWait := hy
      have hxd : x ≠ d := by
        rintro rfl
        exact (hSettled.separate.nodup .write).not_mem_erase hx'
      have hyd : y ≠ d := by
        rintro rfl
        exact absurd (hSettled.separate.disjoint _ _ y hd hy') (by simp)
      have hType (e : DataId) (he : e ≠ d) : (freeAllReadLocks
          ((requeueWrite (s.setType d .writeDelayed) d).setCond d true) false).type e =
          s.type e := Function.update_of_ne he ..
      rw [hType x hxd, hType y hyd]
      exact hFreed x hx' y hy'

end

theorem request {owner : Owner} (hFresh : ∀ n, d ∉ s.queues n) :
    Exclusive (request s d owner t) :=
  h.local_ (d := d) (fun _ he => he) (fun _ he => he) ⟨hFresh .write, hFresh .read⟩
    (fun _ he => request_type_of_ne _ _ he) (fun _ he => request_owner_of_ne _ _ he)

theorem remove {n : ListName} (hSettled : Settled s use) (hd : d ∈ s.queues n) :
    Exclusive ((remove s n d).setType d t) := by
  have hSub (m : ListName) : (Model.remove s n d).queues m ⊆ s.queues m := by
    rcases eq_or_ne m n with rfl | hm
    · rw [remove_self]
      exact erase_subset
    · rw [remove_of_ne hm]
      exact List.Subset.refl _
  exact h.local_ (d := d) (hSub .write) (hSub .read)
    ⟨hSettled.notMem_remove hd .write, hSettled.notMem_remove hd .read⟩
    (fun e he => by simp [he, Model.remove, Model.put]) (fun _ _ => rfl)

end

end Exclusive

/-- The conflict rules of `check_locks`. -/
@[mk_iff]
structure ConflictFree (c : LinkedLock) : Prop where
  oneOwner : (∀ d ∈ Code.listOf c .write, ∀ e ∈ Code.listOf c .write, c.owner d = c.owner e) ∨
    ∀ d ∈ Code.listOf c .write, c.type d = .writeAllowWrite
  writeAlone : ∀ d ∈ Code.listOf c .write, .writeDelayed < c.type d → c.type d ≠ .writeOnly →
    ∀ e ∈ Code.listOf c .read, c.owner e = c.owner d
  insertAlone : ∀ d ∈ Code.listOf c .write,
    c.type d = .writeConcurrentInsert ∨ c.type d = .writeAllowWrite →
    ∀ e ∈ Code.listOf c .read, c.type e = .readNoInsert → c.owner e = c.owner d

def ReaderSees (c : LinkedLock) (w : DataId) (owner : Owner) (t : LockType) : Prop :=
  t ≤ .readNoInsert →
  (owner = c.owner w ∨
    (c.type w ≤ .writeDelayed ∧
      (t ≤ .readHighPriority ∨
        (c.type w ≠ .writeConcurrentInsert ∧ c.type w ≠ .writeAllowRead)))) →
  ∀ e ∈ Code.listOf c .write, c.owner e ≠ owner → Compatible (c.type e) t

def WriterSees (c : LinkedLock) (w : DataId) (owner : Owner) (t : LockType) : Prop :=
  .readNoInsert < t →
  (owner = c.owner w ∨
    (t = .writeAllowWrite ∧ Code.data c .writeWait = none ∧ c.type w = .writeAllowWrite)) →
  (∀ e ∈ Code.listOf c .write, c.owner e ≠ owner →
    c.type e = .writeAllowWrite ∧ t = .writeAllowWrite) ∧
  ∀ e ∈ Code.listOf c .read, c.owner e ≠ owner → Compatible t (c.type e)

/-- The call meets no conflict that its tests do not look at. -/
def SeesConflicts (env : Env) (c : LinkedSession) : Call → Prop
  | .lock _ owner t _ =>
    ∀ w ∈ Code.data c.lock .write,
      ReaderSees c.lock w owner t ∧ WriterSees c.lock w owner (env.requestedType t)
  | .abortLocks =>
    ∀ d ∈ Code.listOf c.lock .write, ∀ e ∈ Code.listOf c.lock .write,
      c.lock.owner d = c.lock.owner e
  | .upgrade d =>
    Code.listOf c.lock .read = [] → c.lock.type d = .writeAllowWrite →
      ∀ e ∈ Code.listOf c.lock .write, c.lock.owner e = c.lock.owner d
  | .reschedule d =>
    ∀ e ∈ (Code.listOf c.lock .write).erase d, ∀ r ∈ Code.listOf c.lock .readWait,
      c.lock.owner e ≠ c.lock.owner r → Compatible (c.lock.type e) (c.lock.type r)
  | _ => True

/-- The condition on the call, read on the lists of the model. -/
private theorem sees_of_seesConflicts {env : Env} {c : LinkedSession} {a : QueuedSession}
    {d : DataId} {owner : Owner} {t t' : LockType} {checkStatus : Bool} (hBehind : Behind c a)
    (hUse : a.use d = .idle) (hOk : SeesConflicts env c (.lock d owner t checkStatus))
    (hDecidedType : Model.DecidedType env a.lock t t') :
    Exclusive.Sees (request a.lock d owner t') d := by
  have hRef := hBehind.refines.lock
  have hFresh := hBehind.settled.notMem_of_idle hUse
  have hType {n : ListName} {e : DataId} (he : e ∈ a.lock.queues n) :
      (request a.lock d owner t').type e = a.lock.type e := by
    have hNe : e ≠ d := fun hEq => hFresh n (hEq ▸ he)
    simp [request, hNe]
  have hOwner {n : ListName} {e : DataId} (he : e ∈ a.lock.queues n) :
      (request a.lock d owner t').owner e = a.lock.owner e := by
    have hNe : e ≠ d := fun hEq => hFresh n (hEq ▸ he)
    simp [request, hNe]
  -- a writer runs, so `check_status` is not asked
  have hSame {w : DataId} (hw : first a.lock .write = some w) : t' = env.requestedType t := by
    rcases hDecidedType with hEq | ⟨-, hNone, -⟩
    · exact hEq
    · exact absurd hNone (ne_nil_of_first hw)
  have hClause (w : DataId) (hw : first a.lock .write = some w) :
      ReaderSees c.lock w owner t ∧ WriterSees c.lock w owner (env.requestedType t) :=
    hOk w (by rw [hRef.data_eq]; exact hw)
  simp only [ReaderSees, WriterSees, hRef.listOf_eq, hRef.owner_eq, hRef.type_eq, hRef.data_eq,
    first_eq_none_iff] at hClause
  constructor
  · intro w hw hRead hPasses e he
    have hMem : w ∈ a.lock.queues .write := mem_of_head? hw
    rw [request_type] at hRead
    have hUnchanged : t' = t := by
      rw [hSame hw, Env.requestedType] at hRead ⊢
      split_ifs at hRead ⊢
      · exact absurd hRead (LockType.not_le.mpr (readNoInsert_lt_upgraded env))
      · rfl
    subst hUnchanged
    simp only [readerPasses, hType hMem, hOwner hMem, request_owner,
      request_type] at hPasses
    rw [hType he, hOwner he, request_owner, request_type]
    exact (hClause w hw).1 hRead hPasses e he
  · intro w hw hWrite hJoins
    have hMem : w ∈ a.lock.queues .write := mem_of_head? hw
    have hEq := hSame hw
    subst hEq
    rw [request_type] at hWrite
    simp only [writerJoins, hType hMem, hOwner hMem, request_owner,
      request_type] at hJoins
    obtain ⟨hWriters, hReaders⟩ := (hClause w hw).2 hWrite hJoins
    rw [request_owner, request_type]
    refine ⟨fun e he => ?_, fun e he => ?_⟩
    · rw [hType he, hOwner he]
      exact hWriters e he
    · rw [hType he, hOwner he]
      exact hReaders e he

theorem Exclusive.moves {env : Env} {c : LinkedSession} {a a' : QueuedSession} {call : Call}
    (hBehind : Behind c a) (h : Exclusive a.lock) (hOk : SeesConflicts env c call)
    (hMoves : Model.Moves env a call a') : Exclusive a'.lock := by
  have hRef := hBehind.refines.lock
  have hSettled := hBehind.settled
  cases hMoves with
  | dataInit =>
    have hFresh (n : ListName) : a.lock.instances ∉ a.lock.queues n :=
      fun hn => absurd (hRef.bound n _ hn) (by simp)
    exact h.local_ (fun _ he => he) (fun _ he => he)
      ⟨hFresh .write, hFresh .read⟩ (fun e he => by simp [thrLockDataInit, he])
      (fun _ _ => rfl)
  | lock hUse hType hDecidedType hDecided =>
    exact (h.request (hSettled.notMem_of_idle hUse)).decided
      (hSettled.request hUse (hDecidedType.ne_unlock hType))
      (sees_of_seesConflicts hBehind hUse hOk hDecidedType) hDecided
  | wake => exact h
  | waitFails hUse hCond => exact h.remove hSettled (hSettled.mem_of_waiting hUse hCond)
  | unlockAborted => exact h
  | @unlock d checkStatus lock hUse hType hGiven =>
    have hRemoved := h.remove (t := .unlock) hSettled (hSettled.mem_heldIn hUse hType)
    have hReleased : Exclusive (release a.lock d) := ⟨hRemoved.writers, hRemoved.readers⟩
    exact hReleased.given (hSettled.release hUse hType) hGiven
  | abortLocks =>
    simp only [SeesConflicts, hRef.listOf_eq, hRef.owner_eq] at hOk
    exact h.thrAbortLocks hSettled hOk
  | abortLocksForThread =>
    exact (h.abort hSettled (.inl rfl) _).abort (hSettled.abort _ (by simp)) (.inr rfl) _
  | upgrade hUse hType hUpgraded =>
    simp only [SeesConflicts, hRef.listOf_eq, hRef.owner_eq, hRef.type_eq] at hOk
    exact h.upgraded hSettled hUse hType hOk hUpgraded
  | reschedule hUse hType hCond =>
    simp only [SeesConflicts, hRef.listOf_eq, hRef.owner_eq, hRef.type_eq] at hOk
    exact h.thrRescheduleWriteLock hSettled (hSettled.mem_write (by simp [hUse]) hType hCond) hOk

/-- The rules for two locks at a time are the rules of `check_locks`. -/
private theorem conflictFree_of_exclusive {c : LinkedLock} {a : QueuedLock} (hRef : Refines c a)
    (h : Exclusive a) : ConflictFree c := by
  have hOther {x y : DataId} (hx : x ∈ a.queues .write) (hy : y ∈ a.queues .read)
      (hNot : ¬ Compatible (a.type x) (a.type y)) : a.owner y = a.owner x := by
    by_contra hNe
    exact hNot (h.readers x hx y hy fun hEq => hNe hEq.symm)
  constructor
  · simp only [hRef.listOf_eq, hRef.owner_eq, hRef.type_eq]
    by_contra hBoth
    push Not at hBoth
    obtain ⟨⟨x, hx, y, hy, hNe⟩, z, hz, hType⟩ := hBoth
    rcases eq_or_ne (a.owner z) _ with hzx | hzx
    · exact hType (h.writers z hz y hy (hzx ▸ hNe)).1
    · exact hType (h.writers z hz x hx hzx).1
  · simp only [hRef.listOf_eq, hRef.owner_eq, hRef.type_eq]
    intro x hx hHigh hOnly y hy
    exact hOther hx hy fun hCompatible => hCompatible.1 ⟨hHigh, hOnly⟩
  · simp only [hRef.listOf_eq, hRef.owner_eq, hRef.type_eq]
    intro x hx hInsert y hy hNoInsert
    exact hOther hx hy fun hCompatible =>
      hCompatible.2 ⟨by simpa [LockType.allowsInsert] using hInsert, hNoInsert⟩

/-- In every run all of whose calls see the conflicts they meet, the running
locks obey the conflict rules. -/
theorem conflictFree_of_run {env : Env} {c : LinkedSession}
    (run : (system Code.calls env).Run (SeesConflicts env) (.init Code.calls) c) :
    ConflictFree c.lock := by
  obtain ⟨a, hBehind, hExclusive⟩ := run_invariant run (fun a => Exclusive a.lock)
    (.of_no_writer rfl)
    (fun c a call a' hBehind hExclusive hOk hMoves _ => hExclusive.moves hBehind hOk hMoves)
  exact conflictFree_of_exclusive hBehind.refines.lock hExclusive

instance (c : LinkedLock) (w : DataId) (owner : Owner) (t : LockType) :
    Decidable (ReaderSees c w owner t) :=
  inferInstanceAs (Decidable (_ → _ → _))

instance (c : LinkedLock) (w : DataId) (owner : Owner) (t : LockType) :
    Decidable (WriterSees c w owner t) :=
  inferInstanceAs (Decidable (_ → _ → _))

instance (env : Env) (c : LinkedSession) (call : Call) : Decidable (SeesConflicts env c call) := by
  cases call <;> dsimp only [SeesConflicts] <;> infer_instance

/-- A concurrent insert beside a reader, with a writer behind both. -/
theorem conflictFree_insert_beside_reader :
    ∃ c, ((system Code.calls .default).checked (SeesConflicts .default)).exec (.init Code.calls)
        [.dataInit, .dataInit, .dataInit, .lock 0 1 .read false,
          .lock 1 2 .writeConcurrentInsert false, .lock 2 3 .write false, .unlock 1 false] =
          some c ∧ ConflictFree c.lock := by
  apply System.exists_exec (by decide)
  exact fun c hExec => conflictFree_of_run (System.run_of_exec_checked hExec)

instance (c : LinkedLock) : Decidable (ConflictFree c) := decidable_of_iff' _ (conflictFree_iff c)

/-- Three runs that break a rule each: a `TL_READ_NO_INSERT` beside another
owner's `TL_WRITE_ALLOW_WRITE`; a read lock beside another owner's `TL_WRITE`
that stands behind a `TL_WRITE_ALLOW_READ`; and a `TL_WRITE` beside another
owner's `TL_WRITE_ALLOW_WRITE` that stands behind the requester's own. -/
theorem not_conflictFree_of_reachable :
    (∀ run ∈ ([[.lock 0 1 .writeAllowWrite false, .lock 1 2 .readNoInsert false],
        [.lock 0 1 .writeAllowRead false, .lock 1 1 .write false, .lock 2 2 .read false],
        [.lock 0 1 .writeAllowWrite false, .lock 1 2 .writeAllowWrite false,
          .lock 2 1 .write false]] : List (List Call)),
      ∃ c, (system Code.calls .default).Reachable (.init Code.calls) c ∧
        (system Code.calls .default).exec (.init Code.calls)
          (.dataInit :: .dataInit :: .dataInit :: run) = some c ∧ ¬ ConflictFree c.lock) ∧
    ¬ ∀ c, (system Code.calls .default).Reachable (.init Code.calls) c → ConflictFree c.lock := by
  have hReach (run : List Call) (hRun : ((system Code.calls .default).exec (.init Code.calls)
      (.dataInit :: .dataInit :: .dataInit :: run)).map (fun c => decide (ConflictFree c.lock)) = some false) :
      ∃ c, (system Code.calls .default).Reachable (.init Code.calls) c ∧
        (system Code.calls .default).exec (.init Code.calls)
          (.dataInit :: .dataInit :: .dataInit :: run) = some c ∧ ¬ ConflictFree c.lock := by
    obtain ⟨c, hExec, hNot⟩ := Option.map_eq_some_iff.mp hRun
    exact ⟨c, System.reachable_of_exec hExec, hExec, of_decide_eq_false hNot⟩
  constructor
  · intro run hRun
    apply hReach
    revert run
    decide
  · intro h
    obtain ⟨c, hReachable, -, hNot⟩ :=
      hReach [.lock 0 1 .writeAllowWrite false, .lock 1 2 .readNoInsert false] (by decide)
    exact hNot (h c hReachable)

end MySQL.ThrLock
