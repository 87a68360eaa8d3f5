import MySQL.Mysys.ThrLock.Decisions
import MySQL.Mysys.ThrLock.RefinementAbort

/-! Where each instance is. Its place is determined by how far its caller has
come, by its type and by `cond`; every call keeps it so. -/
namespace MySQL.ThrLock
open Function List Library Model

abbrev QueuedSession := Session (ListName → List DataId)
abbrev LinkedSession := Session (Links ListName DataId)

def Entry (s : QueuedLock) (d : DataId) (use : Use) : ListName → Prop
  | .read => use ≠ .idle ∧ s.type d ≠ .unlock ∧ s.type d ≤ .readNoInsert ∧ s.cond d = false
  | .write => use ≠ .idle ∧ .readNoInsert < s.type d ∧ s.cond d = false
  | .readWait =>
    use = .waiting .readWait ∧ s.type d ≠ .unlock ∧ s.type d ≤ .readNoInsert ∧ s.cond d = true
  | .writeWait =>
    .readNoInsert < s.type d ∧ s.cond d = true ∧
      (use = .waiting .writeWait ∨ (use = .held ∧ s.type d = .writeDelayed))

inductive Place (s : QueuedLock) (d : DataId) : Use → Prop
  | idle (hOff : ∀ n, d ∉ s.queues n) : Place s d .idle
  | aborted {use : Use} (hOff : ∀ n, d ∉ s.queues n) (hType : s.type d = .unlock)
      (hCond : s.cond d = false) : Place s d use
  | listed {use : Use} (n : ListName) (hIn : d ∈ s.queues n) (hEntry : Entry s d use n) :
      Place s d use

structure Settled (s : QueuedLock) (use : DataId → Use) : Prop where
  separate : Links.Separate s.queues
  place : ∀ d, Place s d (use d)
  count : s.readNoWriteCount = (s.queues .read).countP fun d => s.type d = .readNoInsert

variable {t : LockType}

theorem readNoInsert_lt_ne_unlock (h : .readNoInsert < t) : t ≠ .unlock := by
  rintro rfl
  exact absurd h (by decide)

variable {s : QueuedLock} {d : DataId} {use : Use} {n : ListName}

theorem Entry.congr {s' : QueuedLock} (h : Entry s d use n) (hType : s'.type d = s.type d)
    (hCond : s'.cond d = s.cond d) : Entry s' d use n := by
  cases n <;> simpa only [Entry, hType, hCond] using h

theorem Entry.use_ne_idle (h : Entry s d use n) : use ≠ .idle := by
  cases n with
  | read => exact h.1
  | write => exact h.1
  | readWait => simp [h.1]
  | writeWait => rcases h.2.2 with rfl | ⟨rfl, -⟩ <;> simp

theorem Entry.type_ne_unlock (h : Entry s d use n) : s.type d ≠ .unlock := by
  cases n with
  | read => exact h.2.1
  | write => exact readNoInsert_lt_ne_unlock h.2.1
  | readWait => exact h.2.1
  | writeWait => exact readNoInsert_lt_ne_unlock h.1

/-- The place of `d` depends on its own fields and on the lists it is in. -/
theorem Place.congr {s' : QueuedLock} (h : Place s d use)
    (hIn : ∀ n, d ∈ s'.queues n ↔ d ∈ s.queues n) (hType : s'.type d = s.type d)
    (hCond : s'.cond d = s.cond d) : Place s' d use := by
  cases h with
  | idle hOff => exact .idle fun n => mt (hIn n).mp (hOff n)
  | aborted hOff ht hc =>
    exact .aborted (fun n => mt (hIn n).mp (hOff n)) (hType.trans ht) (hCond.trans hc)
  | listed n hMem hEntry => exact .listed n ((hIn n).mpr hMem) (hEntry.congr hType hCond)

namespace Settled
variable {s : QueuedLock} {use : DataId → Use} {d e : DataId} {n : ListName}

section
variable (h : Settled s use)
include h

theorem entry (hd : d ∈ s.queues n) : Entry s d (use d) n := by
  have hPlace := h.place d
  generalize use d = u at hPlace ⊢
  cases hPlace with
  | idle hOff => exact absurd hd (hOff n)
  | aborted hOff => exact absurd hd (hOff n)
  | listed m hIn hEntry =>
    rw [h.separate.disjoint n m d hd hIn]
    exact hEntry

theorem notMem_of_idle (hd : use d = .idle) (n : ListName) : d ∉ s.queues n :=
  fun hn => (h.entry hn).use_ne_idle hd

/-- An instance whose call succeeded or waits is listed, unless it was aborted. -/
theorem listed (hUse : use d ≠ .idle) (hType : s.type d ≠ .unlock) : ∃ n, d ∈ s.queues n := by
  have hPlace := h.place d
  generalize use d = u at hPlace hUse
  cases hPlace with
  | idle => exact absurd rfl hUse
  | aborted _ ht => exact absurd ht hType
  | listed n hIn => exact ⟨n, hIn⟩

/-- A caller still asleep is in the list it waits in. -/
theorem mem_of_waiting (hUse : use d = .waiting n) (hCond : s.cond d = true) : d ∈ s.queues n := by
  have hPlace := h.place d
  rw [hUse] at hPlace
  cases hPlace with
  | aborted _ _ hc => simp [hCond] at hc
  | listed m hIn hEntry =>
    cases m with
    | read => simp [Entry, hCond] at hEntry
    | write => simp [Entry, hCond] at hEntry
    | readWait =>
      cases hEntry.1
      exact hIn
    | writeWait =>
      rcases hEntry.2.2 with hw | ⟨hw, -⟩ <;> cases hw
      exact hIn

/-- An instance handed to `thr_unlock` is in the list the call takes it from. -/
theorem mem_heldIn (hUse : use d = .held) (hType : s.type d ≠ .unlock) :
    d ∈ s.queues (heldIn s d) := by
  obtain ⟨n, hn⟩ := h.listed (by simp [hUse]) hType
  have hEntry := h.entry hn
  rw [hUse] at hEntry
  unfold heldIn
  cases n with
  | read => rwa [if_pos hEntry.2.2.1]
  | write =>
    have hLt := hEntry.2.1
    rwa [if_neg (LockType.not_le.mpr hLt), if_neg (by simp [hEntry.2.2])]
  | readWait => simp [Entry] at hEntry
  | writeWait =>
    obtain ⟨hLt, hCond, hw | ⟨-, hDelayed⟩⟩ := hEntry
    · cases hw
    · rwa [if_neg (LockType.not_le.mpr hLt), if_pos ⟨hDelayed, hCond⟩]

/-- An instance held with a write type and not waiting runs. -/
theorem mem_write (hUse : use d ≠ .idle) (hType : .readNoInsert < s.type d)
    (hCond : s.cond d = false) : d ∈ s.queues .write := by
  obtain ⟨n, hn⟩ := h.listed hUse (readNoInsert_lt_ne_unlock hType)
  have hEntry := h.entry hn
  cases n with
  | read => exact absurd hEntry.2.2.1 (LockType.not_le.mpr hType)
  | write => exact hn
  | readWait => simp [Entry, hCond] at hEntry
  | writeWait => simp [Entry, hCond] at hEntry

end

/-- A call that touches no instance but `d`. -/
theorem of_local {s' : QueuedLock} {u : Use} (hOthers : ∀ e ≠ d, Place s e (use e))
    (hIn : ∀ e ≠ d, ∀ n, e ∈ s'.queues n ↔ e ∈ s.queues n)
    (hType : ∀ e ≠ d, s'.type e = s.type e) (hCond : ∀ e ≠ d, s'.cond e = s.cond e)
    (hSeparate : Links.Separate s'.queues) (hPlace : Place s' d u)
    (hCount : s'.readNoWriteCount = (s'.queues .read).countP fun e => s'.type e = .readNoInsert) :
    Settled s' (update use d u) where
  separate := hSeparate
  place e := by
    rcases eq_or_ne e d with rfl | he
    · rwa [update_self]
    · rw [update_of_ne he]
      exact (hOthers e he).congr (hIn e he) (hType e he) (hCond e he)
  count := hCount

end Settled

structure Pending (s : QueuedLock) (use : DataId → Use) (d : DataId) : Prop where
  separate : Links.Separate s.queues
  others : ∀ e ≠ d, Place s e (use e)
  fresh : ∀ n, d ∉ s.queues n
  locked : s.type d ≠ .unlock
  cond : s.cond d = false
  count : s.readNoWriteCount = (s.queues .read).countP fun d => s.type d = .readNoInsert

theorem countP_setType {ids : List DataId} (hd : d ∉ ids) :
    (ids.countP fun e => (s.setType d t).type e = .readNoInsert) =
      ids.countP fun e => s.type e = .readNoInsert := by
  apply countP_congr
  intro e he
  have hNe : e ≠ d := fun hEq => hd (hEq ▸ he)
  simp [hNe]

theorem Settled.request {use : DataId → Use} {owner : Owner} (h : Settled s use)
    (hUse : use d = .idle) (hType : t ≠ .unlock) : Pending (request s d owner t) use d where
  separate := h.separate
  others e he := (h.place e).congr (fun _ => Iff.rfl) (by simp [Model.request, he])
    (by simp [Model.request, he])
  fresh := h.notMem_of_idle hUse
  locked := by simpa using hType
  cond := by simp [Model.request]
  count := h.count.trans (countP_setType (h.notMem_of_idle hUse .read)).symm

namespace Pending
variable {s : QueuedLock} {use : DataId → Use} {d : DataId}

/-- The request is refused. -/
theorem refused {t : LockType} (h : Pending s use d) :
    Settled (s.setType d t) (update use d .idle) :=
  Settled.of_local h.others (fun _ _ _ => Iff.rfl) (fun e he => by simp [he]) (fun _ _ => rfl)
    h.separate (.idle h.fresh) (h.count.trans (countP_setType (h.fresh .read)).symm)

theorem mem_append_iff {n m : ListName} {e : DataId} (he : e ≠ d) :
    e ∈ (append s n d).queues m ↔ e ∈ s.queues m := by
  rcases eq_or_ne m n with rfl | hm
  · simp [append, put, he]
  · simp [append, put, hm]

section
variable (h : Pending s use d)
include h

/-- The request is put at the end of list `n`. -/
theorem appended {n : ListName} {u : Use} {set : Bool} (hn : n ≠ .read)
    (hEntry : Entry ((append s n d).setCond d set) d u n) :
    Settled ((append s n d).setCond d set) (update use d u) := by
  apply Settled.of_local h.others
  · intro e he m
    exact mem_append_iff he
  · intro e _
    rfl
  · intro e he
    simp [he, append, put]
  · exact h.separate.enter h.fresh (perm_append_singleton ..)
  · exact .listed n (by simp [append, put]) hEntry
  · have hRead : (append s n d).queues .read = s.queues .read := by
      simp [append, put, hn.symm]
    simp only [Lock.setCond_queues, hRead]
    exact h.count

theorem grantRead (hType : s.type d ≤ .readNoInsert) :
    Settled (grantRead s d (s.type d)) (update use d .held) := by
  apply Settled.of_local h.others
  · intro e he m
    exact mem_append_iff he
  · intro e _
    rfl
  · intro e _
    rfl
  · exact h.separate.enter h.fresh (perm_append_singleton ..)
  · exact .listed .read (by simp [Model.grantRead, Model.append, Model.put])
      ⟨by simp, h.locked, hType, h.cond⟩
  · simp [Model.grantRead, Model.append, Model.put, countP_append, countP_singleton, h.count]

theorem grantWrite (hType : .readNoInsert < s.type d) :
    Settled (append s .write d) (update use d .held) := by
  have hSame : (append s .write d).setCond d false = append s .write d := by
    rw [← h.cond]
    exact Lock.ext rfl rfl rfl (update_eq_self d s.cond) rfl rfl rfl
  rw [← hSame]
  exact h.appended (by simp) ⟨by simp, hType, by simp⟩

theorem decided {env : Env} {r : QueuedLock × Outcome} (hDecided : Model.Decided env s d r) :
    Settled r.1 (update use d (.after r.2)) := by
  cases hDecided with
  | aborted => exact h.refused
  | deadlock =>
    have hSettled := h.refused (t := s.type d)
    rwa [Lock.setType_self] at hSettled
  | readBeside hType => exact h.grantRead hType
  | readAlone hType => exact h.grantRead hType
  | readWaits hType => exact h.appended (by simp) ⟨rfl, h.locked, hType, by simp⟩
  | writeBeside hType => exact h.grantWrite hType
  | writeAlone hType => exact h.grantWrite hType
  | writeWaits hType => exact h.appended (by simp) ⟨hType, by simp, .inl rfl⟩
  | delayed hType =>
    have hLt : .readNoInsert < s.type d := by
      rw [hType]
      decide
    exact h.appended (by simp) ⟨hLt, by simp, .inr ⟨rfl, hType⟩⟩

end

end Pending

namespace Settled
variable {s : QueuedLock} {use : DataId → Use} {d e : DataId} {n : ListName}

section
variable (h : Settled s use)
include h

theorem setWriteLockCount (count : Nat) : Settled { s with writeLockCount := count } use :=
  ⟨h.separate, fun e => (h.place e).congr (fun _ => Iff.rfl) rfl rfl, h.count⟩

/-- The type of an instance outside the running readers is not counted. -/
theorem count_setType {t : LockType} (hd : d ∈ s.queues n) (hn : n ≠ .read) : s.readNoWriteCount =
      (s.queues .read).countP fun e => (s.setType d t).type e = .readNoInsert :=
  h.count.trans (countP_setType fun hr => hn (h.separate.disjoint n .read d hd hr)).symm

/-- A waiting or running writer gets another write type. -/
theorem setType {t : LockType} (hd : d ∈ s.queues n) (hEntry : Entry (s.setType d t) d (use d) n)
    (hn : n ≠ .read) : Settled (s.setType d t) use where
  separate := h.separate
  place e := by
    rcases eq_or_ne e d with rfl | he
    · exact .listed n hd hEntry
    · exact (h.place e).congr (fun _ => Iff.rfl) (by simp [he]) rfl
  count := h.count_setType hd hn

/-- Instances moved from one list behind those of another. -/
private theorem moved {s' : QueuedLock} {src dst : ListName} {moved left : List DataId}
    (hNe : src ≠ dst) (hSplit : (moved ++ left).Perm (s.queues src))
    (hQueues : s'.queues = update (update s.queues src left) dst (s.queues dst ++ moved))
    (hType : s'.type = s.type) (hCond : s'.cond = fun e => if e ∈ moved then false else s.cond e)
    (hEntry : ∀ e ∈ moved, Entry s e (use e) src → Entry s' e (use e) dst)
    (hCount : s'.readNoWriteCount = (s'.queues .read).countP fun e => s'.type e = .readNoInsert) :
    Settled s' use where
  separate := by
    rw [hQueues]
    exact h.separate.move hNe hSplit
  place e := by
    have hSrc : e ∈ s.queues src ↔ e ∈ moved ∨ e ∈ left := by
      rw [← hSplit.mem_iff, mem_append]
    by_cases he : e ∈ moved
    · refine .listed dst ?_ (hEntry e he (h.entry (hSrc.mpr (.inl he))))
      simp [hQueues, he]
    · refine (h.place e).congr (fun n => ?_) (congrFun hType e) (by simp [hCond, he])
      rw [hQueues]
      rcases eq_or_ne n dst with rfl | hn
      · simp [he]
      · rw [update_of_ne hn]
        rcases eq_or_ne n src with rfl | hn
        · simp [hSrc, he]
        · rw [update_of_ne hn]
  count := hCount

end

section
variable (h : Settled s use)
include h

theorem freeAllReadLocks (keep : Bool) : Settled (freeAllReadLocks s keep) use := by
  refine h.moved (by simp : ListName.readWait ≠ .read)
    (perm_append_comm.trans (filter_append_perm (kept s keep) _)) ?_ rfl rfl ?_
    ((congrArg (· + _) h.count).trans countP_append.symm)
  · funext n
    cases n <;> rfl
  · exact fun e hFreed hEntry =>
      ⟨hEntry.use_ne_idle, hEntry.2.1, hEntry.2.2.1, if_pos hFreed⟩

/-- Waiting writers are started. -/
theorem start {started rest : List DataId} (hWait : s.queues .writeWait = started ++ rest) :
    Settled (Model.start s started) use := by
  refine h.moved (by simp : ListName.writeWait ≠ .write) (.of_eq hWait.symm) ?_ rfl rfl ?_
    h.count
  · funext n
    cases n <;> simp [hWait]
  · exact fun e he hEntry => ⟨hEntry.use_ne_idle, hEntry.1, if_pos he⟩

theorem startBatch : Settled (startBatch s) use := by
  obtain ⟨rest, hRest⟩ := batch_prefix s
  exact h.start hRest.symm

/-- A `TL_WRITE_CONCURRENT_INSERT` at the head of the waiting writers may be
upgraded: such a request waits. -/
theorem upgradeInsert (hFirst : first s .writeWait = some d)
    (hType : s.type d = .writeConcurrentInsert) : Settled (s.setType d .write) use := by
  have hd := mem_of_head? hFirst
  obtain ⟨-, hCond, hUse | ⟨-, hDelayed⟩⟩ := h.entry hd
  · refine h.setType hd ⟨?_, hCond, .inl hUse⟩ (by simp)
    simp only [Lock.setType_type, if_true]
    decide
  · rw [hType] at hDelayed
    cases hDelayed

theorem given {s' : QueuedLock} (hGiven : Model.Given s s') : Settled s' use := by
  cases hGiven with
  | busy => exact h
  | closed => exact h
  | freed count => exact (h.setWriteLockCount count).freeAllReadLocks false
  | upgraded hWrite hRead hFirst hType =>
    exact (h.upgradeInsert hFirst hType).freeAllReadLocks false
  | @started count d t hWrite hRead hFirst hType =>
    have hCounted := h.setWriteLockCount count
    rcases hType with rfl | ⟨hType, rfl⟩
    · have hSame := Lock.setType_self { s with writeLockCount := count } d
      rw [hSame]
      exact hCounted.startBatch
    · exact (hCounted.upgradeInsert hFirst hType).startBatch
  | startedShared count =>
    exact (h.setWriteLockCount count).startBatch.freeAllReadLocks _

end

theorem mem_remove_iff {m : ListName} (he : e ≠ d) :
    e ∈ (remove s n d).queues m ↔ e ∈ s.queues m := by
  rcases eq_or_ne m n with rfl | hm
  · simp [remove, put, mem_erase_of_ne he]
  · simp [remove, put, hm]

section
variable (h : Settled s use)
include h

theorem notMem_remove (hd : d ∈ s.queues n) (m : ListName) : d ∉ (remove s n d).queues m :=
  h.separate.notMem_erase hd

theorem waitFailed (hd : d ∈ s.queues n) (hn : n ≠ .read) :
    Settled (waitFailed s n d) (update use d .idle) := by
  apply of_local fun e _ => h.place e
  · intro e he m
    exact mem_remove_iff he
  · intro e he
    simp [Model.waitFailed, he, Model.remove, Model.put]
  · intro e _
    rfl
  · exact h.separate.sublist erase_sublist
  · exact .idle (h.notMem_remove hd)
  · have hSame : (Model.waitFailed s n d).queues .read = s.queues .read := by
      simp [Model.waitFailed, Model.remove, Model.put, hn.symm]
    rw [hSame]
    exact h.count_setType hd hn

theorem release (hUse : use d = .held) (hType : s.type d ≠ .unlock) :
    Settled (release s d) (update use d .idle) := by
  have hd := h.mem_heldIn hUse hType
  apply of_local fun e _ => h.place e
  · intro e he m
    exact mem_remove_iff he
  · intro e he
    simp [Model.release, he, Model.remove, Model.put]
  · intro e _
    rfl
  · exact h.separate.sublist erase_sublist
  · exact .idle (h.notMem_remove hd)
  · have hOff := h.notMem_remove hd .read
    refine Eq.trans ?_ (countP_setType hOff).symm
    change s.readNoWriteCount - (if s.type d = .readNoInsert then 1 else 0) =
      ((remove s (heldIn s d) d).queues .read).countP fun e => s.type e = .readNoInsert
    rw [h.count]
    by_cases hRead : s.type d ≤ .readNoInsert
    · have hList : heldIn s d = .read := if_pos hRead
      rw [hList] at hd
      simp [hList, remove, put, countP_erase, hd]
    · have hNe : s.type d ≠ .readNoInsert := by
        intro hEq
        rw [hEq] at hRead
        exact hRead (by decide)
      have hList : heldIn s d ≠ .read := by
        unfold heldIn
        rw [if_neg hRead]
        split <;> simp
      simp [hNe, remove, put, hList.symm]

theorem abort (killed : DataId → Bool) (hn : n ≠ .read) : Settled (Model.abort s n killed) use where
  separate := h.separate.sublist filter_sublist
  place e := by
    have hMem (m : ListName) : e ∈ (Model.abort s n killed).queues m ↔
        e ∈ s.queues m ∧ (m = n → killed e = false) := by
      rcases eq_or_ne m n with rfl | hmn
      · simp [Model.abort, put]
      · simp [Model.abort, put, hmn]
    by_cases he : e ∈ (s.queues n).filter killed
    · obtain ⟨hIn, hKilled⟩ := mem_filter.mp he
      refine .aborted (fun m hm => ?_) (if_pos he) (if_pos he)
      obtain ⟨hm, hNot⟩ := (hMem m).mp hm
      simp [hNot (h.separate.disjoint m n e hm hIn)] at hKilled
    · refine (h.place e).congr (fun m => ?_) (if_neg he) (if_neg he)
      rw [hMem, and_iff_left_iff_imp]
      rintro hm rfl
      simpa [hm] using he
  count := by
    have hRead : (Model.abort s n killed).queues .read = s.queues .read := by
      simp [Model.abort, put, hn.symm]
    rw [hRead]
    refine h.count.trans (countP_congr fun e he => ?_)
    have hOff : e ∉ (s.queues n).filter killed := fun hf =>
      hn (h.separate.disjoint n .read e (mem_of_mem_filter hf) he)
    have hType : (Model.abort s n killed).type e = s.type e := if_neg hOff
    simp [hType]

theorem thrAbortLocks : Settled (Model.thrAbortLocks s) use := by
  have hAborted := (h.abort (n := .readWait) (fun _ => true) (by simp)).abort (n := .writeWait)
    (fun _ => true) (by simp)
  unfold Model.thrAbortLocks
  dsimp only
  cases hFirst : first (Model.abort _ .writeWait
    fun _ => true) .write with
  | none => exact hAborted
  | some w =>
    have hw := mem_of_head? hFirst
    obtain ⟨hUse, -, hCond⟩ := hAborted.entry hw
    refine hAborted.setType hw ⟨hUse, ?_, hCond⟩ (by simp)
    simp only [Lock.setType_type, if_true]
    decide

/-- A running writer is put back at the head of the waiting ones. -/
theorem requeue {t : LockType} {u : Use} (hd : d ∈ s.queues .write) (hType : .readNoInsert < t)
    (hUse : u = .waiting .writeWait ∨ (u = .held ∧ t = .writeDelayed)) :
    Settled ((requeueWrite (s.setType d t) d).setCond d true) (update use d u) := by
  have hOff := h.notMem_remove hd
  apply of_local fun e _ => h.place e
  · intro e he m
    rw [← mem_remove_iff (s := s) (n := .write) he]
    rcases eq_or_ne m .writeWait with rfl | hm
    · simp [requeueWrite, put, remove, he]
    · simp [requeueWrite, put, remove, hm]
  · intro e he
    simp [requeueWrite, put, remove, he]
  · intro e he
    simp [requeueWrite, put, remove, he]
  · exact (h.separate.sublist erase_sublist).enter hOff .rfl
  · refine .listed .writeWait (by simp [requeueWrite, put]) ⟨?_, by simp, ?_⟩
    · simpa [requeueWrite, put, remove] using hType
    · simpa [requeueWrite, put, remove] using hUse
  · exact h.count_setType hd (by simp)

theorem upgraded {r : QueuedLock × Outcome} (hUse : use d = .held)
    (hType : s.type d = .unlock ∨ .readNoInsert < s.type d) (hUpgraded : Model.Upgraded s d r) :
    Settled r.1 (update use d (.after r.2)) := by
  have hSame : update use d .held = use := by
    rw [← hUse, update_eq_self]
  have hLt (hLocked : s.type d ≠ .unlock) : .readNoInsert < s.type d := hType.resolve_left hLocked
  have hWrite : .readNoInsert < (s.setType d .write).type d := by
    simp only [Lock.setType_type, if_true]
    decide
  cases hUpgraded with
  | aborted hUnlock =>
    have hOff (n : ListName) : d ∉ s.queues n := fun hn => (h.entry hn).type_ne_unlock hUnlock
    exact of_local (fun e _ => h.place e) (fun _ _ _ => Iff.rfl) (fun _ _ => rfl)
      (fun _ _ => rfl) h.separate (.idle hOff) h.count
  | already =>
    rw [Use.after, hSame]
    exact h
  | alone hLocked hCond =>
    rw [Use.after, hSame]
    exact h.setType (h.mem_write (by simp [hUse]) (hLt hLocked) hCond)
      ⟨by simp [hUse], hWrite, hCond⟩ (by simp)
  | requeued hLocked hCond =>
    exact h.requeue (h.mem_write (by simp [hUse]) (hLt hLocked) hCond) (by decide) (.inl rfl)
  | waits hLocked hCond =>
    have hd : d ∈ s.queues .writeWait := by
      have hHeld := h.mem_heldIn hUse hLocked
      have hEntry := h.entry hHeld
      generalize heldIn s d = n at hHeld hEntry
      cases n with
      | read => simp [Entry, hCond] at hEntry
      | write => simp [Entry, hCond] at hEntry
      | readWait => simp [Entry, hUse] at hEntry
      | writeWait => exact hHeld
    exact of_local (fun e _ => h.place e) (fun _ _ _ => Iff.rfl) (fun e he => by simp [he])
      (fun _ _ => rfl) h.separate (.listed .writeWait hd ⟨hWrite, hCond, .inl rfl⟩)
      (h.count_setType hd (by simp))

theorem thrRescheduleWriteLock (hUse : use d = .held) (hd : d ∈ s.queues .write) :
    Settled (thrRescheduleWriteLock s d) use := by
  unfold Model.thrRescheduleWriteLock
  split_ifs
  · exact h
  · have hSame : update use d .held = use := by
      rw [← hUse, update_eq_self]
    have hRequeued := h.requeue (t := .writeDelayed) (u := .held) hd (by decide) (.inr ⟨rfl, rfl⟩)
    rw [hSame] at hRequeued
    exact hRequeued.freeAllReadLocks false

theorem dataInit (hBound : ∀ n, ∀ d ∈ s.queues n, d < s.instances) :
    Settled (thrLockDataInit s) use := by
  have hFresh (n : ListName) : s.instances ∉ s.queues n := fun hn => absurd (hBound n _ hn) (by simp)
  refine ⟨h.separate, fun e => ?_, ?_⟩
  · rcases eq_or_ne e s.instances with rfl | he
    · exact .aborted hFresh (by simp [thrLockDataInit]) (by simp [thrLockDataInit])
    · exact (h.place e).congr (fun _ => Iff.rfl) (by simp [thrLockDataInit, he])
        (by simp [thrLockDataInit, he])
  · exact h.count.trans (countP_setType (hFresh .read)).symm

theorem wake (hUse : use d = .waiting n) (hCond : s.cond d = false) :
    Settled s (update use d (if s.type d = .unlock then .idle else .held)) := by
  refine of_local (fun e _ => h.place e) (fun _ _ _ => Iff.rfl) (fun _ _ => rfl) (fun _ _ => rfl)
    h.separate ?_ h.count
  have hPlace := h.place d
  rw [hUse] at hPlace
  cases hPlace with
  | aborted hOff hType =>
    rw [if_pos hType]
    exact .idle hOff
  | listed m hIn hEntry =>
    rw [if_neg hEntry.type_ne_unlock]
    refine .listed m hIn ?_
    cases m with
    | read => exact ⟨by simp, hEntry.2⟩
    | write => exact ⟨by simp, hEntry.2⟩
    | readWait => simp [Entry, hCond] at hEntry
    | writeWait => simp [Entry, hCond] at hEntry

end

/-- Every call keeps every instance in its place. -/
theorem moves {env : Env} {s s' : QueuedSession} {call : Call} (h : Settled s.lock s.use)
    (hBound : ∀ n, ∀ d ∈ s.lock.queues n, d < s.lock.instances)
    (hMoves : Model.Moves env s call s') : Settled s'.lock s'.use := by
  cases hMoves with
  | dataInit => exact h.dataInit hBound
  | lock hUse hType hDecidedType hDecided =>
    exact (h.request hUse (hDecidedType.ne_unlock hType)).decided hDecided
  | wake hUse hCond => exact h.wake hUse hCond
  | @waitFails d n hUse hCond =>
    have hd := h.mem_of_waiting hUse hCond
    refine h.waitFailed hd ?_
    rintro rfl
    have hEntry := h.entry hd
    simp [Entry, hCond] at hEntry
  | unlockAborted hUse hType => exact h.upgraded hUse (.inl hType) (.aborted hType)
  | unlock hUse hType hGiven => exact (h.release hUse hType).given hGiven
  | abortLocks => exact h.thrAbortLocks
  | abortLocksForThread => exact (h.abort _ (by simp)).abort _ (by simp)
  | upgrade hUse hType hUpgraded => exact h.upgraded hUse hType hUpgraded
  | reschedule hUse hType hCond =>
    exact h.thrRescheduleWriteLock hUse (h.mem_write (by simp [hUse]) hType hCond)

end Settled
end MySQL.ThrLock
