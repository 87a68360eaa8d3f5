import MySQL.Mysys.ThrLock.Exclusion
import MySQL.Mysys.ThrLock.MultiLock

/-! The running locks of one table when each owner requests its strongest lock
first. The first running writer is then the strongest, so the tests on it
miss only `TL_READ_NO_INSERT` beside `TL_WRITE_ALLOW_WRITE`. -/
namespace MySQL.ThrLock
open List Library Model Nat

/-- How much a lock excludes. All types from `TL_WRITE_LOW_PRIORITY` on
exclude the same. -/
def LockType.strength (t : LockType) : Nat :=
  min t.value 9

structure Granted (env : Env) (asked got : LockType) : Prop where
  same : got = asked ∨
    (asked = .writeConcurrentInsert ∧ (got = .writeLowPriority ∨ got = .write))
  insert : got = .writeConcurrentInsert → env.hasCheckStatus = true

namespace Granted
variable {env : Env} {asked got : LockType}

theorem requestable (h : Granted env asked got) (hAsked : Requestable asked) : Requestable got := by
  rcases h.same with rfl | ⟨-, rfl | rfl⟩
  · exact hAsked
  · decide
  · decide

theorem le (h : Granted env asked got) : asked ≤ got := by
  rcases h.same with rfl | ⟨rfl, rfl | rfl⟩
  · exact Nat.le_refl _
  · decide
  · decide

/-- Reads and the weakest write type are granted as asked for. -/
theorem eq_of_le (h : Granted env asked got) (hLe : got ≤ .writeAllowRead) : got = asked := by
  rcases h.same with rfl | ⟨-, rfl | rfl⟩
  · rfl
  · exact absurd hLe (by decide)
  · exact absurd hLe (by decide)

theorem of_decidedType {s : QueuedLock} (h : Model.DecidedType env s asked got) :
    Granted env asked got := by
  have hUpgraded : env.upgradedConcurrentInsertLock = .writeLowPriority ∨
      env.upgradedConcurrentInsertLock = .write := by
    unfold Env.upgradedConcurrentInsertLock
    split
    · exact .inl rfl
    · exact .inr rfl
  have hInsert : env.upgradedConcurrentInsertLock ≠ .writeConcurrentInsert := by
    rcases hUpgraded with hEq | hEq <;> simp [hEq]
  rcases h with rfl | ⟨rfl, -, rfl⟩
  · unfold Env.requestedType
    split_ifs with hNone
    · exact ⟨.inr ⟨hNone.1, hUpgraded⟩, fun hEq => absurd hEq hInsert⟩
    · refine ⟨.inl rfl, fun hEq => ?_⟩
      simpa [hEq] using hNone
  · exact ⟨.inr ⟨rfl, hUpgraded⟩, fun hEq => absurd hEq hInsert⟩

theorem retype {got' : LockType} (h : Granted env asked got)
    (hNew : got' = got ∨ (got = .writeConcurrentInsert ∧ got' = .write)) :
    Granted env asked got' := by
  rcases hNew with rfl | ⟨hGot, rfl⟩
  · exact h
  · refine ⟨.inr ⟨?_, .inr rfl⟩, fun hEq => by cases hEq⟩
    rcases h.same with hSame | ⟨-, hSame | hSame⟩
    · exact hSame.symm.trans hGot
    · rw [hSame] at hGot
      cases hGot
    · rw [hSame] at hGot
      cases hGot

/-- A later request of the same owner for the same table is no stronger. -/
theorem strength_le {later : LockType} (h : Granted env asked got) (hAsked : Requestable asked)
    (hLater : later ≤ asked) : (env.requestedType later).strength ≤ got.strength := by
  have hLe := LockType.le_iff.mp (h.le)
  have hLater' := LockType.le_iff.mp hLater
  unfold Env.requestedType
  split_ifs with hNone
  · have hGot : 9 ≤ got.value := by
      have hNot : got ≠ .writeConcurrentInsert := fun hEq => hNone.2 (h.insert hEq)
      have hDelayed := (h.requestable hAsked).2.1
      rw [hNone.1] at hLater'
      have hValue : 7 ≤ got.value := hLater'.trans hLe
      revert hNot hDelayed hValue
      cases got <;> simp [LockType.value]
    exact (min_le_right ..).trans (Nat.le_min.mpr ⟨hGot, le_refl 9⟩)
  · exact Nat.le_min.mpr ⟨(min_le_left ..).trans (hLater'.trans hLe), min_le_right ..⟩

end Granted

/-- The running locks of different owners, where owners ask for strong locks first. -/
structure Shared (s : QueuedLock) : Prop where
  writers : ∀ d ∈ s.queues .write, ∀ e ∈ s.queues .write, s.owner d ≠ s.owner e →
    s.type d = .writeAllowWrite ∧ s.type e = .writeAllowWrite
  readers : ∀ d ∈ s.queues .write, ∀ e ∈ s.queues .read, s.owner d ≠ s.owner e →
    s.type d ≤ .writeDelayed ∧ ¬ (s.type d = .writeConcurrentInsert ∧ s.type e = .readNoInsert)
  strongest : (s.queues .write).Pairwise fun d e =>
    s.owner d = s.owner e → (s.type e).strength ≤ (s.type d).strength

namespace Shared
variable {env : Env} {s s' : QueuedLock} {use : DataId → Use} {d e w : DataId}

theorem of_no_writer (h : s.queues .write = []) : Shared s :=
  ⟨by simp [h], by simp [h], by simp [h]⟩

section
variable (h : Shared s) (hWrite : (s'.queues .write).Sublist (s.queues .write))
  (hRead : s'.queues .read ⊆ s.queues .read)
include h hWrite hRead

theorem mono (hType : ∀ e, e ∈ s'.queues .write ∨ e ∈ s'.queues .read → s'.type e = s.type e)
    (hOwner : ∀ e, e ∈ s'.queues .write ∨ e ∈ s'.queues .read → s'.owner e = s.owner e) :
    Shared s' := by
  refine ⟨fun x hx y hy => ?_, fun x hx y hy => ?_, ?_⟩
  · rw [hType x (.inl hx), hType y (.inl hy), hOwner x (.inl hx), hOwner y (.inl hy)]
    exact h.writers x (hWrite.subset hx) y (hWrite.subset hy)
  · rw [hType x (.inl hx), hType y (.inr hy), hOwner x (.inl hx), hOwner y (.inr hy)]
    exact h.readers x (hWrite.subset hx) y (hRead hy)
  · refine (h.strongest.sublist hWrite).imp_of_mem fun {x y} hx hy hOrder => ?_
    rw [hType x (.inl hx), hType y (.inl hy), hOwner x (.inl hx), hOwner y (.inl hy)]
    exact hOrder

/-- The fields of one instance change, which runs neither before nor after. -/
theorem frame (hOff : d ∉ s'.queues .write ∧ d ∉ s'.queues .read)
    (hType : ∀ e ≠ d, s'.type e = s.type e) (hOwner : ∀ e ≠ d, s'.owner e = s.owner e) :
    Shared s' := by
  have hNe (e : DataId) (he : e ∈ s'.queues .write ∨ e ∈ s'.queues .read) : e ≠ d := by
    rintro rfl
    exact he.elim hOff.1 hOff.2
  exact h.mono hWrite hRead (fun e he => hType e (hNe e he)) (fun e he => hOwner e (hNe e he))

end

theorem of_exclusive (h : Exclusive s) (hTypes : ∀ x ∈ s.queues .write, s.type x ≠ .writeOnly)
    (hSame : ∀ x ∈ s.queues .write, ∀ y ∈ s.queues .write, s.type x = s.type y) : Shared s where
  writers := h.writers
  readers x hx y hy hNe := by
    obtain ⟨hLow, hInsert⟩ := h.readers x hx y hy hNe
    refine ⟨not_not.mp fun hHigh => hLow ⟨LockType.not_le.mp hHigh, hTypes x hx⟩,
      fun hBoth => hInsert ⟨?_, hBoth.2⟩⟩
    simp [LockType.allowsInsert, hBoth.1]
  strongest := pairwise_of_forall_mem_list fun x hx y hy _ => by
    rw [hSame x hx y hy]

section
variable (h : Shared s)
include h

/-- The first running writer is the strongest. -/
theorem strength_le_first (hFirst : first s .write = some w) (he : e ∈ s.queues .write) :
    (s.type e).strength ≤ (s.type w).strength := by
  obtain ⟨rest, hWrite⟩ := first_eq_some_iff.mp hFirst
  have hStrongest := h.strongest
  have hWriters := h.writers w (by simp [hWrite]) e he
  rw [hWrite] at hStrongest he
  rcases mem_cons.mp he with rfl | he
  · exact le_refl _
  · by_cases hOwner : s.owner w = s.owner e
    · exact rel_of_pairwise_cons hStrongest he hOwner
    · obtain ⟨hw, he⟩ := hWriters hOwner
      rw [hw, he]

theorem grantRead (hNew : ∀ w ∈ s.queues .write, s.owner w ≠ s.owner d →
      s.type w ≤ .writeDelayed ∧ ¬ (s.type w = .writeConcurrentInsert ∧
        s.type d = .readNoInsert)) : Shared (grantRead s d (s.type d)) := by
  have hRead : (Model.grantRead s d (s.type d)).queues .read = s.queues .read ++ [d] :=
    append_self (s := s) (n := .read)
  refine ⟨h.writers, fun x hx y hy => ?_, h.strongest⟩
  rw [hRead, mem_append, mem_singleton] at hy
  rcases hy with hy | rfl
  · exact h.readers x hx y hy
  · exact hNew x hx

theorem grantWrite (hWriters : ∀ e ∈ s.queues .write, s.owner e ≠ s.owner d →
      s.type e = .writeAllowWrite ∧ s.type d = .writeAllowWrite)
    (hReaders : ∀ e ∈ s.queues .read, s.owner e ≠ s.owner d →
      s.type d ≤ .writeDelayed ∧ ¬ (s.type d = .writeConcurrentInsert ∧ s.type e = .readNoInsert))
    (hStrongest : ∀ e ∈ s.queues .write, s.owner e = s.owner d →
      (s.type d).strength ≤ (s.type e).strength) : Shared (append s .write d) := by
  have hWrite : (append s .write d).queues .write = s.queues .write ++ [d] :=
    append_self
  refine ⟨fun x hx y hy => ?_, fun x hx y hy => ?_, ?_⟩
  · rw [hWrite, mem_append, mem_singleton] at hx hy
    rcases hx with hx | rfl <;> rcases hy with hy | rfl
    · exact h.writers x hx y hy
    · exact hWriters x hx
    · exact fun hNe => (hWriters y hy hNe.symm).symm
    · exact fun hNe => absurd rfl hNe
  · rw [hWrite, mem_append, mem_singleton] at hx
    rcases hx with hx | rfl
    · exact h.readers x hx y hy
    · exact fun hNe => hReaders y hy hNe.symm
  · rw [hWrite, pairwise_append]
    refine ⟨h.strongest, pairwise_singleton _ d, fun x hx y hy => ?_⟩
    rw [mem_singleton.mp hy]
    exact hStrongest x hx

/-- A reader that passes the first writer conflicts with none behind it. -/
theorem readers_of_passes (hFirst : first s .write = some w)
    (hTypes : ∀ x ∈ s.queues .write, Requestable (s.type x))
    (hPasses : readerPasses s w (s.owner d) (s.type d)) (he : e ∈ s.queues .write)
    (hNe : s.owner e ≠ s.owner d) : s.type e ≤ .writeDelayed ∧
      ¬ (s.type e = .writeConcurrentInsert ∧ s.type d = .readNoInsert) := by
  have hw : w ∈ s.queues .write := mem_of_head? hFirst
  have hStrength := h.strength_le_first hFirst he
  rcases hPasses with hOwn | ⟨hLow, hType⟩
  · obtain ⟨hAllow, -⟩ := h.writers e he w hw (hOwn ▸ hNe)
    rw [hAllow]
    exact ⟨by decide, fun hBoth => by cases hBoth.1⟩
  · have hDelayed := (hTypes w hw).2.1
    refine ⟨?_, fun ⟨hInsert, hNoInsert⟩ => ?_⟩
    · revert hStrength hLow
      generalize s.type e = t
      cases s.type w <;> cases t <;> decide
    · rw [hNoInsert] at hType
      rw [hInsert] at hStrength
      revert hStrength hLow hType hDelayed
      cases s.type w <;> decide

/-- A writer that is no stronger than those its owner runs conflicts with no
reader they run beside. -/
theorem readers_of_joins (hw : w ∈ s.queues .write) (hOwn : s.owner d = s.owner w)
    (hType : Requestable (s.type w)) (hStrength : (s.type d).strength ≤ (s.type w).strength)
    (he : e ∈ s.queues .read) (hNe : s.owner e ≠ s.owner d) : s.type d ≤ .writeDelayed ∧
      ¬ (s.type d = .writeConcurrentInsert ∧ s.type e = .readNoInsert) := by
  obtain ⟨hLow, hInsert⟩ := h.readers w hw e he fun hEq => hNe (hEq.symm.trans hOwn.symm)
  refine ⟨?_, fun hBoth => ?_⟩
  · revert hStrength hLow
    generalize s.type d = t
    cases s.type w <;> cases t <;> decide
  · rw [hBoth.1] at hStrength
    rw [hBoth.2] at hInsert
    revert hStrength hLow hInsert hType
    cases s.type w <;> decide

theorem decided {r : QueuedLock × Outcome} (hPending : Pending s use d)
    (hType : s.type d ≠ .writeDelayed)
    (hTypes : ∀ x ∈ s.queues .write, .readNoInsert < s.type x ∧ Requestable (s.type x))
    (hOwn : ∀ x ∈ s.queues .write, s.owner x = s.owner d →
      (s.type d).strength ≤ (s.type x).strength)
    (hDecided : Model.Decided env s d r) : Shared r.1 := by
  have hRequestable x (hx : x ∈ s.queues .write) := (hTypes x hx).2
  have hSame {s' : QueuedLock} (hWrite : s'.queues .write = s.queues .write)
      (hRead : s'.queues .read = s.queues .read) (hType : ∀ e ≠ d, s'.type e = s.type e)
      (hOwner : s'.owner = s.owner) : Shared s' :=
    h.frame (hWrite ▸ Sublist.refl _) (hRead ▸ Subset.refl _)
      ⟨hWrite ▸ hPending.fresh _, hRead ▸ hPending.fresh _⟩ hType
      fun e _ => congrFun hOwner e
  cases hDecided with
  | aborted => exact hSame rfl rfl (fun e he => by simp [he]) rfl
  | deadlock => exact h
  | readBeside _ hFirst hPasses =>
    exact h.grantRead fun x hx => h.readers_of_passes hFirst hRequestable hPasses hx
  | readAlone _ hWrite => exact h.grantRead (by simp [hWrite])
  | readWaits => exact hSame rfl rfl (fun _ _ => rfl) rfl
  | @writeBeside w hWriter hFirst _ hJoins =>
    have hw : w ∈ s.queues .write := mem_of_head? hFirst
    rcases hJoins with hOwner | ⟨hAllow, -, hFirstAllow⟩
    · have hStrength := hOwn w hw hOwner.symm
      refine h.grantWrite (fun x hx hNe => ?_)
        (fun e => h.readers_of_joins hw hOwner (hRequestable w hw) hStrength) hOwn
      obtain ⟨hx, hwAllow⟩ := h.writers x hx w hw (hOwner ▸ hNe)
      refine ⟨hx, ?_⟩
      rw [hwAllow] at hStrength
      revert hStrength hWriter
      cases s.type d <;> decide
    · have hAll x (hx : x ∈ s.queues .write) : s.type x = .writeAllowWrite := by
        have hStrength := h.strength_le_first hFirst hx
        have hx := (hTypes x hx).1
        rw [hFirstAllow] at hStrength
        revert hStrength hx
        cases s.type x <;> decide
      refine h.grantWrite (fun x hx _ => ⟨hAll x hx, hAllow⟩) (fun e _ _ => ?_) hOwn
      rw [hAllow]
      exact ⟨by decide, fun hBoth => by cases hBoth.1⟩
  | writeAlone _ hWrite _ hRead =>
    apply h.grantWrite (by simp [hWrite]) _ (by simp [hWrite])
    intro e he _
    rcases hRead with hNone | hStarts
    · simp [hNone] at he
    · have hInsert := (Exclusive.compatible_of_starts hPending.count hStarts he).2
      refine ⟨hStarts.1, fun hBoth => hInsert ⟨?_, hBoth.2⟩⟩
      simp [LockType.allowsInsert, hBoth.1]
  | writeWaits => exact hSame rfl rfl (fun _ _ => rfl) rfl
  | delayed hDelayed => exact absurd hDelayed hType

theorem given (hSettled : Settled s use) (hGiven : Model.Given s s')
    (hTypes : ∀ x ∈ s'.queues .write, s'.type x ≠ .writeOnly) : Shared s' := by
  rcases Exclusive.of_given hSettled hGiven with rfl | ⟨hNew, hSame⟩
  · exact h
  · exact of_exclusive hNew hTypes hSame

end

end Shared

/-- A further request of an owner is put to sleep although the owner runs a
lock of the same type: behind waiting writers because the first writer is
another owner's `TL_WRITE_ALLOW_WRITE`, or because of another owner's
`TL_WRITE_ALLOW_READ`. -/
def SelfBlocks (s : QueuedLock) (owner : Owner) (t : LockType) : Prop :=
  ∃ w ∈ first s .write, s.owner w ≠ owner ∧
    ((t = .writeAllowWrite ∧ s.type w = .writeAllowWrite ∧ s.queues .writeWait ≠ [] ∧
        ∃ e ∈ s.queues .write, s.owner e = owner) ∨
      (t = .readNoInsert ∧ s.type w = .writeAllowRead ∧
        ∃ e ∈ s.queues .read, s.owner e = owner ∧ s.type e = .readNoInsert))

namespace Shared
variable {env : Env} {s : QueuedLock} {d e : DataId} {asked before : LockType}

section
variable (h : Shared s) (hReads : ∀ x ∈ s.queues .read, s.type x ≤ .readNoInsert)
  (hRuns : e ∈ s.queues .read ∨ e ∈ s.queues .write) (hOwner : s.owner e = s.owner d)
  (hBefore : Granted env before (s.type e)) (hAsked : Granted env asked (s.type d))
  (hLe : asked ≤ before)
include h hReads hRuns hOwner hBefore hAsked hLe

/-- A writer whose owner runs a lock already waits only in the case above. -/
theorem selfBlocks_of_writerBlocked (hType : .readNoInsert < s.type d)
    (hBlocked : writerBlocked s (s.owner d) (s.type d)) :
    SelfBlocks s (s.owner d) (s.type d) := by
  have hWriter : .readNoInsert < asked := by
    rcases hAsked.same with hSame | ⟨rfl, -⟩
    · rwa [← hSame]
    · decide
  have hStrong : .readNoInsert < s.type e :=
    lt_of_lt_of_le hWriter (Nat.le_trans hLe hBefore.le)
  have he : e ∈ s.queues .write :=
    hRuns.resolve_left fun hRead => LockType.not_le.mpr hStrong (hReads e hRead)
  rcases hBlocked with ⟨w, hFirst, hJoins⟩ | ⟨hNone, -⟩
  · have hw : w ∈ s.queues .write := mem_of_head? hFirst
    have hNe : s.owner w ≠ s.owner d := fun hEq => hJoins (.inl hEq.symm)
    obtain ⟨hwType, heType⟩ := h.writers w hw e he (hOwner.symm ▸ hNe)
    have hBeforeType : before = .writeAllowWrite :=
      (hBefore.eq_of_le (by rw [heType]; decide)).symm.trans heType
    have hAskedType : asked = .writeAllowWrite := by
      rw [hBeforeType] at hLe
      revert hLe hWriter
      cases asked <;> decide
    have hdType : s.type d = .writeAllowWrite := by
      rcases hAsked.same with hSame | ⟨hSame, -⟩
      · exact hSame.trans hAskedType
      · rw [hAskedType] at hSame
        cases hSame
    exact ⟨w, hFirst, hNe, .inl ⟨hdType, hwType,
      fun hNone => hJoins (.inr ⟨hdType, hNone, hwType⟩), e, he, hOwner⟩⟩
  · simp [hNone] at he

/-- A reader whose owner runs a lock already waits only in the case above. -/
theorem selfBlocks_of_readerBlocked (hType : s.type d ≤ .readNoInsert)
    (hBlocked : readerBlocked s (s.owner d) (s.type d)) :
    SelfBlocks s (s.owner d) (s.type d) := by
  rcases hBlocked with ⟨w, hFirst, hPasses⟩ | ⟨hNone, hOvertakes⟩
  · have hw : w ∈ s.queues .write := mem_of_head? hFirst
    have hNe : s.owner w ≠ s.owner d := fun hEq => hPasses (.inl hEq.symm)
    rcases hRuns with he | he
    · obtain ⟨hLow, hInsert⟩ := h.readers w hw e he (hOwner.symm ▸ hNe)
      have hTest := (not_and_or.mp (not_or.mp hPasses).2).resolve_left (not_not.mpr hLow)
      obtain ⟨hHigh, hOther⟩ := not_or.mp hTest
      have hdType : s.type d = .readNoInsert := by
        revert hHigh hType
        cases s.type d <;> decide
      have heType : s.type e = .readNoInsert := by
        have hReader := hReads e he
        have hSame := hBefore.eq_of_le (Nat.le_trans hReader (by decide))
        have hAskedType : asked = .readNoInsert :=
          (hAsked.eq_of_le (by rw [hdType]; decide)).symm.trans hdType
        rw [hAskedType, ← hSame] at hLe
        exact LockType.value_injective (le_antisymm hReader hLe)
      refine ⟨w, hFirst, hNe, .inr ⟨hdType, ?_, e, he, hOwner, heType⟩⟩
      by_contra hwType
      exact hOther ⟨fun hEq => hInsert ⟨hEq, heType⟩, hwType⟩
    · obtain ⟨hwType, -⟩ := h.writers w hw e he (hOwner.symm ▸ hNe)
      refine absurd (.inr ⟨?_, .inr ?_⟩) hPasses
      · rw [hwType]
        decide
      · rw [hwType]
        decide
  · rcases hRuns with he | he
    · exact absurd (.inr (.inr ⟨e, he, hOwner⟩)) hOvertakes
    · simp [hNone] at he

end

end Shared
end MySQL.ThrLock
