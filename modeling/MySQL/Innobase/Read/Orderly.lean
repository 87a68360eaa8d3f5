import MySQL.Innobase.Read.View

/-! The list of transactions in every state of a run: it is sorted, and a transaction that
is not committed in memory is on it. -/
namespace MySQL.Innobase.Read

open Function List Library

inductive Phase where
  | off
  | live
  | done
  deriving DecidableEq

def Trx.phase (trx : Trx) : Phase :=
  match trx.concState with
  | .notStarted => .off
  | .active | .prepared => .live
  | .committedInMemory => .done

theorem phase_eq_live {trx : Trx} :
    trx.phase = .live ↔ trx.concState = .active ∨ trx.concState = .prepared := by
  rw [Trx.phase]
  cases trx.concState <;> simp

theorem phase_eq_off {trx : Trx} : trx.phase = .off ↔ trx.concState = .notStarted := by
  rw [Trx.phase]
  cases trx.concState <;> simp

theorem phase_eq_done {trx : Trx} : trx.phase = .done ↔ trx.concState = .committedInMemory := by
  rw [Trx.phase]
  cases trx.concState <;> simp

theorem isActiveFor_iff {sys : TrxSys} {crTrx : Option Nat} {p : Nat} :
    sys.isActiveFor crTrx p = true ↔ some p ≠ crTrx ∧ (sys.trx p).phase = .live := by
  rw [TrxSys.isActiveFor, decide_eq_true_iff, phase_eq_live]

structure Orderly (s : State) : Prop where
  sorted : s.sys.trxList.Pairwise (fun p q => (s.sys.trx q).id < (s.sys.trx p).id)
  lt : ∀ p ∈ s.sys.trxList, (s.sys.trx p).id < s.sys.maxTrxId
  listed : ∀ p, p ∈ s.sys.trxList ↔ (s.sys.trx p).type = .user ∧ (s.sys.trx p).phase ≠ .off
  started_lt : ∀ t ∈ s.started, t < s.sys.maxTrxId
  committed_started : ∀ t ∈ s.committed, t ∈ s.started
  live : ∀ p ∈ s.sys.trxList, (s.sys.trx p).phase = .live →
    (s.sys.trx p).id ∈ s.started ∧ (s.sys.trx p).id ∉ s.committed
  on_list : ∀ t ∈ s.started, t ∉ s.committed →
    ∃ p ∈ s.sys.trxList, (s.sys.trx p).id = t ∧ (s.sys.trx p).phase = .live

structure SameTrx (sys sys' : TrxSys) : Prop where
  trxList : sys'.trxList = sys.trxList
  maxTrxId : sys.maxTrxId ≤ sys'.maxTrxId
  type : ∀ p, (sys'.trx p).type = (sys.trx p).type
  id : ∀ p, (sys.trx p).type = .user → (sys'.trx p).id = (sys.trx p).id
  phase : ∀ p, (sys.trx p).type = .user → (sys'.trx p).phase = (sys.trx p).phase

namespace SameTrx
variable {sys sys' : TrxSys}

/-- One transaction is replaced. -/
theorem set {p : Nat} {trx : Trx} (hTrx : sys'.trx = update sys.trx p trx)
    (hList : sys'.trxList = sys.trxList) (hMax : sys.maxTrxId ≤ sys'.maxTrxId)
    (hType : trx.type = (sys.trx p).type)
    (hUser : (sys.trx p).type = .user → trx.id = (sys.trx p).id ∧ trx.phase = (sys.trx p).phase) :
    SameTrx sys sys' := by
  refine ⟨hList, hMax, fun q => ?_, fun q hq => ?_, fun q hq => ?_⟩ <;> rw [hTrx] <;>
  · rcases eq_or_ne q p with rfl | hNe
    · simp_all
    · rw [update_of_ne hNe]

/-- Fields of one transaction change that views do not look at. -/
theorem setFields {p : Nat} {trx : Trx} (hTrx : sys'.trx = update sys.trx p trx)
    (hList : sys'.trxList = sys.trxList) (hMax : sys.maxTrxId ≤ sys'.maxTrxId)
    (hType : trx.type = (sys.trx p).type) (hId : trx.id = (sys.trx p).id)
    (hState : trx.concState = (sys.trx p).concState) : SameTrx sys sys' :=
  set hTrx hList hMax hType fun _ => ⟨hId, by rw [Trx.phase, hState]; rfl⟩

theorem of_trx (hTrx : sys'.trx = sys.trx) (hList : sys'.trxList = sys.trxList)
    (hMax : sys'.maxTrxId = sys.maxTrxId) : SameTrx sys sys' :=
  ⟨hList, hMax.ge, fun _ => by rw [hTrx], fun _ _ => by rw [hTrx], fun _ _ => by rw [hTrx]⟩

theorem trxAssignReadView (sys : TrxSys) (p : Nat) : SameTrx sys (trxAssignReadView sys p) := by
  rw [Read.trxAssignReadView]
  split
  · exact .of_trx rfl rfl rfl
  · exact .setFields rfl rfl le_rfl rfl rfl rfl

theorem trxCommitNumber (sys : TrxSys) (p : Nat) : SameTrx sys (trxCommitNumber sys p) := by
  rw [Read.trxCommitNumber]
  split
  · exact .setFields rfl rfl (Nat.le_succ _) rfl rfl rfl
  · exact .setFields rfl rfl le_rfl rfl rfl rfl

end SameTrx

theorem closePurgeView_same (sys : TrxSys) : (closePurgeView sys).trx = sys.trx ∧
    (closePurgeView sys).trxList = sys.trxList ∧ (closePurgeView sys).maxTrxId = sys.maxTrxId := by
  rw [closePurgeView]
  split <;> exact ⟨rfl, rfl, rfl⟩

theorem openPurgeView_same (sys : TrxSys) : (openPurgeView sys).trx = sys.trx ∧
    (openPurgeView sys).trxList = sys.trxList ∧ (openPurgeView sys).maxTrxId = sys.maxTrxId := by
  rw [openPurgeView, readViewOldestCopyOrOpenNew]
  cases sys.viewList.getLast? <;> exact ⟨rfl, rfl, rfl⟩

theorem purge_same (sys : TrxSys) : (openPurgeView (closePurgeView sys)).trx = sys.trx ∧
    (openPurgeView (closePurgeView sys)).trxList = sys.trxList ∧
    (openPurgeView (closePurgeView sys)).maxTrxId = sys.maxTrxId := by
  obtain ⟨hTrx, hList, hMax⟩ := closePurgeView_same sys
  obtain ⟨hTrx', hList', hMax'⟩ := openPurgeView_same _
  exact ⟨hTrx'.trans hTrx, hList'.trans hList, hMax'.trans hMax⟩

namespace Orderly
variable {s : State}

section
variable (h : Orderly s)
include h

/-- The ids on the list are different. -/
theorem eq_of_id {p q : Nat} (hp : p ∈ s.sys.trxList) (hq : q ∈ s.sys.trxList)
    (hId : (s.sys.trx p).id = (s.sys.trx q).id) : p = q := by
  have hNodup : (s.sys.trxList.map fun p => (s.sys.trx p).id).Nodup :=
    pairwise_map.mpr (h.sorted.imp fun hLt => Nat.ne_of_gt hLt)
  exact inj_on_of_nodup_map hNodup hp hq hId

theorem nodup : s.sys.trxList.Nodup :=
  h.sorted.imp fun hLt hEq => absurd hLt (by rw [hEq]; exact lt_irrefl _)

theorem same {s' : State} (hSame : SameTrx s.sys s'.sys) (hStarted : s'.started = s.started)
    (hCommitted : s'.committed = s.committed) : Orderly s' := by
  have hUser (p : Nat) (hp : p ∈ s.sys.trxList) : (s.sys.trx p).type = .user := ((h.listed p).mp hp).1
  refine ⟨?_, fun p hp => ?_, fun p => ?_, fun t ht => ?_, ?_, fun p hp hLive => ?_, fun t ht hNot => ?_⟩
  · rw [hSame.trxList]
    refine h.sorted.imp_of_mem fun {p q} hp hq hLt => ?_
    rwa [hSame.id p (hUser p hp), hSame.id q (hUser q hq)]
  · rw [hSame.trxList] at hp
    rw [hSame.id p (hUser p hp)]
    exact lt_of_lt_of_le (h.lt p hp) hSame.maxTrxId
  · rw [hSame.trxList, hSame.type, h.listed p]
    exact and_congr_right fun hUser => by rw [hSame.phase p hUser]
  · rw [hStarted] at ht
    exact lt_of_lt_of_le (h.started_lt t ht) hSame.maxTrxId
  · rw [hStarted, hCommitted]
    exact h.committed_started
  · rw [hSame.trxList] at hp
    rw [hSame.phase p (hUser p hp)] at hLive
    rw [hSame.id p (hUser p hp), hStarted, hCommitted]
    exact h.live p hp hLive
  · rw [hStarted] at ht
    rw [hCommitted] at hNot
    obtain ⟨p, hp, hId, hLive⟩ := h.on_list t ht hNot
    rw [hSame.trxList]
    exact ⟨p, hp, (hSame.id p (hUser p hp)).trans hId, (hSame.phase p (hUser p hp)).trans hLive⟩

/-- A transaction gets the next id and goes to the front of the list. -/
theorem start {p : Nat} (hUser : (s.sys.trx p).type = .user) (hOff : (s.sys.trx p).phase = .off) :
    Orderly { s with sys := trxStartLow s.sys p, started := s.sys.maxTrxId :: s.started } := by
  have hNot : p ∉ s.sys.trxList := fun hMem => ((h.listed p).mp hMem).2 hOff
  have hSys : trxStartLow s.sys p = { s.sys with
      trx := update s.sys.trx p
        { s.sys.trx p with id := s.sys.maxTrxId, no := ⊤, concState := .active }
      trxList := p :: s.sys.trxList, maxTrxId := s.sys.maxTrxId + 1 } := by
    rw [trxStartLow, if_neg (by rw [hUser]; decide)]
    rfl
  have hOther (q : Nat) (hq : q ∈ s.sys.trxList) : q ≠ p := fun hEq => hNot (hEq ▸ hq)
  rw [hSys]
  refine ⟨?_, fun q hq => ?_, fun q => ?_, fun t ht => ?_, fun t ht => ?_, fun q hq hLive => ?_,
    fun t ht hNotDone => ?_⟩
  · refine pairwise_cons.mpr ⟨fun q hq => ?_, h.sorted.imp_of_mem fun {q r} hq hr hLt => ?_⟩
    · simp only [update_self, update_of_ne (hOther q hq)]
      exact h.lt q hq
    · simp only [update_of_ne (hOther q hq), update_of_ne (hOther r hr)]
      exact hLt
  · rcases mem_cons.mp hq with rfl | hq
    · simp only [update_self]
      exact Nat.lt_succ_self _
    · simp only [update_of_ne (hOther q hq)]
      exact Nat.lt_succ_of_lt (h.lt q hq)
  · rcases eq_or_ne q p with rfl | hNe
    · simp [hUser, Trx.phase]
    · simp only [update_of_ne hNe, mem_cons, hNe, false_or]
      exact h.listed q
  · rcases mem_cons.mp ht with rfl | ht
    · exact Nat.lt_succ_self _
    · exact Nat.lt_succ_of_lt (h.started_lt t ht)
  · exact mem_cons_of_mem _ (h.committed_started t ht)
  · rcases mem_cons.mp hq with rfl | hq
    · simp only [update_self]
      refine ⟨mem_cons_self, fun hMem => ?_⟩
      exact absurd (h.started_lt _ (h.committed_started _ hMem)) (lt_irrefl _)
    · simp only [update_of_ne (hOther q hq)] at hLive ⊢
      obtain ⟨hStarted, hNotDone⟩ := h.live q hq hLive
      exact ⟨mem_cons_of_mem _ hStarted, hNotDone⟩
  · rcases mem_cons.mp ht with rfl | ht
    · exact ⟨p, mem_cons_self, by simp, by simp [Trx.phase]⟩
    · obtain ⟨q, hq, hId, hLive⟩ := h.on_list t ht hNotDone
      refine ⟨q, mem_cons_of_mem _ hq, ?_⟩
      simp only [update_of_ne (hOther q hq)]
      exact ⟨hId, hLive⟩

/-- A live transaction is committed in memory. -/
theorem commitInMemory {p : Nat} (hp : p ∈ s.sys.trxList) (hLive : (s.sys.trx p).phase = .live) :
    Orderly { s with sys := trxCommitInMemory s.sys p, committed := s.addCommitted p } := by
  obtain ⟨hUser, -⟩ := (h.listed p).mp hp
  obtain ⟨hStarted, hNot⟩ := h.live p hp hLive
  obtain ⟨trx, hTrx, hId, hType, hDone⟩ : ∃ trx, (trxCommitInMemory s.sys p).trx =
      update s.sys.trx p trx ∧ trx.id = (s.sys.trx p).id ∧ trx.type = .user ∧ trx.phase = .done := by
    rw [trxCommitInMemory]
    cases (s.sys.trx p).globalReadView <;> exact ⟨_, rfl, rfl, hUser, rfl⟩
  obtain ⟨hList, hMax⟩ : (trxCommitInMemory s.sys p).trxList = s.sys.trxList ∧
      (trxCommitInMemory s.sys p).maxTrxId = s.sys.maxTrxId := by
    rw [trxCommitInMemory]
    cases (s.sys.trx p).globalReadView <;> exact ⟨rfl, rfl⟩
  have hSameId (q : Nat) : ((trxCommitInMemory s.sys p).trx q).id = (s.sys.trx q).id := by
    rw [hTrx]
    rcases eq_or_ne q p with rfl | hNe
    · rw [update_self, hId]
    · rw [update_of_ne hNe]
  have hOther {q : Nat} (hq : ((trxCommitInMemory s.sys p).trx q).phase = .live) : q ≠ p := by
    rintro rfl
    rw [hTrx, update_self, hDone] at hq
    exact absurd hq (by decide)
  refine ⟨?_, fun q hq => ?_, fun q => ?_, fun t ht => ?_, fun t ht => ?_, fun q hq hLiveQ => ?_,
    fun t ht hNotDone => ?_⟩
  · simp only [hList, hSameId]
    exact h.sorted
  · simp only [hList] at hq
    simp only [hSameId, hMax]
    exact h.lt q hq
  · simp only [hList, hTrx]
    rcases eq_or_ne q p with rfl | hNe
    · simp [hp, hType, hDone]
    · simp only [update_of_ne hNe]
      exact h.listed q
  · simp only [hMax]
    exact h.started_lt t ht
  · rcases mem_cons.mp ht with rfl | ht
    · exact hStarted
    · exact h.committed_started t ht
  · have hNe := hOther hLiveQ
    simp only [hList] at hq
    simp only [hTrx, update_of_ne hNe] at hLiveQ
    obtain ⟨hStartedQ, hNotQ⟩ := h.live q hq hLiveQ
    simp only [hSameId]
    refine ⟨hStartedQ, fun hMem => ?_⟩
    rcases mem_cons.mp hMem with hEq | hMem
    · exact hNe (h.eq_of_id hq hp hEq)
    · exact hNotQ hMem
  · rw [State.addCommitted, mem_cons, not_or] at hNotDone
    obtain ⟨q, hq, hIdQ, hLiveQ⟩ := h.on_list t ht hNotDone.2
    have hNe : q ≠ p := by
      rintro rfl
      exact hNotDone.1 hIdQ.symm
    simp only [hList, hTrx]
    refine ⟨q, hq, ?_⟩
    rw [update_of_ne hNe]
    exact ⟨hIdQ, hLiveQ⟩

/-- A transaction that is committed in memory goes off the list. -/
theorem finish {p : Nat} (hDone : (s.sys.trx p).phase = .done) :
    Orderly { s with sys := trxCommitFinish s.sys p } := by
  obtain ⟨trx, hTrx, hOff⟩ : ∃ trx, (trxCommitFinish s.sys p).trx = update s.sys.trx p trx ∧
      trx.phase = .off := ⟨_, rfl, rfl⟩
  have hList : (trxCommitFinish s.sys p).trxList = s.sys.trxList.erase p := rfl
  have hMax : (trxCommitFinish s.sys p).maxTrxId = s.sys.maxTrxId := rfl
  have hMem {q : Nat} (hq : q ∈ s.sys.trxList.erase p) : q ≠ p ∧ q ∈ s.sys.trxList :=
    (h.nodup.mem_erase_iff).mp hq
  refine ⟨?_, fun q hq => ?_, fun q => ?_, h.started_lt, h.committed_started, fun q hq hLive => ?_,
    fun t ht hNot => ?_⟩
  · simp only [hList, hTrx]
    refine (h.sorted.sublist erase_sublist).imp_of_mem fun {q r} hq hr hLt => ?_
    rwa [update_of_ne (hMem hq).1, update_of_ne (hMem hr).1]
  · simp only [hList] at hq
    simp only [hTrx, hMax, update_of_ne (hMem hq).1]
    exact h.lt q (hMem hq).2
  · simp only [hList, hTrx, h.nodup.mem_erase_iff]
    rcases eq_or_ne q p with rfl | hNe
    · simp [hOff]
    · simp only [update_of_ne hNe, hNe, ne_eq, not_false_eq_true, true_and]
      exact h.listed q
  · simp only [hList] at hq
    simp only [hTrx, update_of_ne (hMem hq).1] at hLive ⊢
    exact h.live q (hMem hq).2 hLive
  · obtain ⟨q, hq, hId, hLive⟩ := h.on_list t ht hNot
    have hNe : q ≠ p := by
      rintro rfl
      rw [hDone] at hLive
      exact absurd hLive (by decide)
    simp only [hList, hTrx, h.nodup.mem_erase_iff]
    refine ⟨q, ⟨hNe, hq⟩, ?_⟩
    rw [update_of_ne hNe]
    exact ⟨hId, hLive⟩

end

end Orderly

structure Trx.StageOk (trx : Trx) : Prop where
  committing : trx.stage = .writingUndo ∨ trx.stage = .numbered → trx.type = .user ∧ trx.phase = .live
  inMemory : trx.stage = .inMemory → trx.type = .user ∧ trx.phase = .done
  unnumbered : trx.hasSess = true → trx.stage = .none ∨ trx.stage = .writingUndo → trx.type = .user →
    trx.phase = .live → trx.no = ⊤

def Staged (sys : TrxSys) : Prop := ∀ p, (sys.trx p).StageOk

section
variable {sys : TrxSys} {p : Nat}

theorem Staged.set (h : Staged sys) {sys' : TrxSys} {trx : Trx}
    (hTrx : sys'.trx = update sys.trx p trx) (hOk : trx.StageOk) : Staged sys' := by
  intro q
  rw [hTrx]
  rcases eq_or_ne q p with rfl | hNe
  · rwa [update_self]
  · rw [update_of_ne hNe]
    exact h q

/-- A change of fields that the stage says nothing about. -/
theorem Trx.StageOk.congr {trx trx' : Trx} (h : trx.StageOk) (hStage : trx'.stage = trx.stage)
    (hType : trx'.type = trx.type) (hPhase : trx'.phase = trx.phase) (hSess : trx'.hasSess = trx.hasSess)
    (hNo : trx'.no = trx.no) : trx'.StageOk := by
  refine ⟨?_, ?_, ?_⟩
  · rw [hStage, hType, hPhase]
    exact h.committing
  · rw [hStage, hType, hPhase]
    exact h.inMemory
  · rw [hSess, hStage, hType, hPhase, hNo]
    exact h.unnumbered

/-- A transaction that is not in its commit. -/
theorem Trx.StageOk.idle {trx : Trx} (hStage : trx.stage = .none)
    (hNo : trx.hasSess = true → trx.type = .user → trx.phase = .live → trx.no = ⊤) : trx.StageOk :=
  ⟨by simp [hStage], by simp [hStage], fun hSess _ => hNo hSess⟩

section
variable (h : Staged sys)
include h

theorem Staged.trxStartLow (hIdle : (sys.trx p).stage = .none) : Staged (trxStartLow sys p) := by
  rw [Read.trxStartLow]
  split
  · rename_i hPurge
    exact h.set rfl (.idle hIdle fun _ hUser => absurd (hPurge.symm.trans hUser) (by decide))
  · exact h.set rfl (.idle hIdle fun _ _ _ => rfl)

theorem Staged.trxCommitFinish : Staged (trxCommitFinish sys p) :=
  h.set rfl (.idle rfl fun _ _ hLive => absurd hLive (by simp [Trx.phase]))

theorem Staged.trxCommitInMemory (hUser : (sys.trx p).type = .user) :
    Staged (trxCommitInMemory sys p) := by
  rw [Read.trxCommitInMemory]
  cases (sys.trx p).globalReadView <;>
    exact h.set rfl ⟨by simp, fun _ => ⟨hUser, rfl⟩, by simp⟩

theorem Staged.trxCommitOffKernel (hIdle : (sys.trx p).stage = .none)
    (hUser : (sys.trx p).type = .user) (hLive : (sys.trx p).phase = .live) :
    Staged (trxCommitOffKernel sys p) := by
  rw [Read.trxCommitOffKernel]
  split
  · exact h.set rfl ⟨fun _ => ⟨hUser, hLive⟩, by simp, fun hSess _ => (h p).unnumbered hSess (Or.inl hIdle)⟩
  · exact (h.trxCommitInMemory hUser).trxCommitFinish

theorem Staged.trxCommitNumber (hStage : (sys.trx p).stage = .writingUndo) :
    Staged (trxCommitNumber sys p) := by
  have hLive := (h p).committing (Or.inl hStage)
  rw [Read.trxCommitNumber]
  split <;> exact h.set rfl ⟨fun _ => hLive, by simp, by simp⟩

theorem Staged.trxAssignReadView : Staged (trxAssignReadView sys p) := by
  rw [Read.trxAssignReadView]
  split
  · exact h
  · exact h.set rfl ((h p).congr rfl rfl rfl rfl rfl)

theorem Staged.openPurgeView : Staged (openPurgeView (closePurgeView sys)) := by
  intro q
  rw [(purge_same sys).1]
  exact h q

end

end

theorem step_staged {s : State} {call : Call} (h : Staged s.sys) (hAllowed : Allowed s call) :
    Staged (s.next call).sys := by
  cases call with
  | start p => exact h.trxStartLow hAllowed.1
  | change p insert update => exact h.set rfl ((h p).congr rfl rfl rfl rfl rfl)
  | prepare p =>
    refine h.set rfl (.idle hAllowed.1 fun hSess hUser _ => ?_)
    exact (h p).unnumbered hSess (.inl hAllowed.1) hUser (phase_eq_live.mpr (.inl hAllowed.2.2))
  | commit p => exact h.trxCommitOffKernel hAllowed.1 hAllowed.2.1 (phase_eq_live.mpr hAllowed.2.2)
  | number p => exact h.trxCommitNumber hAllowed
  | commitInMemory p => exact h.trxCommitInMemory ((h p).committing (.inr hAllowed)).1
  | finish p => exact h.trxCommitFinish
  | cleanup p => exact h.trxCommitFinish
  | assignReadView p => exact h.trxAssignReadView
  | closeReadView p =>
    rw [State.next]
    cases (s.sys.trx p).globalReadView with
    | none => exact h
    | some v => exact h.set rfl ((h p).congr rfl rfl rfl rfl rfl)
  | createCursorView p => exact h
  | closeCursorView p v => exact h.set rfl ((h p).congr rfl rfl rfl rfl rfl)
  | setCursorView p v => exact h.set rfl ((h p).congr rfl rfl rfl rfl rfl)
  | purge => exact h.openPurgeView

/-- A transaction that is live or committed in memory is on the list. -/
theorem Orderly.mem {s : State} (h : Orderly s) {p : Nat} (hUser : (s.sys.trx p).type = .user)
    (hOn : (s.sys.trx p).phase ≠ .off) : p ∈ s.sys.trxList :=
  (h.listed p).mpr ⟨hUser, hOn⟩

theorem step_orderly {s : State} {call : Call} (h : Orderly s) (hStaged : Staged s.sys)
    (hAllowed : Allowed s call) : Orderly (s.next call) := by
  cases call with
  | start p =>
    obtain ⟨-, -, hOff⟩ := hAllowed
    rw [State.next]
    by_cases hPurge : (s.sys.trx p).type = .purge
    · rw [if_pos hPurge]
      rw [trxStartLow, if_pos hPurge]
      exact h.same (.set rfl rfl le_rfl rfl fun hUser => absurd (hPurge.symm.trans hUser) (by decide)) rfl rfl
    · rw [if_neg hPurge]
      refine h.start ?_ (phase_eq_off.mpr hOff)
      cases hType : (s.sys.trx p).type with
      | user => rfl
      | purge => exact absurd hType hPurge
  | change => exact h.same (.setFields rfl rfl le_rfl rfl rfl rfl) rfl rfl
  | prepare p =>
    refine h.same (.set rfl rfl le_rfl rfl fun _ => ⟨rfl, ?_⟩) rfl rfl
    exact (phase_eq_live.mpr (.inl hAllowed.2.2)).symm
  | commit p =>
    obtain ⟨-, hUser, hActive⟩ := hAllowed
    have hLive := phase_eq_live.mpr hActive
    rw [State.next, trxCommitOffKernel]
    split
    · exact h.same (.setFields rfl rfl le_rfl rfl rfl rfl) rfl rfl
    · have hCommitted := h.commitInMemory (h.mem hUser (by rw [hLive]; decide)) hLive
      refine hCommitted.finish ?_
      simp only [trxCommitInMemory]
      cases (s.sys.trx p).globalReadView <;> simp [TrxSys.setTrx, Trx.phase]
  | number p => exact h.same (.trxCommitNumber _ p) rfl rfl
  | commitInMemory p =>
    obtain ⟨hUser, hLive⟩ := (hStaged p).committing (.inr hAllowed)
    exact h.commitInMemory (h.mem hUser (by rw [hLive]; decide)) hLive
  | finish p => exact h.finish ((hStaged p).inMemory hAllowed).2
  | cleanup p => exact h.finish (phase_eq_done.mpr hAllowed.2)
  | assignReadView p => exact h.same (.trxAssignReadView _ p) rfl rfl
  | closeReadView p =>
    rw [State.next]
    cases (s.sys.trx p).globalReadView with
    | none => exact h
    | some v => exact h.same (.setFields rfl rfl le_rfl rfl rfl rfl) rfl rfl
  | createCursorView p => exact h.same (.of_trx rfl rfl rfl) rfl rfl
  | closeCursorView | setCursorView => exact h.same (.setFields rfl rfl le_rfl rfl rfl rfl) rfl rfl
  | purge =>
    obtain ⟨hTrx, hList, hMax⟩ := purge_same s.sys
    exact h.same (.of_trx hTrx hList hMax) rfl rfl

end MySQL.Innobase.Read
