import MySQL.Innobase.Read.Orderly

/-! The transactions that are found at a database start. -/
namespace MySQL.Innobase.Read
open List

def Rseg.trxIds (rseg : Rseg) : List Nat := (rseg.insertUndoList ++ rseg.updateUndoList).map Undo.trxId

/-- The undo logs on disk: ids were given out before, a transaction has its logs in one
rollback segment, and at most one of them is an insert undo log. -/
structure LogsOk (maxTrxId : Nat) (rsegs : List Rseg) : Prop where
  lt : ∀ rseg ∈ rsegs, ∀ id ∈ rseg.trxIds, id < maxTrxId
  nodup : ∀ rseg ∈ rsegs, (rseg.insertUndoList.map Undo.trxId).Nodup
  apart : rsegs.Pairwise (fun r r' => ∀ id ∈ r.trxIds, id ∉ r'.trxIds)

/-- The system while transactions are added: those that are not on the list are new. -/
structure Recovering (types : Nat → TrxType) (maxTrxId : Nat) (sys : TrxSys) : Prop where
  maxTrxId_eq : sys.maxTrxId = maxTrxId
  sorted : sys.trxList.Pairwise (fun p q => (sys.trx q).id < (sys.trx p).id)
  lt : ∀ p ∈ sys.trxList, (sys.trx p).id < maxTrxId
  taken : ∀ p, p ∈ sys.trxList ↔ p < sys.trxList.length
  listed : ∀ p ∈ sys.trxList, (sys.trx p).type = .user ∧ (sys.trx p).phase ≠ .off ∧
    (sys.trx p).hasSess = false ∧ (sys.trx p).stage = .none
  unlisted : ∀ p, p ∉ sys.trxList → sys.trx p = trxCreate (types p) true
  viewList : sys.viewList = []
  purgeView : sys.purgeView = none

def TrxSys.HasId (sys : TrxSys) (id : Nat) : Prop := ∃ p ∈ sys.trxList, (sys.trx p).id = id

section
variable {types : Nat → TrxType} {maxTrxId : Nat} {sys : TrxSys}

theorem mem_trxListInsertOrdered {p q : Nat} {ps : List Nat} :
    q ∈ trxListInsertOrdered sys p ps ↔ q = p ∨ q ∈ ps := by
  induction ps with
  | nil => simp [trxListInsertOrdered]
  | cons r ps ih =>
    rw [trxListInsertOrdered]
    split
    · simp
    · simp only [mem_cons, ih]
      tauto

theorem length_trxListInsertOrdered {p : Nat} (ps : List Nat) :
    (trxListInsertOrdered sys p ps).length = ps.length + 1 := by
  induction ps with
  | nil => rfl
  | cons r ps ih =>
    rw [trxListInsertOrdered]
    split
    · rfl
    · rw [length_cons, ih, length_cons]

theorem pairwise_trxListInsertOrdered {p : Nat} {ps : List Nat}
    (h : ps.Pairwise (fun p q => (sys.trx q).id < (sys.trx p).id))
    (hNew : ∀ q ∈ ps, (sys.trx q).id ≠ (sys.trx p).id) :
    (trxListInsertOrdered sys p ps).Pairwise (fun p q => (sys.trx q).id < (sys.trx p).id) := by
  induction ps with
  | nil => exact pairwise_singleton _ _
  | cons r ps ih =>
    obtain ⟨hFirst, hRest⟩ := pairwise_cons.mp h
    have hNe := hNew r mem_cons_self
    rw [trxListInsertOrdered]
    split
    · rename_i hLe
      have hLt := Nat.lt_of_le_of_ne hLe hNe
      refine pairwise_cons.mpr ⟨fun q hq => ?_, h⟩
      rcases mem_cons.mp hq with rfl | hq
      · exact hLt
      · exact lt_trans (hFirst q hq) hLt
    · rename_i hGt
      refine pairwise_cons.mpr ⟨fun q hq => ?_, ih hRest fun q hq => hNew q (mem_cons_of_mem _ hq)⟩
      rcases mem_trxListInsertOrdered.mp hq with rfl | hq
      · exact Nat.lt_of_not_le hGt
      · exact hFirst q hq

/-- A transaction with a new id is added. -/
theorem Recovering.add (h : Recovering types maxTrxId sys) {trx : Trx} (hUser : trx.type = .user)
    (hOn : trx.phase ≠ .off) (hSess : trx.hasSess = false) (hStage : trx.stage = .none)
    (hLt : trx.id < maxTrxId) (hNew : ¬sys.HasId trx.id) :
    Recovering types maxTrxId (addRecovered sys trx) ∧
      ∀ id, (addRecovered sys trx).HasId id ↔ id = trx.id ∨ sys.HasId id := by
  have hFree : sys.trxList.length ∉ sys.trxList := fun hMem => lt_irrefl _ ((h.taken _).mp hMem)
  obtain ⟨sys₁, hSys₁⟩ : ∃ sys₁, sys₁ = sys.setTrx sys.trxList.length trx := ⟨_, rfl⟩
  have hAdd : addRecovered sys trx =
      { sys₁ with trxList := trxListInsertOrdered sys₁ sys.trxList.length sys.trxList } := by
    rw [hSys₁]
    rfl
  have hSelf : sys₁.trx sys.trxList.length = trx := by rw [hSys₁]; exact Function.update_self ..
  have hOther {q : Nat} (hq : q ≠ sys.trxList.length) : sys₁.trx q = sys.trx q := by
    rw [hSys₁]
    exact Function.update_of_ne hq ..
  have hOld {q : Nat} (hq : q ∈ sys.trxList) : sys₁.trx q = sys.trx q := hOther fun hEq => hFree (hEq ▸ hq)
  rw [hAdd]
  refine ⟨⟨?_, ?_, fun q hq => ?_, fun q => ?_, fun q hq => ?_, fun q hq => ?_, ?_, ?_⟩, fun id => ?_⟩
  · rw [hSys₁]
    exact h.maxTrxId_eq
  · simp only
    refine pairwise_trxListInsertOrdered ?_ fun q hq hEq => ?_
    · refine h.sorted.imp_of_mem fun {q r} hq hr hLess => ?_
      rwa [hOld hq, hOld hr]
    · rw [hOld hq, hSelf] at hEq
      exact hNew ⟨q, hq, hEq⟩
  · rcases mem_trxListInsertOrdered.mp hq with rfl | hq
    · simp only [hSelf]
      exact hLt
    · simp only [hOld hq]
      exact h.lt q hq
  · simp only [mem_trxListInsertOrdered, length_trxListInsertOrdered, h.taken q]
    omega
  · rcases mem_trxListInsertOrdered.mp hq with rfl | hq
    · simp only [hSelf]
      exact ⟨hUser, hOn, hSess, hStage⟩
    · simp only [hOld hq]
      exact h.listed q hq
  · simp only [mem_trxListInsertOrdered, not_or] at hq
    simp only [hOther hq.1]
    exact h.unlisted q hq.2
  · rw [hSys₁]
    exact h.viewList
  · rw [hSys₁]
    exact h.purgeView
  · constructor
    · rintro ⟨q, hq, rfl⟩
      rcases mem_trxListInsertOrdered.mp hq with rfl | hq
      · exact .inl (by simp only [hSelf])
      · exact .inr ⟨q, hq, by simp only [hOld hq]⟩
    · rintro (rfl | ⟨q, hq, rfl⟩)
      · exact ⟨sys.trxList.length, mem_trxListInsertOrdered.mpr (.inl rfl), by simp only [hSelf]⟩
      · exact ⟨q, mem_trxListInsertOrdered.mpr (.inr hq), by simp only [hOld hq]⟩

/-- A second undo log of a transaction. -/
theorem Recovering.setUpdateUndo (h : Recovering types maxTrxId sys) {p : Nat} (hp : p ∈ sys.trxList) :
    Recovering types maxTrxId (sys.setTrx p { sys.trx p with updateUndo := true }) ∧
      ∀ id, (sys.setTrx p { sys.trx p with updateUndo := true }).HasId id ↔ sys.HasId id := by
  obtain ⟨sys₁, hSys₁⟩ : ∃ sys₁, sys₁ = sys.setTrx p { sys.trx p with updateUndo := true } := ⟨_, rfl⟩
  have hList : sys₁.trxList = sys.trxList := by rw [hSys₁]; rfl
  have hId (q : Nat) : (sys₁.trx q).id = (sys.trx q).id := by
    rw [hSys₁]
    rcases eq_or_ne q p with rfl | hNe
    · simp [TrxSys.setTrx]
    · simp [TrxSys.setTrx, hNe]
  rw [← hSys₁]
  refine ⟨⟨by rw [hSys₁]; exact h.maxTrxId_eq, ?_, fun q hq => ?_, ?_, fun q hq => ?_, fun q hq => ?_,
    by rw [hSys₁]; exact h.viewList, by rw [hSys₁]; exact h.purgeView⟩, fun id => ?_⟩
  · simp only [hList, hId]
    exact h.sorted
  · rw [hList] at hq
    rw [hId]
    exact h.lt q hq
  · rw [hList]
    exact h.taken
  · rw [hList] at hq
    have hListed := h.listed q hq
    rw [hSys₁]
    rcases eq_or_ne q p with rfl | hNe
    · simpa [TrxSys.setTrx, Trx.phase] using hListed
    · simpa [TrxSys.setTrx, hNe] using hListed
  · rw [hList] at hq
    have hNe : q ≠ p := fun hEq => hq (hEq ▸ hp)
    rw [hSys₁]
    simpa [TrxSys.setTrx, hNe] using h.unlisted q hq
  · simp only [TrxSys.HasId, hList, hId]

variable (forceRecovery : Bool)

theorem trxOfUndo_phase (undo : Undo) : (trxOfUndo forceRecovery undo).phase ≠ .off := by
  rw [trxOfUndo, Trx.phase]
  cases undo.state <;> cases forceRecovery <;> simp

section
variable {undo : Undo} (h : Recovering types maxTrxId sys) (hLt : undo.trxId < maxTrxId)
include h hLt

theorem Recovering.addInsertUndo (hNew : ¬sys.HasId undo.trxId) :
    Recovering types maxTrxId (addInsertUndo forceRecovery sys undo) ∧
      ∀ id, (addInsertUndo forceRecovery sys undo).HasId id ↔ id = undo.trxId ∨ sys.HasId id :=
  h.add rfl (trxOfUndo_phase forceRecovery undo) rfl rfl hLt hNew

theorem Recovering.addUpdateUndo :
    Recovering types maxTrxId (addUpdateUndo forceRecovery sys undo) ∧
      ∀ id, (addUpdateUndo forceRecovery sys undo).HasId id ↔ id = undo.trxId ∨ sys.HasId id := by
  rw [Read.addUpdateUndo]
  split
  · rename_i p hFound
    have hId : (sys.trx p).id = undo.trxId := by simpa using List.find?_some hFound
    have hMem : p ∈ sys.trxList := mem_of_find?_eq_some hFound
    obtain ⟨hRecovering, hHasId⟩ := h.setUpdateUndo hMem
    refine ⟨hRecovering, fun id => ?_⟩
    rw [hHasId, iff_or_self]
    rintro rfl
    exact ⟨p, hMem, hId⟩
  · rename_i hNone
    refine h.add rfl (trxOfUndo_phase forceRecovery undo) rfl rfl hLt ?_
    rintro ⟨p, hp, hId⟩
    have hNot : (sys.trx p).id ≠ undo.trxId := by simpa using List.find?_eq_none.mp hNone p hp
    exact hNot hId

end

section
variable (undos : List Undo) (h : Recovering types maxTrxId sys)
  (hLt : ∀ undo ∈ undos, undo.trxId < maxTrxId)
include undos h hLt

/-- The insert undo logs of a rollback segment. -/
theorem Recovering.insertUndoList (hNodup : (undos.map Undo.trxId).Nodup)
    (hNew : ∀ undo ∈ undos, ¬sys.HasId undo.trxId) :
    Recovering types maxTrxId (undos.foldl (Read.addInsertUndo forceRecovery) sys) ∧
      ∀ id, (undos.foldl (Read.addInsertUndo forceRecovery) sys).HasId id ↔
        id ∈ undos.map Undo.trxId ∨ sys.HasId id := by
  induction undos generalizing sys with
  | nil => exact ⟨h, by simp⟩
  | cons undo undos ih =>
    rw [map_cons, nodup_cons] at hNodup
    obtain ⟨hFirst, hIds⟩ := h.addInsertUndo forceRecovery (hLt undo mem_cons_self)
      (hNew undo mem_cons_self)
    obtain ⟨hRest, hAll⟩ := ih hFirst (fun u hu => hLt u (mem_cons_of_mem _ hu)) hNodup.2 fun u hu => by
      rw [hIds]
      rintro (hEq | hOld)
      · exact hNodup.1 (hEq ▸ mem_map_of_mem hu)
      · exact hNew u (mem_cons_of_mem _ hu) hOld
    refine ⟨hRest, fun id => ?_⟩
    rw [foldl_cons, hAll, hIds, map_cons, mem_cons]
    tauto

theorem Recovering.updateUndoList :
    Recovering types maxTrxId (undos.foldl (Read.addUpdateUndo forceRecovery) sys) ∧
      ∀ id, (undos.foldl (Read.addUpdateUndo forceRecovery) sys).HasId id ↔
        id ∈ undos.map Undo.trxId ∨ sys.HasId id := by
  induction undos generalizing sys with
  | nil => exact ⟨h, by simp⟩
  | cons undo undos ih =>
    obtain ⟨hFirst, hIds⟩ := h.addUpdateUndo forceRecovery (hLt undo mem_cons_self)
    obtain ⟨hRest, hAll⟩ := ih hFirst fun u hu => hLt u (mem_cons_of_mem _ hu)
    refine ⟨hRest, fun id => ?_⟩
    rw [foldl_cons, hAll, hIds, map_cons, mem_cons]
    tauto

end

theorem trxListsInitAtDbStart_spec (rsegs : List Rseg) (h : Recovering types maxTrxId sys)
    (hLogs : LogsOk maxTrxId rsegs) (hNew : ∀ rseg ∈ rsegs, ∀ id ∈ rseg.trxIds, ¬sys.HasId id) :
    Recovering types maxTrxId (trxListsInitAtDbStart forceRecovery sys rsegs) := by
  induction rsegs generalizing sys with
  | nil => exact h
  | cons rseg rsegs ih =>
    have hLt := hLogs.lt rseg mem_cons_self
    obtain ⟨hApart, hRest⟩ := pairwise_cons.mp hLogs.apart
    have hMem {undo : Undo} (hu : undo ∈ rseg.insertUndoList ++ rseg.updateUndoList) :
        undo.trxId ∈ rseg.trxIds := mem_map_of_mem hu
    obtain ⟨hInsert, hIds⟩ := h.insertUndoList forceRecovery rseg.insertUndoList
      (fun u hu => hLt _ (hMem (mem_append_left _ hu))) (hLogs.nodup rseg mem_cons_self)
      fun u hu => hNew rseg mem_cons_self _ (hMem (mem_append_left _ hu))
    obtain ⟨hUpdate, hAll⟩ := hInsert.updateUndoList forceRecovery rseg.updateUndoList
      fun u hu => hLt _ (hMem (mem_append_right _ hu))
    rw [trxListsInitAtDbStart, foldl_cons]
    refine ih hUpdate ⟨fun r hr => hLogs.lt r (mem_cons_of_mem _ hr),
      fun r hr => hLogs.nodup r (mem_cons_of_mem _ hr), hRest⟩ fun r hr id hId => ?_
    rw [hAll, hIds, ← or_assoc, or_comm (a := id ∈ _), ← mem_append, ← map_append]
    rintro (hHere | hOld)
    · exact hApart r hr id hHere hId
    · exact hNew r (mem_cons_of_mem _ hr) id hId hOld

end

section
variable {types : Nat → TrxType} {maxTrxId : Nat} {rsegs : List Rseg} (forceRecovery : Bool)

section
variable (types : Nat → TrxType) (hLogs : LogsOk maxTrxId rsegs)
include hLogs

theorem recovering_init :
    Recovering types maxTrxId (State.init types maxTrxId forceRecovery rsegs).sys := by
  refine trxListsInitAtDbStart_spec forceRecovery rsegs ?_ hLogs ?_
  · exact ⟨rfl, Pairwise.nil, by simp, by simp, by simp, fun _ _ => rfl, rfl, rfl⟩
  · rintro rseg - id - ⟨p, hp, -⟩
    exact absurd hp not_mem_nil

theorem orderly_init :
    Orderly (State.init types maxTrxId forceRecovery rsegs) := by
  have h := recovering_init forceRecovery types hLogs
  obtain ⟨s, hs⟩ : ∃ s, s = State.init types maxTrxId forceRecovery rsegs := ⟨_, rfl⟩
  have hCommitted (t : Nat) : t ∈ s.committed ↔
      ∃ p ∈ s.sys.trxList, (s.sys.trx p).phase = .done ∧ (s.sys.trx p).id = t := by
    simp only [hs, State.init, mem_map, mem_filter, decide_eq_true_eq, phase_eq_done, and_assoc]
  have hStarted : s.started = s.sys.trxList.map fun p => (s.sys.trx p).id := by
    rw [hs]
    rfl
  rw [← hs] at h ⊢
  have hNodup : (s.sys.trxList.map fun p => (s.sys.trx p).id).Nodup :=
    pairwise_map.mpr (h.sorted.imp fun hLt => Nat.ne_of_gt hLt)
  refine ⟨h.sorted, fun p hp => ?_, fun p => ?_, fun t ht => ?_, fun t ht => ?_, fun p hp hLive => ?_,
    fun t ht hNot => ?_⟩
  · rw [h.maxTrxId_eq]
    exact h.lt p hp
  · refine ⟨fun hp => ⟨(h.listed p hp).1, (h.listed p hp).2.1⟩, fun ⟨_, hOn⟩ => ?_⟩
    by_contra hNot
    rw [h.unlisted p hNot] at hOn
    exact hOn rfl
  · rw [hStarted] at ht
    obtain ⟨p, hp, rfl⟩ := mem_map.mp ht
    rw [h.maxTrxId_eq]
    exact h.lt p hp
  · obtain ⟨p, hp, -, rfl⟩ := (hCommitted t).mp ht
    rw [hStarted]
    exact mem_map_of_mem hp
  · rw [hStarted, hCommitted]
    refine ⟨mem_map_of_mem hp, fun ⟨q, hq, hDone, hId⟩ => ?_⟩
    obtain rfl := inj_on_of_nodup_map hNodup hq hp hId
    rw [hLive] at hDone
    exact absurd hDone (by decide)
  · rw [hStarted] at ht
    obtain ⟨p, hp, rfl⟩ := mem_map.mp ht
    refine ⟨p, hp, rfl, ?_⟩
    have hOn := (h.listed p hp).2.1
    have hDone : (s.sys.trx p).phase ≠ .done := fun hDone => hNot ((hCommitted _).mpr ⟨p, hp, hDone, rfl⟩)
    cases hPhase : (s.sys.trx p).phase with
    | off => exact absurd hPhase hOn
    | live => rfl
    | done => exact absurd hPhase hDone

theorem staged_init :
    Staged (State.init types maxTrxId forceRecovery rsegs).sys := by
  have h := recovering_init forceRecovery types hLogs
  intro p
  by_cases hp : p ∈ (State.init types maxTrxId forceRecovery rsegs).sys.trxList
  · obtain ⟨-, -, hSess, hStage⟩ := h.listed p hp
    exact .idle hStage fun hHas => absurd hHas (by rw [hSess]; decide)
  · rw [h.unlisted p hp]
    exact .idle rfl fun _ _ _ => rfl

end

end

end MySQL.Innobase.Read
