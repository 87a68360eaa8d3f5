import MySQL.Innobase.Read.Sys

/-! What a read view sees. -/
namespace MySQL.Innobase.Read
open List

structure ReadView.Wf (view : ReadView) : Prop where
  sorted : view.trxIds.Pairwise (fun a b => b ≤ a)
  up_le : ∀ id ∈ view.trxIds, view.upLimitId ≤ id
  ids_le : ∀ id ∈ view.trxIds, id ≤ view.lowLimitId
  up_le_low : view.upLimitId ≤ view.lowLimitId

/-- The scan may stop early because the ids are sorted. -/
theorem seesLoop_iff {ids : List Nat} (h : ids.Pairwise (fun a b => a ≤ b)) (trxId : Nat) :
    seesLoop trxId ids = true ↔ trxId ∉ ids := by
  induction ids with
  | nil => simp [seesLoop]
  | cons id ids ih =>
    obtain ⟨hFirst, hRest⟩ := pairwise_cons.mp h
    rw [seesLoop]
    split
    · rename_i hLe
      rw [decide_eq_true_iff, mem_cons, not_or]
      refine ⟨fun hLt => ⟨ne_of_lt hLt, fun hMem => ?_⟩, fun hNe => Nat.lt_of_le_of_ne hLe hNe.1⟩
      exact absurd (hFirst trxId hMem) (Nat.not_le_of_lt hLt)
    · rename_i hGt
      rw [ih hRest, mem_cons, not_or]
      exact ⟨fun hNot => ⟨fun hEq => hGt (le_of_eq hEq), hNot⟩, fun hNot => hNot.2⟩

theorem ReadView.Wf.sees_iff {view : ReadView} (h : view.Wf) (trxId : Nat) :
    readViewSeesTrxId view trxId = true ↔ trxId < view.lowLimitId ∧ trxId ∉ view.trxIds := by
  rw [readViewSeesTrxId]
  split
  · rename_i hUp
    refine ⟨fun _ => ⟨lt_of_lt_of_le hUp h.up_le_low, fun hMem => ?_⟩, fun _ => rfl⟩
    exact absurd (h.up_le trxId hMem) (Nat.not_le_of_lt hUp)
  · split
    · rename_i hLow
      simp only [Bool.false_eq_true, false_iff, not_and]
      exact fun hLt => absurd hLow (Nat.not_le_of_lt hLt)
    · rename_i hLow
      rw [seesLoop_iff (pairwise_reverse.mpr h.sorted), mem_reverse]
      exact ⟨fun hNot => ⟨Nat.lt_of_not_le hLow, hNot⟩, fun hBoth => hBoth.2⟩

/-- The last id, which is the smallest, or the default. -/
theorem getLast_le {ids : List Nat} (h : ids.Pairwise (fun a b => b ≤ a)) (default : Nat) {id : Nat}
    (hMem : id ∈ ids) : ids.getLast?.getD default ≤ id := by
  obtain ⟨front, last, rfl⟩ := eq_nil_or_concat' ids |>.resolve_left (ne_nil_of_mem hMem)
  rw [getLast?_concat, Option.getD_some]
  rcases mem_append.mp hMem with hFront | hLast
  · exact (pairwise_append.mp h).2.2 id hFront last (mem_singleton.mpr rfl)
  · exact le_of_eq (mem_singleton.mp hLast).symm

theorem getLast_mem {ids : List Nat} (default : Nat) (h : ids ≠ []) : ids.getLast?.getD default ∈ ids := by
  rw [getLast?_eq_some_getLast h, Option.getD_some]
  exact List.getLast_mem h

/-- The upper limit is the smallest id, or what there is to see without ids. -/
theorem ReadView.wf_of_getLast {view : ReadView} {default : Nat}
    (hIds : view.trxIds.Pairwise (fun a b => b ≤ a)) (hUp : view.upLimitId = view.trxIds.getLast?.getD default)
    (hLe : ∀ id ∈ view.trxIds, id ≤ view.lowLimitId) (hDefault : default ≤ view.lowLimitId) : view.Wf := by
  refine ⟨hIds, fun id hMem => hUp ▸ getLast_le hIds _ hMem, hLe, ?_⟩
  rw [hUp]
  by_cases hNone : view.trxIds = []
  · rw [hNone]
    exact hDefault
  · exact hLe _ (getLast_mem default hNone)

section
variable (sys : TrxSys) (crTrx : Option Nat)

theorem scanTrxList_fst (ps : List Nat) (low : WithTop Nat) : (sys.scanTrxList crTrx ps low).1 =
      (ps.filter (sys.isActiveFor crTrx)).map fun p => (sys.trx p).id := by
  induction ps generalizing low with
  | nil => rfl
  | cons p ps ih =>
    rw [TrxSys.scanTrxList]
    split
    · rename_i hActive
      rw [filter_cons_of_pos hActive, map_cons, ← ih]
    · rename_i hActive
      rw [filter_cons_of_neg hActive, ih]

/-- No active transaction has a smaller number. -/
theorem scanTrxList_snd (ps : List Nat) (low : WithTop Nat) :
    (sys.scanTrxList crTrx ps low).2 ≤ low ∧
      ∀ p ∈ ps, sys.isActiveFor crTrx p → (sys.scanTrxList crTrx ps low).2 ≤ (sys.trx p).no := by
  induction ps generalizing low with
  | nil => exact ⟨le_rfl, by simp⟩
  | cons p ps ih =>
    rw [TrxSys.scanTrxList]
    split
    · rename_i hActive
      simp only [← min_def_lt]
      obtain ⟨hLow, hAll⟩ := ih _
      refine ⟨hLow.trans (min_le_right ..), fun q hq hActive' => ?_⟩
      rcases mem_cons.mp hq with rfl | hRest
      · exact hLow.trans (min_le_left ..)
      · exact hAll q hRest hActive'
    · rename_i hActive
      obtain ⟨hLow, hAll⟩ := ih low
      refine ⟨hLow, fun q hq hActive' => ?_⟩
      rcases mem_cons.mp hq with rfl | hRest
      · exact absurd hActive' hActive
      · exact hAll q hRest hActive'

theorem mem_viewNow {id : Nat} :
    id ∈ (sys.viewNow crTrx).trxIds ↔ ∃ p ∈ sys.trxList, sys.isActiveFor crTrx p ∧ (sys.trx p).id = id := by
  rw [TrxSys.viewNow]
  simp only [scanTrxList_fst, mem_map, mem_filter, and_assoc]

theorem viewNow_lowLimitNo : (sys.viewNow crTrx).lowLimitNo ≤ sys.maxTrxId ∧
    ∀ p ∈ sys.trxList, sys.isActiveFor crTrx p → (sys.viewNow crTrx).lowLimitNo ≤ (sys.trx p).no :=
  scanTrxList_snd sys crTrx sys.trxList sys.maxTrxId

variable {sys}

theorem viewNow_wf (hSorted : sys.trxList.Pairwise (fun p q => (sys.trx q).id < (sys.trx p).id))
    (hLt : ∀ p ∈ sys.trxList, (sys.trx p).id < sys.maxTrxId) : (sys.viewNow crTrx).Wf := by
  have hIds : (sys.viewNow crTrx).trxIds.Pairwise (fun a b => b ≤ a) := by
    rw [TrxSys.viewNow]
    simp only [scanTrxList_fst]
    exact pairwise_map.mpr ((hSorted.imp fun h => le_of_lt h).filter _)
  have hLe : ∀ id ∈ (sys.viewNow crTrx).trxIds, id ≤ sys.maxTrxId := by
    intro id hMem
    obtain ⟨p, hp, -, rfl⟩ := (mem_viewNow sys crTrx).mp hMem
    exact le_of_lt (hLt p hp)
  exact ReadView.wf_of_getLast hIds rfl hLe (le_refl _)

end

section
variable (creatorId : Nat) (ids : List Nat) (cells i : Nat)

/-- After the insertion, and without one, the ids are copied. -/
theorem copyLoop_rest {insertDone : Nat}
    (hDone : insertDone ≤ i) (hCells : cells + i = ids.length + insertDone) :
    copyLoop creatorId ids cells i false insertDone = ids.drop (i - insertDone) := by
  induction cells generalizing i with
  | zero =>
    rw [copyLoop, drop_eq_nil_of_le (by omega)]
  | succ cells ih =>
    have hLt : i - insertDone < ids.length := by omega
    rw [copyLoop, if_neg (by simp), ih (i + 1) (by omega) (by omega), drop_eq_getElem_cons hLt,
      getD_eq_getElem _ _ hLt, Nat.sub_add_comm hDone]

/-- The id of the creator is inserted before the first smaller one. -/
theorem copyLoop_insert
    (hCells : cells + i = ids.length + 1) (hLe : i ≤ ids.length) :
    copyLoop creatorId ids cells i true 0 =
      (ids.drop i).orderedInsert (fun a b => b < a) creatorId := by
  induction cells generalizing i with
  | zero => omega
  | succ cells ih =>
    rw [copyLoop]
    rcases Nat.eq_or_lt_of_le hLe with hEnd | hLt
    · rw [if_pos ⟨rfl, .inl (le_of_eq hEnd.symm)⟩, copyLoop_rest _ _ _ _ (by omega) (by omega),
        hEnd, Nat.add_sub_cancel, drop_length]
      rfl
    · rw [drop_eq_getElem_cons hLt, orderedInsert, getD_eq_getElem _ _ hLt]
      by_cases hLess : ids[i] < creatorId
      · rw [if_pos ⟨rfl, .inr hLess⟩, if_pos hLess, copyLoop_rest _ _ _ _ (by omega) (by omega),
          Nat.add_sub_cancel, drop_eq_getElem_cons hLt]
      · rw [if_neg (by simp only [true_and, not_or]; exact ⟨Nat.not_le_of_lt hLt, hLess⟩), if_neg hLess,
          Nat.sub_zero, getD_eq_getElem _ _ hLt, ih (i + 1) (by omega) (by omega)]

end

theorem pairwise_orderedInsert {ids : List Nat} (h : ids.Pairwise (fun a b => b ≤ a)) (id : Nat) :
    (ids.orderedInsert (fun a b => b < a) id).Pairwise (fun a b => b ≤ a) := by
  induction ids with
  | nil => exact pairwise_singleton _ _
  | cons first ids ih =>
    obtain ⟨hFirst, hRest⟩ := pairwise_cons.mp h
    rw [orderedInsert]
    split
    · rename_i hLess
      refine pairwise_cons.mpr ⟨fun b hb => ?_, h⟩
      rcases mem_cons.mp hb with rfl | hMem
      · exact le_of_lt hLess
      · exact le_trans (hFirst b hMem) (le_of_lt hLess)
    · rename_i hMore
      refine pairwise_cons.mpr ⟨fun b hb => ?_, ih hRest⟩
      rcases (mem_orderedInsert _).mp hb with rfl | hMem
      · exact Nat.le_of_not_lt hMore
      · exact hFirst b hMem

section
variable {sys : TrxSys} {old : ReadView} (crTrx : Option Nat)

/-- The ids of a copy are those of the old view and the creator's. -/
theorem viewCopy_trxIds (sys : TrxSys) (old : ReadView) :
    (∀ id, id ∈ (sys.viewCopy old crTrx).trxIds ↔
      id ∈ old.trxIds ∨ ∃ c, old.creator = some c ∧ (sys.trx c).id = id) ∧
    (old.trxIds.Pairwise (fun a b => b ≤ a) →
      (sys.viewCopy old crTrx).trxIds.Pairwise (fun a b => b ≤ a)) := by
  rw [TrxSys.viewCopy]
  cases hCreator : old.creator with
  | none =>
    rw [copyLoop_rest _ _ _ _ (le_refl 0) rfl, drop_zero]
    simp
  | some c =>
    simp only
    rw [copyLoop_insert _ _ _ 0 rfl (Nat.zero_le _), drop_zero]
    refine ⟨fun id => ?_, fun hSorted => pairwise_orderedInsert hSorted _⟩
    rw [mem_orderedInsert, or_comm]
    simp only [Option.some.injEq, exists_eq_left', eq_comm]

section
variable (h : old.Wf) (hCreator : ∀ c, old.creator = some c → (sys.trx c).id ≤ old.lowLimitId)
include h hCreator

theorem viewCopy_wf : (sys.viewCopy old crTrx).Wf := by
  obtain ⟨hMem, hSorted⟩ := viewCopy_trxIds crTrx sys old
  have hIds := hSorted h.sorted
  have hLe : ∀ id ∈ (sys.viewCopy old crTrx).trxIds, id ≤ old.lowLimitId := by
    intro id hId
    rcases (hMem id).mp hId with hOld | ⟨c, hc, rfl⟩
    · exact h.ids_le id hOld
    · exact hCreator c hc
  exact ReadView.wf_of_getLast hIds rfl hLe h.up_le_low

/-- A copy sees what the old view sees, but not its creator. -/
theorem viewCopy_sees (id : Nat) : readViewSeesTrxId (sys.viewCopy old crTrx) id = true ↔
      readViewSeesTrxId old id = true ∧ ∀ c, old.creator = some c → (sys.trx c).id ≠ id := by
  rw [(viewCopy_wf crTrx h hCreator).sees_iff, h.sees_iff, (viewCopy_trxIds crTrx sys old).1 id, not_or,
    not_exists, and_assoc]
  simp only [not_and]
  rfl

end

end

end MySQL.Innobase.Read
