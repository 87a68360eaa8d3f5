import MySQL.Heap.Share

/-! The record area: live rows, and deleted rows linked from `del_link`. -/
namespace MySQL.Heap

open List Library LinearHash Function Option

def Share.links (share : Share) (pos : Nat) : Slot Bool := ⟨(share.rows pos).link, (share.rows pos).live⟩

/-- The record area is the live rows, the free ones, and a row that is `out` while a call
works on it. -/
structure RowsOk (share : Share) (live : Finset Nat) (free : List Nat) (out : Option Nat) : Prop where
  linked : Seg share.links share.delLink free none
  card : live.card = share.records
  length : free.length = share.deleted
  cover : ∀ pos, pos < share.records + share.deleted + out.isSome.toNat ↔
    pos ∈ live ∨ pos ∈ free ∨ out = some pos
  apart : ∀ pos, pos ∈ free → pos ∉ live
  out_apart : ∀ pos, out = some pos → pos ∉ live ∧ pos ∉ free
  live_rows : ∀ pos ∈ live, (share.rows pos).live = true
  free_rows : ∀ pos ∈ free, (share.rows pos).live = false

namespace RowsOk
variable {share : Share} {live : Finset Nat} {free : List Nat} {out : Option Nat} {pos : Nat}

theorem create (keydef : List KeyDef) (rows : Nat → Row) :
    RowsOk (heapCreate keydef rows) ∅ [] none := by
  constructor <;> simp [heapCreate, Seg]

theorem withKeys (h : RowsOk share live free out) (keydef : List KeyDef) :
    RowsOk { share with keydef } live free out :=
  ⟨h.linked, h.card, h.length, h.cover, h.apart, h.out_apart, h.live_rows, h.free_rows⟩

section
variable (h : RowsOk share live free (some pos))
include h

/-- The row that is out may change. -/
theorem setRow (row : Row) :
    RowsOk { share with rows := update share.rows pos row } live free (some pos) := by
  obtain ⟨hLive, hFree⟩ := h.out_apart pos rfl
  have hSame (p : Nat) (hNe : p ≠ pos) : update share.rows pos row p = share.rows p :=
    update_of_ne hNe ..
  refine ⟨h.linked.congr fun p hp => ?_, h.card, h.length, h.cover, h.apart, h.out_apart,
    fun p hp => ?_, fun p hp => ?_⟩
  · simp only [Share.links]
    rw [hSame p fun hEq => hFree (hEq ▸ hp)]
  · simp only [hSame p fun hEq => hLive (hEq ▸ hp)]
    exact h.live_rows p hp
  · simp only [hSame p fun hEq => hFree (hEq ▸ hp)]
    exact h.free_rows p hp

/-- The row that is out becomes a live one. -/
theorem more (hRow : (share.rows pos).live = true) :
    RowsOk share.more (insert pos live) free none := by
  obtain ⟨hLive, hFree⟩ := h.out_apart pos rfl
  refine ⟨h.linked, ?_, h.length, fun p => ?_, fun p hp => ?_, by simp, fun p hp => ?_, h.free_rows⟩
  · rw [Finset.card_insert_of_notMem hLive, h.card]
    rfl
  · have hCover := h.cover p
    simp only [Share.more, isSome_some, isSome_none, Bool.toNat_true, Bool.toNat_false,
      Finset.mem_insert, some.injEq, reduceCtorEq, or_false] at hCover ⊢
    rw [show share.records + 1 + share.deleted + 0 = share.records + share.deleted + 1 by omega, hCover]
    grind only
  · rw [Finset.mem_insert, not_or]
    exact ⟨fun hEq => hFree (hEq ▸ hp), h.apart p hp⟩
  · rcases Finset.mem_insert.mp hp with rfl | hOld
    · exact hRow
    · exact h.live_rows p hOld

/-- The row that is out becomes the first one of the deleted rows. -/
theorem release : RowsOk (share.free pos) live (pos :: free) none := by
  obtain ⟨hLive, hFree⟩ := h.out_apart pos rfl
  have hSet := h.setRow { share.rows pos with link := share.delLink, live := false }
  have hRow : (share.free pos).rows pos = ⟨(share.rows pos).record, share.delLink, false⟩ :=
    update_self ..
  refine ⟨⟨rfl, ?_⟩, h.card, by rw [length_cons, h.length]; rfl, fun p => ?_, fun p hp => ?_,
    by simp, hSet.live_rows, fun p hp => ?_⟩
  · rw [Share.links, hRow]
    exact hSet.linked
  · have hCover := h.cover p
    simp only [Share.free, isSome_some, isSome_none, Bool.toNat_true, Bool.toNat_false,
      mem_cons, some.injEq, reduceCtorEq, or_false] at hCover ⊢
    rw [show share.records + (share.deleted + 1) + 0 = share.records + share.deleted + 1 by omega,
      hCover]
    grind only
  · rcases mem_cons.mp hp with rfl | hOld
    · exact hLive
    · exact h.apart p hOld
  · rcases mem_cons.mp hp with rfl | hOld
    · rw [hRow]
    · exact hSet.free_rows p hOld

end

/-- A live row is taken out. -/
theorem less (h : RowsOk share live free none) (hPos : pos ∈ live) :
    RowsOk share.less (live.erase pos) free (some pos) := by
  have hCard : 0 < share.records := h.card ▸ Finset.card_pos.mpr ⟨pos, hPos⟩
  refine ⟨h.linked, ?_, h.length, fun p => ?_, fun p hp hErase => ?_, ?_, fun p hp => ?_, h.free_rows⟩
  · rw [Finset.card_erase_of_mem hPos, h.card]
    rfl
  · have hCover := h.cover p
    simp only [Share.less, isSome_some, isSome_none, Bool.toNat_true, Bool.toNat_false,
      Finset.mem_erase, some.injEq, reduceCtorEq, or_false] at hCover ⊢
    rw [show share.records - 1 + share.deleted + 1 = share.records + share.deleted + 0 by omega, hCover]
    grind only
  · exact h.apart p hp (Finset.mem_of_mem_erase hErase)
  · rintro p ⟨⟩
    exact ⟨Finset.notMem_erase pos live, fun hFree => h.apart pos hFree hPos⟩
  · exact h.live_rows p (Finset.mem_of_mem_erase hp)

/-- The place for a new record. -/
theorem next (h : RowsOk share live free none) : ∃ pos delLink deleted free',
      nextFreeRecordPos share = (pos, { share with delLink, deleted }) ∧
        RowsOk { share with delLink, deleted } live free' (some pos) := by
  have hLinked := h.linked
  have hNodup := hLinked.nodup
  have hLength := h.length
  cases free with
  | nil =>
    have hNone : share.delLink = none := hLinked
    have hCover (p : Nat) : p < share.records + share.deleted ↔ p ∈ live := by simpa using h.cover p
    have hDeleted : share.deleted = 0 := by simpa using hLength.symm
    have hNext : nextFreeRecordPos share = (share.records, share) := by
      rw [nextFreeRecordPos, hNone]
    refine ⟨share.records, share.delLink, share.deleted, [], hNext,
      h.linked, h.card, h.length, fun p => ?_, h.apart, ?_, h.live_rows, h.free_rows⟩
    · simp only [← hCover p, hDeleted, isSome_some, Bool.toNat_true, not_mem_nil,
        false_or, some.injEq]
      omega
    · rintro p ⟨⟩
      rw [← hCover, hDeleted]
      simp
  | cons pos free =>
    obtain ⟨hFirst, hRest⟩ := hLinked
    rw [nodup_cons] at hNodup
    refine ⟨pos, (share.rows pos).link, share.deleted - 1, free,
      by rw [nextFreeRecordPos, hFirst], hRest, h.card, ?_, fun p => ?_,
      fun p hp => h.apart p (mem_cons_of_mem _ hp), ?_, h.live_rows,
      fun p hp => h.free_rows p (mem_cons_of_mem _ hp)⟩
    · simp only [length_cons] at hLength ⊢
      omega
    · have hCover := h.cover p
      simp only [isSome_some, isSome_none, Bool.toNat_true, Bool.toNat_false,
        mem_cons, some.injEq, reduceCtorEq, or_false, length_cons] at hCover hLength ⊢
      rw [show share.records + (share.deleted - 1) + 1 = share.records + share.deleted + 0 by omega,
        hCover]
      grind only
    · rintro p ⟨⟩
      exact ⟨h.apart pos mem_cons_self, hNodup.1⟩

end RowsOk

end MySQL.Heap
