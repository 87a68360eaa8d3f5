import MySQL.Library.Merging
import MySQL.Mysys.QueuesHeap
import MySQL.Sql.Filesort.Merge

/-! The buffers of a merge: each holds the next records of its run in an area of its own,
and the queue has them in the order of their first records. -/
namespace MySQL.Filesort

open Library Queues BinaryHeap Multiset Merge

def Area.Apart (a b : Area) : Prop :=
  a.base + a.maxKeys ≤ b.base ∨ b.base + b.maxKeys ≤ a.base

theorem Area.Apart.symm {a b : Area} (h : a.Apart b) : b.Apart a := Or.symm h

/-- A merge is called with room for every run, reads into the sort buffer only, and its
buffers do not overlap. -/
def Event.Sound (p : SortParam) : Event → Prop
  | .call maxcount => 1 ≤ maxcount
  | .read base count => base + count ≤ p.keys
  | .live areas => areas.Pairwise Area.Apart ∧ ∀ a ∈ areas, a.base + a.maxKeys ≤ p.keys

structure Loaded (p : SortParam) (file : List Record) (bp : Buffpek) : Prop where
  some : 0 < bp.memCount
  low : bp.base ≤ bp.key
  high : bp.key + bp.memCount ≤ bp.base + bp.maxKeys
  room : bp.base + bp.maxKeys ≤ p.keys
  onFile : bp.filePos + bp.count ≤ file.length

theorem Loaded.size {p : SortParam} {file : List Record} {bp : Buffpek} (h : Loaded p file bp) :
    0 < bp.maxKeys := by
  obtain ⟨hSome, hLow, hHigh, -, -⟩ := h
  omega

namespace Merge
variable (p : SortParam) (m : Merge)

def ids : Multiset Nat := Library.cells m.queue.root 1 m.queue.elements

def head (i : Nat) : Record := m.cells (m.buffpek i).key

def stream (i : Nat) : List Record :=
  load m.cells (m.buffpek i).key (m.buffpek i).memCount ++
    (m.fromFile.drop (m.buffpek i).filePos).take (m.buffpek i).count

def remaining (s : Multiset Nat) : Multiset Record := s.bind fun i => (m.stream i : Multiset Record)

structure Buffers (s : Multiset Nat) : Prop where
  nodup : s.Nodup
  loaded : ∀ i ∈ s, Loaded p m.fromFile (m.buffpek i)
  apart : ∀ i ∈ s, ∀ j ∈ s, i ≠ j → (m.buffpek i).area.Apart (m.buffpek j).area
  sorted : ∀ i ∈ s, (m.stream i).Pairwise (keyLe p)

def before (i j : Nat) : Prop := keyLe p (m.head i) (m.head j)

structure Live : Prop where
  buffers : m.Buffers p m.ids
  heap : Ordered (m.before p) m.queue.root m.queue.elements
  minAtTop : m.queue.maxAtTop = 0#32

end Merge

variable {p : SortParam} {m m' : Merge} {i : Nat} {s : Multiset Nat}

theorem Merge.coe_queued : ((m.queued : List Nat) : Multiset Nat) = m.ids := by
  have hSucc (n : Nat) :
      (((List.range n).map fun i => m.queue.root (i + 1) : List Nat) : Multiset Nat) =
        Library.cells m.queue.root 1 n := by
    induction n with
    | zero => rfl
    | succ n ih =>
      rw [cells_succ (by omega), ← ih, List.range_succ, List.map_append, ← coe_add,
        add_comm]
      rfl
  exact hSucc m.queue.elements

theorem Merge.mem_queued : i ∈ m.queued ↔ i ∈ m.ids := by
  rw [← coe_queued, mem_coe]

theorem Merge.card_ids : m.ids.card = m.queue.elements := by
  rw [ids, card_cells, Nat.add_sub_cancel]

theorem Merge.top_mem (h : 0 < m.queue.elements) : queueTop m.queue ∈ m.ids :=
  mem_cells.mpr ⟨1, le_rfl, h, rfl⟩

/-- Cells of the queue with one buffer are one cell. -/
theorem root_inj (h : m.ids.Nodup) {a b : Nat} (ha : 1 ≤ a ∧ a ≤ m.queue.elements)
    (hb : 1 ≤ b ∧ b ≤ m.queue.elements) (hEq : m.queue.root a = m.queue.root b) : a = b := by
  have hMap : ((Finset.Icc 1 m.queue.elements).val.map m.queue.root).Nodup := h
  exact inj_on_of_nodup_map hMap a (by simpa using ha) b (by simpa using hb) hEq

/-- The stream of a loaded buffer starts with its next record. -/
theorem Merge.stream_eq_cons (h : 0 < (m.buffpek i).memCount) :
    m.stream i = m.head i :: (load m.cells ((m.buffpek i).key + 1) ((m.buffpek i).memCount - 1) ++
      (m.fromFile.drop (m.buffpek i).filePos).take (m.buffpek i).count) := by
  have hSplit : (m.buffpek i).memCount = 1 + ((m.buffpek i).memCount - 1) := by omega
  rw [stream, hSplit, load_add, load_one, Nat.add_sub_cancel_left]
  rfl

/-- The top buffer has a least record of all that remain. -/
theorem Merge.Live.head_le (h : m.Live p) {x : Record}
    (hx : x ∈ m.remaining m.ids) : keyLe p (m.head (queueTop m.queue)) x := by
  obtain ⟨j, hj, hxj⟩ := mem_bind.mp hx
  obtain ⟨c, hLow, hHigh, rfl⟩ := mem_cells.mp hj
  have hTop := h.heap.top (fun i => keyLe_refl _) (fun i j k => keyLe_trans _ _ _) c hLow hHigh
  have hSorted := h.buffers.sorted _ hj
  rw [mem_coe, stream_eq_cons (h.buffers.loaded _ hj).some] at hxj
  rw [stream_eq_cons (h.buffers.loaded _ hj).some, List.pairwise_cons] at hSorted
  rcases List.mem_cons.mp hxj with rfl | hTail
  · exact hTop
  · exact keyLe_trans _ _ _ hTop (hSorted.1 x hTail)

/-- All buffers but `i` are as they were. -/
theorem Merge.Buffers.change {t : Multiset Nat} (h : m.Buffers p s) (hNodup : t.Nodup)
    (hFile : m'.fromFile = m.fromFile)
    (hOthers : ∀ j ∈ t, j ≠ i → j ∈ s ∧ m'.buffpek j = m.buffpek j ∧ m'.stream j = m.stream j)
    (hLoaded : i ∈ t → Loaded p m.fromFile (m'.buffpek i))
    (hApart : i ∈ t → ∀ j ∈ t, j ≠ i → (m'.buffpek i).area.Apart (m.buffpek j).area)
    (hSorted : i ∈ t → (m'.stream i).Pairwise (keyLe p)) : m'.Buffers p t := by
  refine ⟨hNodup, fun j hj => ?_, fun j hj k hk hjk => ?_, fun j hj => ?_⟩
  · rw [hFile]
    rcases eq_or_ne j i with rfl | hji
    · exact hLoaded hj
    · obtain ⟨hs, hSame, -⟩ := hOthers j hj hji
      exact hSame ▸ h.loaded j hs
  · rcases eq_or_ne j i with rfl | hji
    · rw [(hOthers k hk hjk.symm).2.1]
      exact hApart hj k hk hjk.symm
    · obtain ⟨hs, hSame, -⟩ := hOthers j hj hji
      rw [hSame]
      rcases eq_or_ne k i with rfl | hki
      · exact (hApart hk j hj hji).symm
      · obtain ⟨ht, hSame', -⟩ := hOthers k hk hki
        exact hSame' ▸ h.apart j hs k ht hjk
  · rcases eq_or_ne j i with rfl | hji
    · exact hSorted hj
    · obtain ⟨hs, -, hSame⟩ := hOthers j hj hji
      exact hSame ▸ h.sorted j hs

/-- The heap depends on the first records of the buffers only. -/
theorem ordered_congr (h : Ordered (m.before p) m.queue.root m.queue.elements)
    (hHead : ∀ j ∈ m.ids, m'.head j = m.head j) :
    Ordered (m'.before p) m.queue.root m.queue.elements := by
  intro a hTwo ha
  rw [before, hHead _ (mem_cells.mpr ⟨a / 2, by omega, by omega, rfl⟩),
    hHead _ (mem_cells.mpr ⟨a, by omega, ha, rfl⟩)]
  exact h a hTwo ha

/-- The order of the queue when it compares through the pointers to the keys. -/
theorem queue_before (hMin : m.queue.maxAtTop = 0#32) :
    Queue.Before { m.queue with compare := m.compare p } = m.before p := by
  funext i j
  simp only [Queue.Before, hMin, if_true]
  rfl

theorem signPreorder_compare : SignPreorder (m.compare p) :=
  (signPreorder_ptrCompare p.sortLength 0).comap fun i => m.cells (m.buffpek i).key

section
variable (hMin : m.queue.maxAtTop = 0#32) (hSome : 0 < m.queue.elements)
  (hExcept : OrderedExcept (m.before p) m.queue.root m.queue.elements 1)
include hMin hSome hExcept

/-- `queue_replaced` restores the heap after the key of the top buffer changed. -/
theorem replaced_spec :
    Ordered (m.before p) (m.onQueue p queueReplaced).queue.root m.queue.elements ∧
      (m.onQueue p queueReplaced).ids = m.ids := by
  have hSift : SiftDown (m.before p) m.queue.root m.queue.elements 1 (m.queue.root 1) :=
    ⟨hExcept, fun hTwo => by omega, fun hTwo => by omega⟩
  rw [← queue_before hMin] at hSift ⊢
  exact downheap_spec signPreorder_compare le_rfl hSome
    (.inl hMin) hSift

/-- `queue_remove` takes the top buffer out of the queue, whatever its key is by then. -/
theorem removed_spec : Ordered (m.before p) (m.onQueue p fun q => (queueRemove q 0).1).queue.root
        (m.queue.elements - 1) ∧
      queueTop m.queue ::ₘ (m.onQueue p fun q => (queueRemove q 0).1).ids = m.ids := by
  rw [← queue_before hMin] at hExcept ⊢
  exact queueRemove_of_except signPreorder_compare hSome
    hExcept (fun hTwo => by omega) (.inl hMin) (fun hOne => by omega)

end

/-- `queue_insert` adds a buffer to the queue. -/
theorem inserted_spec (hMin : m.queue.maxAtTop = 0#32)
    (hHeap : Ordered (m.before p) m.queue.root m.queue.elements) (i : Nat) :
    Ordered (m.before p) (m.onQueue p (queueInsert · i)).queue.root (m.queue.elements + 1) ∧
      (m.onQueue p (queueInsert · i)).ids = i ::ₘ m.ids := by
  rw [← queue_before hMin] at hHeap ⊢
  exact queueInsert_spec signPreorder_compare hHeap i

end MySQL.Filesort
