import MySQL.Sql.Filesort.Buffers

/-! One turn of a merge: the top buffer goes on to its next record, reads more of its run,
or is removed and leaves its area to a neighbour. -/
namespace MySQL.Filesort

open Function List Library Queues BinaryHeap Merge

variable {p : SortParam} {m m' : Merge} {i : Nat} {s : Multiset Nat}

/-- Memory and file are the same as far as the buffer `j` is concerned. -/
theorem stream_congr {j : Nat} (hLoaded : Loaded p m.fromFile (m.buffpek j))
    (hBuffpek : m'.buffpek j = m.buffpek j) (hFile : m'.fromFile = m.fromFile)
    (hCells : ∀ c, (m.buffpek j).base ≤ c → c < (m.buffpek j).base + (m.buffpek j).maxKeys →
      m'.cells c = m.cells c) :
    m'.stream j = m.stream j ∧ m'.head j = m.head j := by
  have hLow := hLoaded.low
  have hHigh := hLoaded.high
  have hSome := hLoaded.some
  constructor
  · rw [stream, stream, hBuffpek, hFile,
      load_congr fun c hc => hCells _ (by omega) (by omega)]
  · rw [Merge.head, hBuffpek]
    exact hCells _ hLow (by omega)

structure Advanced (p : SortParam) (m m' : Merge) (i : Nat) : Prop where
  queue : m'.queue = m.queue
  fromFile : m'.fromFile = m.fromFile
  others : ∀ j ∈ m.ids, j ≠ i → m'.buffpek j = m.buffpek j
  cells : ∀ j ∈ m.ids, j ≠ i → ∀ c, (m.buffpek j).base ≤ c →
    c < (m.buffpek j).base + (m.buffpek j).maxKeys → m'.cells c = m.cells c
  area : (m'.buffpek i).area = (m.buffpek i).area
  loaded : Loaded p m.fromFile (m'.buffpek i)
  stream : m.stream i = m.head i :: m'.stream i

namespace Advanced

section
variable (h : Advanced p m m' i)
include h

theorem same (hLive : m.Buffers p m.ids) {j : Nat} (hj : j ∈ m.ids) (hNe : j ≠ i) :
    m'.stream j = m.stream j ∧ m'.head j = m.head j :=
  stream_congr (hLive.loaded j hj) (h.others j hj hNe) h.fromFile (h.cells j hj hNe)

theorem ids : m'.ids = m.ids := by
  rw [Merge.ids, Merge.ids, h.queue]

theorem buffers (hi : i ∈ m.ids) (hLive : m.Buffers p m.ids) : m'.Buffers p m'.ids := by
  have hSorted := hLive.sorted i hi
  rw [h.stream, pairwise_cons] at hSorted
  rw [h.ids]
  refine hLive.change hLive.nodup h.fromFile (fun j hj hNe => ?_) (fun _ => h.loaded)
    (fun _ j hj hNe => ?_) fun _ => hSorted.2
  · exact ⟨hj, h.others j hj hNe, (h.same hLive hj hNe).1⟩
  · rw [h.area]
    exact hLive.apart i hi j hj hNe.symm

/-- The record that was passed is what the remaining records lost. -/
theorem remaining (hi : i ∈ m.ids) (hLive : m.Buffers p m.ids) :
    m.remaining m.ids = m.head i ::ₘ m'.remaining m'.ids := by
  rw [h.ids]
  obtain ⟨others, hSplit⟩ := Multiset.exists_cons_of_mem hi
  have hNot : i ∉ others := by
    have hNodup := hLive.nodup
    rw [hSplit] at hNodup
    exact (Multiset.nodup_cons.mp hNodup).1
  have hSame : others.bind (fun j => (m'.stream j : Multiset Record)) =
      others.bind fun j => (m.stream j : Multiset Record) := by
    refine Multiset.bind_congr fun j hj => ?_
    rw [(h.same hLive (hSplit ▸ Multiset.mem_cons_of_mem hj) (fun hEq => hNot (hEq ▸ hj))).1]
  rw [Merge.remaining, Merge.remaining, hSplit, Multiset.cons_bind, Multiset.cons_bind, hSame,
    h.stream, ← Multiset.cons_coe, Multiset.cons_add]

end

end Advanced

/-- While only the top buffer moves on, only its place in the heap is open. -/
theorem except_top (h : m.Live p)
    (hHead : ∀ j ∈ m.ids, j ≠ queueTop m.queue → m'.head j = m.head j) :
    OrderedExcept (m'.before p) m.queue.root m.queue.elements 1 := by
  intro a hTwo ha hOne hUp
  have hSame (c : Nat) (hLow : 1 ≤ c) (hHigh : c ≤ m.queue.elements) (hNe : c ≠ 1) :
      m'.head (m.queue.root c) = m.head (m.queue.root c) := by
    refine hHead _ (mem_cells.mpr ⟨c, hLow, hHigh, rfl⟩) fun hEq => hNe ?_
    exact root_inj h.buffers.nodup ⟨hLow, hHigh⟩ ⟨le_rfl, by omega⟩ hEq
  rw [before, hSame (a / 2) (by omega) (by omega) hUp, hSame a (by omega) ha hOne]
  exact h.heap a hTwo ha

structure Passes (p : SortParam) (m m' : Merge) : Prop where
  fromFile : m'.fromFile = m.fromFile
  toFile : m'.toFile = m.toFile
  maxRows : m'.maxRows = m.maxRows
  beyond : ∀ c, p.keys ≤ c → m'.cells c = m.cells c
  outside : ∀ j, j ∉ m.ids → m'.buffpek j = m.buffpek j
  events : ∃ new, m'.events = m.events ++ new ∧ ∀ e ∈ new, e.Sound p

def afterRead (m : Merge) (i : Nat) : Merge :=
  let bp := m.buffpek i
  let count := min bp.maxKeys bp.count
  let m := { m with cells := store m.cells bp.base ((m.fromFile.drop bp.filePos).take count) }
  let m := m.set i { bp with
    key := bp.base
    filePos := bp.filePos + count
    count := bp.count - count
    memCount := count }
  m.note (.read bp.base count)

theorem readToBuffer_zero (h : (m.buffpek i).count = 0) : readToBuffer m i = some (m, 0) := by
  simp [readToBuffer, h]

theorem length_pread (file : List Record) (pos count : Nat) (h : pos + count ≤ file.length) :
    ((file.drop pos).take count).length = count := by
  rw [length_take, length_drop]
  omega

section
variable (hFile : (m.buffpek i).filePos + (m.buffpek i).count ≤ m.fromFile.length)
include hFile

theorem length_stream :
    (m.stream i).length = (m.buffpek i).memCount + (m.buffpek i).count := by
  rw [stream, length_append, length_load, length_pread _ _ _ hFile]

/-- A read gets all it asks for. -/
theorem length_read : ((m.fromFile.drop (m.buffpek i).filePos).take
      (min (m.buffpek i).maxKeys (m.buffpek i).count)).length =
    min (m.buffpek i).maxKeys (m.buffpek i).count :=
  length_pread _ _ _ (by omega)

theorem readToBuffer_pos (hCount : 0 < (m.buffpek i).count) (hRoom : 0 < (m.buffpek i).maxKeys) :
    readToBuffer m i = some (afterRead m i, min (m.buffpek i).maxKeys (m.buffpek i).count) := by
  have hSome : ¬ min (m.buffpek i).maxKeys (m.buffpek i).count = 0 := by omega
  simp only [readToBuffer, if_neg hSome, pread, if_pos (length_read hFile)]
  rfl

/-- What was read and what is left on the file is the run as it was on the file. -/
theorem stream_afterRead : (afterRead m i).stream i =
      (m.fromFile.drop (m.buffpek i).filePos).take (m.buffpek i).count := by
  have hLength := length_read hFile
  simp only [stream, afterRead, note, Merge.set, update_self]
  generalize m.buffpek i = b at *
  have hSplit : b.count = min b.maxKeys b.count + (b.count - min b.maxKeys b.count) := by omega
  conv_rhs => rw [hSplit, take_add, drop_drop]
  rw [load_store_of_length hLength]

/-- A read stays inside the area of the buffer. -/
theorem cells_afterRead {c : Nat}
    (hc : c < (m.buffpek i).base ∨ (m.buffpek i).base + (m.buffpek i).maxKeys ≤ c) :
    (afterRead m i).cells c = m.cells c := by
  have hLength := length_read hFile
  rcases hc with hBelow | hAbove
  · exact store_of_lt hBelow
  · exact store_of_ge (by omega)

end

structure Resized (m m' : Merge) (s : Multiset Nat) : Prop where
  cells : m'.cells = m.cells
  queue : m'.queue = m.queue
  fromFile : m'.fromFile = m.fromFile
  toFile : m'.toFile = m.toFile
  maxRows : m'.maxRows = m.maxRows
  events : m'.events = m.events
  outside : ∀ j, j ∉ s → m'.buffpek j = m.buffpek j
  rest : ∀ j, ∃ a : Area, m'.buffpek j = { m.buffpek j with base := a.base, maxKeys := a.maxKeys }

theorem Resized.refl (m : Merge) (s : Multiset Nat) : Resized m m s :=
  ⟨rfl, rfl, rfl, rfl, rfl, rfl, fun _ _ => rfl, fun j => ⟨(m.buffpek j).area, rfl⟩⟩

theorem Resized.set (hi : i ∈ s) (base maxKeys : Nat) :
    Resized m (m.set i { m.buffpek i with base := base, maxKeys := maxKeys }) s := by
  refine ⟨rfl, rfl, rfl, rfl, rfl, rfl, fun j hj => ?_, fun j => ?_⟩
  · exact update_of_ne (fun hEq : j = i => hj (hEq ▸ hi)) _ _
  · by_cases hEq : j = i
    · exact ⟨⟨base, maxKeys⟩, by simp [Merge.set, hEq]⟩
    · exact ⟨(m.buffpek j).area, update_of_ne hEq _ _⟩

theorem Resized.stream (h : Resized m m' s) (j : Nat) : m'.stream j = m.stream j := by
  obtain ⟨a, hEq⟩ := h.rest j
  rw [Merge.stream, Merge.stream, h.cells, h.fromFile, hEq]

theorem Resized.before (h : Resized m m' s) : m'.before p = m.before p := by
  have hHead (j : Nat) : m'.head j = m.head j := by
    obtain ⟨a, hEq⟩ := h.rest j
    rw [Merge.head, Merge.head, h.cells, hEq]
  funext j k
  rw [Merge.before, Merge.before, hHead, hHead]

/-- A buffer takes an adjacent area that no other buffer has. -/
theorem buffers_enlarge {base maxKeys : Nat} (h : m.Buffers p s) (hi : i ∈ s)
    (hLow : base ≤ (m.buffpek i).base)
    (hHigh : (m.buffpek i).base + (m.buffpek i).maxKeys ≤ base + maxKeys)
    (hRoom : base + maxKeys ≤ p.keys)
    (hApart : ∀ j ∈ s, j ≠ i → (Area.mk base maxKeys).Apart (m.buffpek j).area) :
    (m.set i { m.buffpek i with base := base, maxKeys := maxKeys }).Buffers p s := by
  have hSelf : (m.set i { m.buffpek i with base := base, maxKeys := maxKeys }).buffpek i =
      { m.buffpek i with base := base, maxKeys := maxKeys } := update_self ..
  have hStream := (Resized.set (m := m) hi base maxKeys).stream
  refine h.change (i := i) h.nodup rfl
    (fun j hj hNe => ⟨hj, update_of_ne hNe _ _, hStream j⟩) (fun _ => ?_) (fun _ => ?_) fun _ => ?_
  · obtain ⟨hSome, hBase, hKey, -, hFile⟩ := h.loaded i hi
    rw [hSelf]
    exact ⟨hSome, by dsimp only; omega, by dsimp only; omega, hRoom, hFile⟩
  · rw [hSelf]
    exact hApart
  · rw [hStream]
    exact h.sorted i hi

theorem reuseLoop_spec (reuse : Buffpek) (h : m.Buffers p s)
    (hApart : ∀ j ∈ s, reuse.area.Apart (m.buffpek j).area)
    (hRoom : reuse.base + reuse.maxKeys ≤ p.keys) (l : List Nat) (hl : ∀ j ∈ l, j ∈ s) :
    (reuseLoop reuse l m).Buffers p s ∧ Resized m (reuseLoop reuse l m) s := by
  induction l with
  | nil => exact ⟨h, Resized.refl m s⟩
  | cons i rest ih =>
    have hi : i ∈ s := hl i mem_cons_self
    have hSelf := (h.loaded i hi).room
    have hOthers (j : Nat) (hj : j ∈ s) (hNe : j ≠ i) := h.apart i hi j hj (Ne.symm hNe)
    unfold reuseLoop
    dsimp only
    split_ifs with hBehind hFront
    case neg => exact ih fun j hj => hl j (mem_cons_of_mem i hj)
    -- the area lies behind or before that of `i`
    all_goals
      refine ⟨buffers_enlarge h hi (by omega) (by omega) (by omega) fun j hj hNe => ?_,
        Resized.set hi _ _⟩
      have hFirst := hOthers j hj hNe
      have hSecond := hApart j hj
      have hSize := (h.loaded j hj).size
      simp only [Area.Apart, Buffpek.area] at *
      omega

def moved (m : Merge) (i : Nat) : Merge :=
  m.set i { m.buffpek i with key := (m.buffpek i).key + 1, memCount := (m.buffpek i).memCount - 1 }

theorem moved_self : (moved m i).buffpek i =
    { m.buffpek i with key := (m.buffpek i).key + 1, memCount := (m.buffpek i).memCount - 1 } :=
  update_self ..

theorem moved_of_ne {j : Nat} (h : j ≠ i) : (moved m i).buffpek j = m.buffpek j :=
  update_of_ne h _ _

theorem stream_moved (h : 0 < (m.buffpek i).memCount) :
    m.stream i = m.head i :: (moved m i).stream i := by
  rw [stream_eq_cons h]
  simp only [stream, moved_self]
  rfl

theorem afterRead_of_ne {j : Nat} (h : j ≠ i) : (afterRead m i).buffpek j = m.buffpek j :=
  update_of_ne h _ _

/-- There are more records in memory. -/
theorem advanced_moved (hi : Loaded p m.fromFile (m.buffpek i)) (hMore : 1 < (m.buffpek i).memCount) :
    Advanced p m (moved m i) i := by
  obtain ⟨hSome, hLow, hHigh, hRoom, hFile⟩ := hi
  refine ⟨rfl, rfl, fun j _ hNe => moved_of_ne hNe, fun _ _ _ _ _ _ => rfl, ?_, ?_,
    stream_moved hSome⟩
  · rw [moved_self]
    rfl
  · rw [moved_self]
    exact ⟨by dsimp only; omega, by dsimp only; omega, by dsimp only; omega, hRoom, hFile⟩

/-- The last record in memory is passed and the next ones are read. -/
theorem advanced_afterRead (hLive : m.Buffers p m.ids) (hi : i ∈ m.ids)
    (hLast : (m.buffpek i).memCount = 1) (hCount : 0 < (m.buffpek i).count) :
    Advanced p m (afterRead (moved m i) i) i := by
  have hLoaded := hLive.loaded i hi
  have hSize := hLoaded.size
  obtain ⟨hSome, hLow, hHigh, hRoom, hFile⟩ := hLoaded
  have hFile' : ((moved m i).buffpek i).filePos + ((moved m i).buffpek i).count ≤
      (moved m i).fromFile.length := by
    rw [moved_self]
    exact hFile
  refine ⟨rfl, rfl, fun j _ hNe => ?_, fun j hj hNe c hcLow hcHigh => ?_, ?_, ?_, ?_⟩
  · rw [afterRead_of_ne hNe, moved_of_ne hNe]
  · refine cells_afterRead hFile' ?_
    have hApart := hLive.apart j hj i hi hNe
    rw [moved_self]
    simp only [Area.Apart, Buffpek.area] at hApart ⊢
    omega
  · simp [afterRead, note, Merge.set, moved, Buffpek.area]
  · simp only [afterRead, note, Merge.set, moved, update_self]
    exact ⟨by dsimp only; omega, le_rfl, by dsimp only; omega, hRoom, by dsimp only; omega⟩
  · rw [stream_afterRead hFile']
    simp only [stream, moved_self, hLast]
    rfl

theorem passes_moved (hi : i ∈ m.ids) : Passes p m (moved m i) :=
  ⟨rfl, rfl, rfl, fun _ _ => rfl, fun _ hj => moved_of_ne fun hEq => hj (hEq ▸ hi),
    [], (append_nil _).symm, by simp⟩

theorem passes_afterRead (hi : i ∈ m.ids) (hLoaded : Loaded p m.fromFile (m.buffpek i)) :
    Passes p m (afterRead (moved m i) i) := by
  obtain ⟨hSome, hLow, hHigh, hRoom, hFile⟩ := hLoaded
  have hNe {j : Nat} (hj : j ∉ m.ids) : j ≠ i := fun hEq => hj (hEq ▸ hi)
  refine ⟨rfl, rfl, rfl, fun c hc => ?_, fun j hj => ?_, ⟨_, rfl, ?_⟩⟩
  · have hCells : (afterRead (moved m i) i).cells c = (moved m i).cells c := by
      refine cells_afterRead ?_ (.inr ?_)
      · rw [moved_self]
        exact hFile
      · rw [moved_self]
        exact le_trans hRoom hc
    exact hCells
  · rw [afterRead_of_ne (hNe hj), moved_of_ne (hNe hj)]
  · intro e he
    rw [mem_singleton.mp he, moved_self]
    change (m.buffpek i).base + min (m.buffpek i).maxKeys (m.buffpek i).count ≤ p.keys
    omega

def afterRemoval (p : SortParam) (m : Merge) : Merge :=
  reuseFreedBuff ((moved m (queueTop m.queue)).onQueue p fun q => (queueRemove q 0).1) (queueTop m.queue)

theorem afterRemoval_spec (h : m.Live p) (hTwo : 1 < m.queue.elements)
    (hLast : (m.buffpek (queueTop m.queue)).memCount = 1)
    (hCount : (m.buffpek (queueTop m.queue)).count = 0) :
    (afterRemoval p m).Live p ∧ m.ids = queueTop m.queue ::ₘ (afterRemoval p m).ids ∧
      m.remaining m.ids =
        m.head (queueTop m.queue) ::ₘ (afterRemoval p m).remaining (afterRemoval p m).ids ∧
      (∀ j ∈ (afterRemoval p m).ids, (afterRemoval p m).stream j = m.stream j) ∧
      Passes p m (afterRemoval p m) := by
  set top := queueTop m.queue
  set after := afterRemoval p m
  have hTop : top ∈ m.ids := top_mem (by omega)
  have hHead (j : Nat) (_ : j ∈ m.ids) (hNe : j ≠ top) : (moved m top).head j = m.head j := by
    rw [Merge.head, moved_of_ne hNe]
    rfl
  obtain ⟨hHeap, hIds⟩ := removed_spec (m := moved m top) h.minAtTop
    (show 0 < m.queue.elements by omega) (except_top (m := m) h hHead)
  change top ::ₘ _ = m.ids at hIds
  let removed := (moved m top).onQueue p fun q => (queueRemove q 0).1
  have hNodup := h.buffers.nodup
  rw [← hIds] at hNodup
  have hNot : top ∉ removed.ids := (Multiset.nodup_cons.mp hNodup).1
  have hNe (j : Nat) (hj : j ∈ removed.ids) : j ≠ top := by
    rintro rfl
    exact hNot hj
  have hMem (j : Nat) (hj : j ∈ removed.ids) : j ∈ m.ids := hIds ▸ Multiset.mem_cons_of_mem hj
  have hOther (j : Nat) (hj : j ∈ removed.ids) : removed.buffpek j = m.buffpek j :=
    moved_of_ne (hNe j hj)
  have hStream (j : Nat) (hj : j ∈ removed.ids) : removed.stream j = m.stream j := by
    rw [stream, hOther j hj]
    rfl
  have hRest : removed.Buffers p removed.ids :=
    h.buffers.change (Multiset.nodup_cons.mp hNodup).2 rfl
      (fun j hj _ => ⟨hMem j hj, hOther j hj, hStream j hj⟩) (absurd · hNot) (absurd · hNot)
      (absurd · hNot)
  have hSelf : removed.buffpek top = _ := moved_self
  obtain ⟨hBuffers, hResized⟩ := reuseLoop_spec (removed.buffpek top) hRest
    (fun j hj => by
      rw [hOther j hj, hSelf]
      exact h.buffers.apart _ hTop j (hMem j hj) (hNe j hj).symm)
    (by
      rw [hSelf]
      exact (h.buffers.loaded _ hTop).room)
    removed.queued (fun j => mem_queued.mp)
  change after.Buffers p removed.ids at hBuffers
  change Resized removed after removed.ids at hResized
  have hSame : after.ids = removed.ids := by
    rw [ids, hResized.queue]
    rfl
  refine ⟨⟨hSame ▸ hBuffers, ?_, ?_⟩, by rw [hSame, ← hIds], ?_, fun j hj => ?_, ?_⟩
  · rw [hResized.queue, hResized.before]
    exact hHeap
  · rw [hResized.queue]
    exact h.minAtTop
  · have hDrained : m.stream top = [m.head top] := by
      rw [stream, hLast, hCount, take_zero]
      rfl
    have hOthers : removed.ids.bind (fun j => (after.stream j : Multiset Record)) =
        removed.ids.bind fun j => (m.stream j : Multiset Record) :=
      Multiset.bind_congr fun j hj => by rw [hResized.stream j, hStream j hj]
    rw [hSame, ← hIds, remaining, Multiset.cons_bind, hDrained, remaining, hOthers]
    rfl
  · rw [hResized.stream j, hStream j (hSame ▸ hj)]
  · refine ⟨hResized.fromFile, hResized.toFile, hResized.maxRows, fun c _ => ?_, fun j hj => ?_,
      ⟨[], ?_, by simp⟩⟩
    · rw [hResized.cells]
      rfl
    · rw [hResized.outside j fun hIn => hj (hMem j hIn)]
      exact moved_of_ne fun hEq => hj (hEq ▸ hTop)
    · rw [hResized.events, append_nil]
      rfl

structure Next (p : SortParam) (m m' : Merge) : Prop where
  live : m'.Live p
  some : 0 < m'.queue.elements
  sub : m'.ids ≤ m.ids
  remaining : m.remaining m.ids = m.head (queueTop m.queue) ::ₘ m'.remaining m'.ids
  suffix : ∀ j ∈ m'.ids, m'.stream j <:+ m.stream j
  passes : Passes p m m'

theorem Advanced.next (h : Advanced p m m' (queueTop m.queue)) (hLive : m.Live p)
    (hSome : 0 < m.queue.elements) (hPasses : Passes p m m') :
    Next p m (m'.onQueue p queueReplaced) := by
  have hMin : m'.queue.maxAtTop = 0#32 := by
    rw [h.queue]
    exact hLive.minAtTop
  have hPos : 0 < m'.queue.elements := by rwa [h.queue]
  have hExcept : OrderedExcept (m'.before p) m'.queue.root m'.queue.elements 1 := by
    rw [h.queue]
    exact except_top hLive fun j hj hNe => (h.same hLive.buffers hj hNe).2
  obtain ⟨hHeap, hIds⟩ := replaced_spec hMin hPos hExcept
  have hBuffers := h.buffers (top_mem hSome) hLive.buffers
  have hRemaining : (m'.onQueue p queueReplaced).remaining (m'.onQueue p queueReplaced).ids =
      m'.remaining m'.ids := by
    rw [hIds]
    rfl
  refine ⟨⟨?_, hHeap, hMin⟩, hPos, ?_, ?_, fun j hj => ?_, ?_⟩
  · rw [hIds]
    exact ⟨hBuffers.nodup, hBuffers.loaded, hBuffers.apart, hBuffers.sorted⟩
  · rw [hIds, h.ids]
  · rw [hRemaining]
    exact h.remaining (top_mem hSome) hLive.buffers
  · rw [hIds, h.ids] at hj
    change m'.stream j <:+ _
    by_cases hEq : j = queueTop m.queue
    · rw [hEq, h.stream]
      exact suffix_cons _ _
    · rw [(h.same hLive.buffers hj hEq).1]
  · exact ⟨hPasses.fromFile, hPasses.toFile, hPasses.maxRows, hPasses.beyond, hPasses.outside,
      hPasses.events⟩

theorem decrement_of_pos {n : Nat} (h : 0 < n) : decrement n = n - 1 := if_neg (by omega)

theorem nextKey_spec (h : m.Live p) (hTwo : 1 < m.queue.elements) :
    ∃ m', nextKey p m (queueTop m.queue) = some m' ∧ Next p m m' := by
  set top := queueTop m.queue
  have hTop : top ∈ m.ids := top_mem (by omega)
  have hLoaded := h.buffers.loaded _ hTop
  have hLess : ((moved m top).buffpek top).memCount = (m.buffpek top).memCount - 1 := by rw [moved_self]
  rw [nextKey, decrement_of_pos hLoaded.some, ← moved, hLess]
  by_cases hMore : 1 < (m.buffpek top).memCount
  · rw [if_neg (by omega)]
    exact ⟨_, rfl, (advanced_moved hLoaded hMore).next h (by omega) (passes_moved hTop)⟩
  · have hLast : (m.buffpek top).memCount = 1 := by
      have hSome := hLoaded.some
      omega
    rw [if_pos (by omega)]
    have hCount : ((moved m top).buffpek top).count = (m.buffpek top).count := by rw [moved_self]
    by_cases hFile : (m.buffpek top).count = 0
    · rw [readToBuffer_zero (hCount.trans hFile)]
      obtain ⟨hLive, hIds, hRemaining, hStreams, hPasses⟩ := afterRemoval_spec h hTwo hLast hFile
      refine ⟨_, rfl, hLive, ?_, ?_, hRemaining, fun j hj => ?_, hPasses⟩
      · have hCard := congrArg Multiset.card hIds
        rw [Multiset.card_cons, card_ids, card_ids] at hCard
        exact (by omega : 0 < (afterRemoval p m).queue.elements)
      · rw [hIds]
        exact Multiset.le_cons_self _ _
      · exact hStreams j hj ▸ suffix_rfl
    · have hRead := readToBuffer_pos
        (by rw [moved_self]; exact hLoaded.onFile) (by rw [hCount]; omega)
        (by rw [moved_self]; exact hLoaded.size)
      have hPos : 0 < min (m.buffpek top).maxKeys (m.buffpek top).count := by
        have hSize := hLoaded.size
        omega
      obtain ⟨n, hn⟩ := Nat.exists_eq_succ_of_ne_zero hPos.ne'
      rw [hRead, moved_self]
      rw [hn]
      exact ⟨_, rfl, (advanced_afterRead h.buffers hTop hLast (by omega)).next h (by omega)
        (passes_afterRead hTop hLoaded)⟩

end MySQL.Filesort
