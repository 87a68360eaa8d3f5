import MySQL.Sql.Filesort.Turns

/-! The loops of `merge_buffers`: the turns over the queue, with or without the removal of
duplicates, and the copy of the last run. -/
namespace MySQL.Filesort

open Function List Library Queues BinaryHeap Merge

variable {p : SortParam} {m m' : Merge} {i : Nat} {flag : Bool}

def Noted (p : SortParam) (m m' : Merge) : Prop :=
  ∃ new, m'.events = m.events ++ new ∧ ∀ e ∈ new, e.Sound p

theorem Noted.refl (p : SortParam) (m : Merge) : Noted p m m :=
  ⟨[], (append_nil _).symm, by simp⟩

theorem Noted.trans {m'' : Merge} (hFirst : Noted p m m') (hSecond : Noted p m' m'') :
    Noted p m m'' := by
  obtain ⟨first, hFirst, hSound⟩ := hFirst
  obtain ⟨second, hSecond, hSound'⟩ := hSecond
  refine ⟨first ++ second, by rw [hSecond, hFirst, append_assoc], fun e he => ?_⟩
  exact (mem_append.mp he).elim (hSound e) (hSound' e)

theorem Noted.note {e : Event} (h : e.Sound p) : Noted p m (m.note e) :=
  ⟨[e], rfl, fun _ he => mem_singleton.mp he ▸ h⟩

structure Since (p : SortParam) (s : Multiset Nat) (m m' : Merge) : Prop where
  fromFile : m'.fromFile = m.fromFile
  outside : ∀ j, j ∉ s → m'.buffpek j = m.buffpek j
  noted : Noted p m m'

namespace Since
variable {s : Multiset Nat}

theorem refl (p : SortParam) (s : Multiset Nat) (m : Merge) : Since p s m m :=
  ⟨rfl, fun _ _ => rfl, Noted.refl p m⟩

theorem trans {m'' : Merge} (hFirst : Since p s m m') (hSecond : Since p s m' m'') :
    Since p s m m'' :=
  ⟨hSecond.fromFile.trans hFirst.fromFile,
    fun j hj => (hSecond.outside j hj).trans (hFirst.outside j hj), hFirst.noted.trans hSecond.noted⟩

theorem mono {t : Multiset Nat} (h : Since p s m m') (hSub : s ≤ t) : Since p t m m' :=
  ⟨h.fromFile, fun j hj => h.outside j fun hIn => hj (Multiset.mem_of_le hSub hIn), h.noted⟩

end Since

theorem Passes.since (h : Passes p m m') : Since p m.ids m m' := ⟨h.fromFile, h.outside, h.events⟩

/-- Memory behind the sort buffer, output and notes do not matter to the buffers. -/
theorem Merge.Live.congr (h : m.Live p) (m' : Merge) (hQueue : m'.queue = m.queue) (hBuffpek : m'.buffpek = m.buffpek)
    (hFile : m'.fromFile = m.fromFile) (hCells : ∀ c, c < p.keys → m'.cells c = m.cells c) :
    m'.Live p ∧ m'.remaining m'.ids = m.remaining m.ids ∧
      ∀ j ∈ m.ids, m'.stream j = m.stream j ∧ m'.head j = m.head j := by
  have hIds : m'.ids = m.ids := by rw [ids, hQueue, ids]
  have hSame (j : Nat) (hj : j ∈ m.ids) : m'.stream j = m.stream j ∧ m'.head j = m.head j := by
    have hLoaded := h.buffers.loaded j hj
    have hRoom := hLoaded.room
    exact stream_congr hLoaded (by rw [hBuffpek]) hFile fun c _ hc => hCells c (by omega)
  refine ⟨⟨?_, ?_, by rw [hQueue, h.minAtTop]⟩, ?_, hSame⟩
  · rw [hIds]
    refine ⟨h.buffers.nodup, ?_, ?_, fun j hj => ?_⟩
    · rw [hFile, hBuffpek]
      exact h.buffers.loaded
    · rw [hBuffpek]
      exact h.buffers.apart
    · rw [(hSame j hj).1]
      exact h.buffers.sorted j hj
  · rw [hQueue]
    exact ordered_congr h.heap fun j hj => (hSame j hj).2
  · rw [hIds]
    exact Multiset.bind_congr fun j hj => by rw [(hSame j hj).1]

/-- The areas of the buffers in the queue do not overlap. -/
theorem sound_live (h : m.Live p) : (Event.live m.areas).Sound p := by
  constructor
  · rw [areas, pairwise_map]
    have hNodup : m.queued.Nodup := by
      rw [← Multiset.coe_nodup, coe_queued]
      exact h.buffers.nodup
    refine hNodup.imp_of_mem fun {j k} hj hk hNe => ?_
    exact h.buffers.apart j (mem_queued.mp hj) k (mem_queued.mp hk) hNe
  · intro a ha
    obtain ⟨j, hj, rfl⟩ := mem_map.mp ha
    exact (h.buffers.loaded j (mem_queued.mp hj)).room

structure Turned (p : SortParam) (flag : Bool) (m m' : Merge) (ended : Bool) (x : Record) : Prop where
  skipped : isDuplicate p m (m.buffpek (queueTop m.queue)).key = true →
    ended = false ∧ m'.toFile = m.toFile ∧ m'.maxRows = m.maxRows ∧
      ∀ u, p.uniqueBuff = some u → m'.cells u = m.cells u
  output : isDuplicate p m (m.buffpek (queueTop m.queue)).key = false →
    (ended = true ↔ m.maxRows = 1) ∧ m'.toFile = m.toFile ++ [written p flag x] ∧
      m'.maxRows = m.maxRows - 1 ∧ ∀ u, p.uniqueBuff = some u → m'.cells u = x
  remaining : ∃ rest, m.remaining m.ids = x ::ₘ rest ∧
    (ended = false → rest = m'.remaining m'.ids ∧ m'.Live p ∧ 0 < m'.queue.elements ∧ m'.ids ≤ m.ids)
  suffix : ended = false → ∀ j ∈ m'.ids, m'.stream j <:+ m.stream j
  since : Since p m.ids m m'

theorem turn_spec (flag : Bool) (h : m.Live p) (hTwo : 1 < m.queue.elements) (hRows : 0 < m.maxRows)
    (hUnique : ∀ u, p.uniqueBuff = some u → p.keys ≤ u) :
    ∃ m' ended, turn p flag m = some (m', ended) ∧
      Turned p flag m m' ended (m.head (queueTop m.queue)) := by
  have hTop : queueTop m.queue ∈ m.ids := top_mem (by omega)
  let noted := m.note (.live m.areas)
  have hNoted : Since p m.ids m noted := ⟨rfl, fun _ _ => rfl, Noted.note (sound_live h)⟩
  obtain ⟨hLive, -⟩ := h.congr noted rfl rfl rfl fun _ _ => rfl
  by_cases hDup : isDuplicate p m (m.buffpek (queueTop m.queue)).key
  · obtain ⟨m', hNext, hResult⟩ := nextKey_spec hLive hTwo
    refine ⟨m', false, ?_, ⟨fun _ => ⟨rfl, hResult.passes.toFile, hResult.passes.maxRows, fun u hu =>
      hResult.passes.beyond u (hUnique u hu)⟩, fun hNot => ?_, ⟨_, hResult.remaining, fun _ =>
      ⟨rfl, hResult.live, hResult.some, hResult.sub⟩⟩, fun _ => hResult.suffix,
      hNoted.trans hResult.passes.since⟩⟩
    · exact (if_pos hDup).trans (congrArg _ hNext)
    · rw [hDup] at hNot
      exact absurd hNot (by decide)
  · let wrote := writeKey p flag noted (m.buffpek (queueTop m.queue)).key
    have hCells : ∀ c, c < p.keys → wrote.cells c = m.cells c := by
      intro c hc
      cases hu : p.uniqueBuff with
      | none => simp only [wrote, writeKey, hu]; rfl
      | some u =>
        have hBound := hUnique u hu
        simp only [wrote, writeKey, hu]
        exact update_of_ne (by omega) _ _
    have hUniqueCell : ∀ u, p.uniqueBuff = some u → wrote.cells u = m.head (queueTop m.queue) := by
      intro u hu
      simp only [wrote, writeKey, hu]
      exact update_self ..
    obtain ⟨hLive', hRemaining, hHead⟩ := h.congr wrote rfl rfl rfl hCells
    have hWrote : Since p m.ids m wrote := ⟨rfl, fun _ _ => rfl, hNoted.noted⟩
    have hDecrement : wrote.maxRows = m.maxRows - 1 := decrement_of_pos hRows
    have hTurn : turn p flag m = if wrote.maxRows = 0 then some (wrote, true)
        else (nextKey p wrote (queueTop m.queue)).map fun m => (m, false) := if_neg hDup
    rw [hTurn]
    by_cases hEnd : wrote.maxRows = 0
    · rw [if_pos hEnd]
      have hMem : m.head (queueTop m.queue) ∈ m.remaining m.ids := by
        refine Multiset.mem_bind.mpr ⟨_, hTop, ?_⟩
        rw [Multiset.mem_coe, stream_eq_cons (h.buffers.loaded _ hTop).some]
        exact mem_cons_self
      obtain ⟨rest, hRest⟩ := Multiset.exists_cons_of_mem hMem
      refine ⟨wrote, true, rfl, ⟨fun hYes => absurd hYes hDup, fun _ => ⟨?_, rfl, hDecrement, hUniqueCell⟩,
        ⟨rest, hRest, fun hNo => by simp at hNo⟩, fun hNo => by simp at hNo, hWrote⟩⟩
      simp only [true_iff]
      omega
    · rw [if_neg hEnd]
      obtain ⟨m', hNext, hResult⟩ := nextKey_spec hLive' hTwo
      have hPasses := hResult.passes
      refine ⟨m', false, congrArg _ hNext, ⟨fun hYes => absurd hYes hDup, fun _ => ⟨?_,
        hPasses.toFile, hPasses.maxRows.trans hDecrement, fun u hu => ?_⟩, ⟨m'.remaining m'.ids, ?_,
        fun _ => ⟨rfl, hResult.live, hResult.some, hResult.sub⟩⟩, fun _ j hj => ?_,
        hWrote.trans hPasses.since⟩⟩
      · simp only [Bool.false_eq_true, false_iff]
        omega
      · rw [hPasses.beyond u (hUnique u hu), hUniqueCell u hu]
      · rw [← hRemaining, hResult.remaining]
        exact congrArg (· ::ₘ _) (hHead _ hTop).2
      · rw [← (hHead j (Multiset.mem_of_le hResult.sub hj)).1]
        exact hResult.suffix j hj

/-- One run is left: it is what remains. -/
theorem remaining_single (hOne : m.queue.elements = 1) :
    m.ids = {queueTop m.queue} ∧ m.remaining m.ids = (m.stream (queueTop m.queue) : Multiset Record) := by
  have hIds : m.ids = {queueTop m.queue} := by
    rw [ids, hOne]
    rfl
  exact ⟨hIds, by rw [hIds, remaining, Multiset.singleton_bind]⟩

structure Whole (p : SortParam) (m : Merge) (i : Nat) : Prop where
  base : (m.buffpek i).base = 0
  maxKeys : (m.buffpek i).maxKeys = p.keys
  onFile : (m.buffpek i).filePos + (m.buffpek i).count ≤ m.fromFile.length

def took (p : SortParam) (m : Merge) (i : Nat) : Merge :=
  m.set i { m.buffpek i with base := 0, maxKeys := p.keys }

theorem took_self : (took p m i).buffpek i = { m.buffpek i with base := 0, maxKeys := p.keys } :=
  update_self ..

theorem stream_took : (took p m i).stream i = m.stream i := by
  rw [stream, took_self]
  rfl

theorem whole_took (h : Loaded p m.fromFile (m.buffpek i)) : Whole p (took p m i) i := by
  refine ⟨by rw [took_self], by rw [took_self], ?_⟩
  rw [took_self]
  exact h.onFile

theorem since_took : Since p {i} m (took p m i) :=
  ⟨rfl, fun _ hj => update_of_ne (fun hEq => hj (Multiset.mem_singleton.mpr hEq)) _ _,
    Noted.refl p m⟩

theorem startLast_eq (h : 0 < (m.buffpek i).memCount) : startLast p m i =
    if isDuplicate p m (m.buffpek i).key then moved (took p m i) i else took p m i := by
  have hSame : isDuplicate p (took p m i) ((took p m i).buffpek i).key =
      isDuplicate p m (m.buffpek i).key := by
    rw [took_self]
    rfl
  have hPos : 0 < ((took p m i).buffpek i).memCount := by
    rw [took_self]
    exact h
  rw [startLast, ← took, hSame, decrement_of_pos hPos]
  rfl

def copied (p : SortParam) (flag : Bool) (m : Merge) (i : Nat) (bp : Buffpek) : Merge :=
  let m := m.note (.live [(m.buffpek i).area])
  let m := { m with maxRows := m.maxRows - bp.memCount }
  let m := m.set i bp
  { m with toFile := m.toFile ++ (load m.cells bp.key bp.memCount).map (written p flag) }

theorem copied_self (bp : Buffpek) : (copied p flag m i bp).buffpek i = bp := update_self ..

theorem since_copied (flag : Bool) (h : Whole p m i) (bp : Buffpek) : Since p {i} m (copied p flag m i bp) := by
  have hSound : (Event.live [(m.buffpek i).area]).Sound p := by
    refine ⟨pairwise_singleton _ _, fun a ha => ?_⟩
    rw [mem_singleton.mp ha]
    change (m.buffpek i).base + (m.buffpek i).maxKeys ≤ p.keys
    rw [h.base, h.maxKeys, zero_add]
  refine ⟨rfl, fun j hj => ?_, Noted.note hSound⟩
  exact update_of_ne (fun hEq : j = i => hj (Multiset.mem_singleton.mpr hEq)) _ _

theorem since_afterRead (hBase : (m.buffpek i).base = 0) (hMax : (m.buffpek i).maxKeys = p.keys) :
    Since p {i} m (afterRead m i) := by
  refine ⟨rfl, fun j hj => ?_, Noted.note ?_⟩
  · exact afterRead_of_ne fun hEq => hj (Multiset.mem_singleton.mpr hEq)
  · change (m.buffpek i).base + min (m.buffpek i).maxKeys (m.buffpek i).count ≤ p.keys
    omega

theorem lastLoop_succ (fuel : Nat) (m : Merge) : lastLoop p flag i (fuel + 1) m =
    match readToBuffer (copied p flag m i (if m.maxRows < (m.buffpek i).memCount then
      { m.buffpek i with memCount := m.maxRows, count := 0 } else m.buffpek i)) i with
    | none => none
    | some (m, 0) => some m
    | some (m, _ + 1) => lastLoop p flag i fuel m := rfl

/-- The rest of the last run is copied as far as rows are wanted. -/
theorem lastLoop_spec (flag : Bool) (hKeys : 0 < p.keys) (fuel : Nat) (m : Merge) (h : Whole p m i)
    (hFuel : (m.buffpek i).count < fuel) :
    ∃ m', lastLoop p flag i fuel m = some m' ∧
      m'.toFile = m.toFile ++ ((m.stream i).take m.maxRows).map (written p flag) ∧
      m'.maxRows = m.maxRows - (m.stream i).length ∧ Since p {i} m m' := by
  induction fuel generalizing m with
  | zero => omega
  | succ fuel ih =>
    have hSince := since_copied flag h
    obtain ⟨hBase, hMax, hFile⟩ := h
    rw [lastLoop_succ, stream]
    generalize m.buffpek i = b at *
    have hLength : (load m.cells b.key b.memCount).length = b.memCount := length_load _ _ _
    by_cases hCut : m.maxRows < b.memCount
    · -- the rows end within the records in memory
      rw [if_pos hCut, readToBuffer_zero (by rw [copied_self])]
      refine ⟨_, rfl, ?_, ?_, hSince _⟩
      · have hTake : (load m.cells b.key b.memCount).take m.maxRows = load m.cells b.key m.maxRows := by
          rw [← Nat.add_sub_cancel' hCut.le, load_add, take_append_of_le_length (by rw [length_load])]
          exact take_of_length_le (by rw [length_load])
        rw [take_append_of_le_length (by omega), hTake]
        rfl
      · change m.maxRows - m.maxRows = _
        rw [length_append, hLength]
        omega
    · rw [if_neg hCut]
      have hSelf : (copied p flag m i b).buffpek i = b := copied_self _
      by_cases hCount : b.count = 0
      · rw [readToBuffer_zero (by rw [hSelf, hCount]), hCount, take_zero, append_nil]
        refine ⟨_, rfl, ?_, ?_, hSince b⟩
        · rw [take_of_length_le (by omega)]
          rfl
        · rw [hLength]
          rfl
      · have hRead := readToBuffer_pos
          (by rw [hSelf]; exact hFile) (by rw [hSelf]; omega) (by rw [hSelf]; omega)
        have hStream := stream_afterRead (by rw [hSelf]; exact hFile)
        rw [hSelf] at hRead hStream
        obtain ⟨n, hn⟩ : ∃ n, min b.maxKeys b.count = n + 1 :=
          Nat.exists_eq_succ_of_ne_zero (by omega)
        rw [hRead, hn]
        have hNext : (afterRead (copied p flag m i b) i).buffpek i = { b with
              key := b.base
              filePos := b.filePos + (n + 1)
              count := b.count - (n + 1)
              memCount := n + 1 } := by
          rw [← hn]
          simp only [afterRead, hSelf]
          exact update_self ..
        have hWhole : Whole p (afterRead (copied p flag m i b) i) i := by
          refine ⟨?_, ?_, ?_⟩ <;> rw [hNext]
          · exact hBase
          · exact hMax
          · change b.filePos + (n + 1) + (b.count - (n + 1)) ≤ m.fromFile.length
            omega
        obtain ⟨m', hLoop, hTo, hRows, hSince'⟩ := ih _ hWhole (by rw [hNext]; dsimp only; omega)
        have hRead' := since_afterRead
          (by rw [hSelf]; exact hBase) (by rw [hSelf]; exact hMax)
        rw [hStream] at hTo hRows
        change m'.toFile = (m.toFile ++ (load m.cells b.key b.memCount).map (written p flag)) ++
          (take (m.maxRows - b.memCount) ((m.fromFile.drop b.filePos).take b.count)).map
            (written p flag) at hTo
        change m'.maxRows = m.maxRows - b.memCount - ((m.fromFile.drop b.filePos).take b.count).length
          at hRows
        refine ⟨m', hLoop, ?_, ?_, ((hSince b).trans hRead').trans hSince'⟩
        · rw [hTo, take_append, hLength, take_of_length_le (l := load ..) (by omega), map_append, append_assoc]
        · rw [hRows, length_append, hLength]
          omega

end MySQL.Filesort
