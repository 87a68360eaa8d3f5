import MySQL.Sql.Filesort.Loops

/-! The start of a merge: every run gets a part of the sort buffer and a place in the queue. -/
namespace MySQL.Filesort

open List Library Queues BinaryHeap Merge

variable {p : SortParam} {m m' : Merge} {i maxcount strpos : Nat}

/-- The records of a run that are still in the file. -/
def Merge.run (m : Merge) (j : Nat) : List Record :=
  (m.fromFile.drop (m.buffpek j).filePos).take (m.buffpek j).count

/-- A run that can be merged: it has records, they are in the file, and they are in order. -/
structure SortedRun (p : SortParam) (m : Merge) (j : Nat) : Prop where
  some : 0 < (m.buffpek j).count
  onFile : (m.buffpek j).filePos + (m.buffpek j).count ≤ m.fromFile.length
  sorted : (m.run j).Pairwise (keyLe p)

theorem SortedRun.length (h : SortedRun p m i) : (m.run i).length = (m.buffpek i).count :=
  length_pread _ _ _ h.onFile

/-- The run has a part of the sort buffer and has read nothing. -/
def placed (m : Merge) (i strpos maxcount : Nat) : Merge :=
  m.set i { m.buffpek i with base := strpos, maxKeys := maxcount }

theorem placed_self : (placed m i strpos maxcount).buffpek i =
    { m.buffpek i with base := strpos, maxKeys := maxcount } := Function.update_self ..

/-- The run after its first read. Its part of the buffer ends behind what was read. -/
def filled (m : Merge) (i strpos maxcount : Nat) : Merge :=
  let m := afterRead (placed m i strpos maxcount) i
  m.set i { m.buffpek i with maxKeys := (m.buffpek i).memCount }

theorem filled_self : (filled m i strpos maxcount).buffpek i =
    { filePos := (m.buffpek i).filePos + min maxcount (m.buffpek i).count
      base := strpos
      key := strpos
      count := (m.buffpek i).count - min maxcount (m.buffpek i).count
      memCount := min maxcount (m.buffpek i).count
      maxKeys := min maxcount (m.buffpek i).count } := by
  simp [filled, afterRead, placed, Merge.set, note]

theorem filled_of_ne {j : Nat} (h : j ≠ i) : (filled m i strpos maxcount).buffpek j = m.buffpek j := by
  simp [filled, afterRead, placed, Merge.set, note, h]

/-- The first read moves the records of the run from the file to the buffer. -/
theorem stream_filled (h : SortedRun p m i) : (filled m i strpos maxcount).stream i = m.run i := by
  have hFile : ((placed m i strpos maxcount).buffpek i).filePos +
      ((placed m i strpos maxcount).buffpek i).count ≤ (placed m i strpos maxcount).fromFile.length := by
    rw [placed_self]
    exact h.onFile
  have hRead := stream_afterRead hFile
  rw [placed_self] at hRead
  refine Eq.trans ?_ hRead
  simp [stream, filled, Merge.set]

/-- The first read writes only into the part of the run. -/
theorem cells_filled (h : SortedRun p m i) {c : Nat} (hc : c < strpos ∨ strpos + maxcount ≤ c) :
    (filled m i strpos maxcount).cells c = m.cells c := by
  have hRead : (afterRead (placed m i strpos maxcount) i).cells c =
      (placed m i strpos maxcount).cells c := by
    refine cells_afterRead ?_ ?_
    · rw [placed_self]
      exact h.onFile
    · rw [placed_self]
      exact hc
  exact hRead

/-- One turn of the loop over the runs. -/
theorem fillLoop_cons (h : SortedRun p m i) (hMax : 0 < maxcount) (rest : List Nat) :
    fillLoop p maxcount (i :: rest) strpos m =
      fillLoop p maxcount rest (strpos + min maxcount (m.buffpek i).count)
        ((filled m i strpos maxcount).onQueue p (queueInsert · i)) := by
  have hRead := readToBuffer_pos (m := placed m i strpos maxcount)
    (by rw [placed_self]; exact h.onFile) (by rw [placed_self]; exact h.some)
    (by rw [placed_self]; exact hMax)
  rw [fillLoop, ← placed, hRead, placed_self]
  rfl

/-- The runs that have a place are ready, and their parts end where the next one begins. -/
structure Filling (p : SortParam) (m : Merge) (strpos : Nat) : Prop where
  live : m.Live p
  below : ∀ j ∈ m.ids, (m.buffpek j).base + (m.buffpek j).maxKeys ≤ strpos

/-- One more run is ready. -/
theorem Filling.insert (h : Filling p m strpos) (hNew : i ∉ m.ids) (hRun : SortedRun p m i)
    (hMax : 0 < maxcount) (hRoom : strpos + maxcount ≤ p.keys) :
    Filling p ((filled m i strpos maxcount).onQueue p (queueInsert · i))
        (strpos + min maxcount (m.buffpek i).count) ∧
      ((filled m i strpos maxcount).onQueue p (queueInsert · i)).ids = i ::ₘ m.ids ∧
      ((filled m i strpos maxcount).onQueue p (queueInsert · i)).remaining (i ::ₘ m.ids) =
        (m.run i : Multiset Record) + m.remaining m.ids ∧
      ∀ j ∈ m.ids, ((filled m i strpos maxcount).onQueue p (queueInsert · i)).stream j = m.stream j := by
  set f := filled m i strpos maxcount
  have hNe (j : Nat) (hj : j ∈ m.ids) : j ≠ i := fun hEq => hNew (hEq ▸ hj)
  have hSome := hRun.some
  have hFile := hRun.onFile
  have hSame (j : Nat) (hj : j ∈ m.ids) : f.stream j = m.stream j ∧ f.head j = m.head j := by
    have hBelow := h.below j hj
    exact stream_congr (h.live.buffers.loaded j hj) (filled_of_ne (hNe j hj)) rfl
      fun c _ hc => cells_filled hRun (.inl (by omega))
  have hHeap := ordered_congr h.live.heap fun j hj => (hSame j hj).2
  obtain ⟨hHeap', hIds⟩ := inserted_spec (m := f) h.live.minAtTop hHeap i
  have hBuffers : f.Buffers p (i ::ₘ m.ids) := by
    have hOld (j : Nat) (hj : j ∈ i ::ₘ m.ids) (hji : j ≠ i) : j ∈ m.ids :=
      (Multiset.mem_cons.mp hj).resolve_left hji
    refine h.live.buffers.change (i := i) (Multiset.nodup_cons.mpr ⟨hNew, h.live.buffers.nodup⟩) rfl
      (fun j hj hji => ⟨hOld j hj hji, filled_of_ne hji, (hSame j (hOld j hj hji)).1⟩)
      (fun _ => ?_) (fun _ j hj hji => ?_) fun _ => ?_
    · rw [filled_self]
      exact ⟨by dsimp only; omega, le_rfl, le_rfl, by dsimp only; omega, by dsimp only; omega⟩
    · rw [filled_self]
      exact .inr (h.below j (hOld j hj hji))
    · rw [stream_filled hRun]
      exact hRun.sorted
  refine ⟨⟨⟨?_, hHeap', h.live.minAtTop⟩, fun j hj => ?_⟩, hIds, ?_, fun j hj => (hSame j hj).1⟩
  · rw [hIds]
    exact ⟨hBuffers.nodup, hBuffers.loaded, hBuffers.apart, hBuffers.sorted⟩
  · rw [hIds] at hj
    change (f.buffpek j).base + (f.buffpek j).maxKeys ≤ _
    rcases Multiset.mem_cons.mp hj with rfl | hj
    · rw [filled_self]
    · rw [filled_of_ne (hNe j hj)]
      exact le_trans (h.below j hj) (Nat.le_add_right _ _)
  · change (i ::ₘ m.ids).bind (fun j => (f.stream j : Multiset Record)) = _
    rw [Multiset.cons_bind, stream_filled hRun, remaining,
      Multiset.bind_congr fun j hj => by rw [(hSame j hj).1]]

/-- What one turn of the loop changes. -/
theorem since_filled (hRoom : strpos + maxcount ≤ p.keys) :
    Since p {i} m ((filled m i strpos maxcount).onQueue p (queueInsert · i)) := by
  refine ⟨rfl, fun j hj => filled_of_ne fun hEq => hj (Multiset.mem_singleton.mpr hEq), ?_⟩
  have hNoted : Noted p m (afterRead (placed m i strpos maxcount) i) := by
    refine Noted.note ?_
    rw [placed_self]
    change strpos + min maxcount (m.buffpek i).count ≤ p.keys
    omega
  exact hNoted

/-- The runs of `l` have joined those that were in the queue. -/
structure Filled (p : SortParam) (maxcount : Nat) (l : List Nat) (m m' : Merge) : Prop where
  live : m'.Live p
  ids : m'.ids = (l : Multiset Nat) + m.ids
  remaining : m'.remaining m'.ids =
    (l : Multiset Nat).bind (fun j => (m.run j : Multiset Record)) + m.remaining m.ids
  since : Since p (l : Multiset Nat) m m'
  toFile : m'.toFile = m.toFile
  maxRows : m'.maxRows = m.maxRows
  kept : ∀ j ∈ m.ids, m'.stream j = m.stream j
  each : ∀ j ∈ l, m'.stream j = m.run j ∧
    (m'.buffpek j).memCount = min maxcount (m.buffpek j).count

/-- All runs find room if each can have `maxcount` records. -/
theorem fillLoop_spec (hMax : 0 < maxcount) (l : List Nat) (m : Merge) (strpos : Nat)
    (h : Filling p m strpos) (hNodup : l.Nodup) (hNew : ∀ j ∈ l, j ∉ m.ids)
    (hRuns : ∀ j ∈ l, SortedRun p m j) (hRoom : strpos + l.length * maxcount ≤ p.keys) :
    ∃ m', fillLoop p maxcount l strpos m = some m' ∧ Filled p maxcount l m m' := by
  induction l generalizing m strpos with
  | nil =>
    exact ⟨m, rfl, h.live, by simp, by simp, Since.refl p _ m, rfl, rfl, fun _ _ => rfl, by simp⟩
  | cons i rest ih =>
    have hSelf := hRuns i mem_cons_self
    obtain ⟨hNot, hRest⟩ := nodup_cons.mp hNodup
    rw [length_cons, Nat.succ_mul] at hRoom
    have hRoom' : strpos + maxcount ≤ p.keys := by omega
    have hSmaller : min maxcount (m.buffpek i).count ≤ maxcount := Nat.min_le_left _ _
    obtain ⟨hFilling, hIds, hRemaining, hKept⟩ := h.insert (hNew i mem_cons_self) hSelf hMax hRoom'
    have hKeep (j : Nat) (hj : j ∈ rest) :
        ((filled m i strpos maxcount).onQueue p (queueInsert · i)).buffpek j = m.buffpek j :=
      filled_of_ne fun hEq => hNot (hEq ▸ hj)
    have hRun (j : Nat) (hj : j ∈ rest) :
        ((filled m i strpos maxcount).onQueue p (queueInsert · i)).run j = m.run j := by
      rw [run, hKeep j hj]
      rfl
    obtain ⟨m', hLoop, hFilled⟩ := ih _ _ hFilling hRest
      (fun j hj hIn => by
        rw [hIds] at hIn
        rcases Multiset.mem_cons.mp hIn with hEq | hIn
        · exact hNot (hEq ▸ hj)
        · exact hNew j (mem_cons_of_mem i hj) hIn)
      (fun j hj => by
        obtain ⟨hSome, hFile, hSorted⟩ := hRuns j (mem_cons_of_mem i hj)
        refine ⟨?_, ?_, ?_⟩
        · rwa [hKeep j hj]
        · rw [hKeep j hj]
          exact hFile
        · rwa [hRun j hj])
      (by omega)
    refine ⟨m', ?_, hFilled.live, ?_, ?_, ?_, hFilled.toFile, hFilled.maxRows, fun j hj => ?_,
      fun j hj => ?_⟩
    · rw [fillLoop_cons hSelf hMax, hLoop]
    · rw [hFilled.ids, hIds, ← Multiset.cons_coe, Multiset.cons_add, Multiset.add_cons]
    · rw [hFilled.remaining, hIds, hRemaining, ← Multiset.cons_coe, Multiset.cons_bind,
        Multiset.bind_congr fun j hj => by rw [hRun j hj], add_left_comm, add_assoc]
    · refine Since.trans ((since_filled hRoom').mono ?_) (hFilled.since.mono ?_)
      · rw [Multiset.singleton_le]
        exact mem_cons_self
      · rw [← Multiset.cons_coe]
        exact Multiset.le_cons_self _ _
    · rw [hFilled.kept j (hIds ▸ Multiset.mem_cons_of_mem hj), hKept j hj]
    · rcases mem_cons.mp hj with rfl | hj
      · constructor
        · rw [hFilled.kept j (hIds ▸ Multiset.mem_cons_self _ _)]
          exact stream_filled hSelf
        · rw [hFilled.since.outside j hNot]
          change ((filled m j strpos maxcount).buffpek j).memCount = _
          rw [filled_self]
      · obtain ⟨hStream, hCount⟩ := hFilled.each j hj
        exact ⟨hStream.trans (hRun j hj), by rw [hCount, hKeep j hj]⟩

/-- The records of all runs of a call. -/
def Merge.runs (m : Merge) (fb n : Nat) : Multiset Record :=
  (List.range' fb n : Multiset Nat).bind fun j => (m.run j : Multiset Record)

/-- What a call of `merge_buffers` leaves: the records behind those written before, and a descriptor
for them in `lastbuff`. -/
structure Merged (p : SortParam) (flag : Bool) (m m' : Merge) (lastbuff fb tb : Nat)
    (out : List Record) : Prop where
  toFile : m'.toFile = m.toFile ++ out.map (written p flag)
  count : (m'.buffpek lastbuff).count = out.length
  filePos : (m'.buffpek lastbuff).filePos = m.toFile.length
  fromFile : m'.fromFile = m.fromFile
  outside : ∀ j, ¬ (fb ≤ j ∧ j ≤ tb) → j ≠ lastbuff → m'.buffpek j = m.buffpek j
  noted : Noted p m m'

/-- The merge at the start of a call, with an empty queue. -/
def opened (p : SortParam) (m : Merge) (fb tb : Nat) : Merge :=
  { m.note (.call (p.keys / (tb - fb + 1))) with
    maxRows := p.maxRows
    queue := initQueue (fun _ => fb) (tb - fb + 1) false fun _ _ => 0 }

theorem mem_range'_iff {fb tb j : Nat} (h : fb ≤ tb) :
    j ∈ List.range' fb (tb - fb + 1) ↔ fb ≤ j ∧ j ≤ tb := by
  rw [mem_range'_1]
  omega

/-- The queue of a call starts empty, and all runs of the call come into it. -/
theorem fill_opened {fb tb : Nat} (hLe : fb ≤ tb) (hKeys : tb - fb + 1 ≤ p.keys)
    (hRuns : ∀ j, fb ≤ j → j ≤ tb → SortedRun p m j) :
    ∃ m', fillLoop p (p.keys / (tb - fb + 1)) (List.range' fb (tb - fb + 1)) 0 (opened p m fb tb) =
        some m' ∧ m'.Live p ∧ 0 < m'.queue.elements ∧
      (∀ j, j ∈ m'.ids ↔ fb ≤ j ∧ j ≤ tb) ∧ m'.remaining m'.ids = m.runs fb (tb - fb + 1) ∧
      (∀ j ∈ m'.ids, m'.stream j = m.run j ∧
        (m'.buffpek j).memCount = min (p.keys / (tb - fb + 1)) (m.buffpek j).count) ∧
      m'.toFile = m.toFile ∧ m'.maxRows = p.maxRows ∧ Since p m'.ids m m' := by
  have hMax : 1 ≤ p.keys / (tb - fb + 1) := (Nat.one_le_div_iff (by omega)).mpr hKeys
  have hEmpty : (opened p m fb tb).ids = 0 := rfl
  have hFilling : Filling p (opened p m fb tb) 0 := by
    refine ⟨⟨⟨?_, ?_, ?_, ?_⟩, fun a hTwo ha => ?_, rfl⟩, ?_⟩
    · rw [hEmpty]
      exact Multiset.nodup_zero
    · simp [hEmpty]
    · simp [hEmpty]
    · simp [hEmpty]
    · change a ≤ 0 at ha
      omega
    · simp [hEmpty]
  obtain ⟨m', hLoop, hFilled⟩ := fillLoop_spec hMax _ _ 0
    hFilling nodup_range' (by simp [hEmpty])
    (fun j hj =>
      let ⟨hSome, hFile, hSorted⟩ := hRuns j ((mem_range'_iff hLe).mp hj).1 ((mem_range'_iff hLe).mp hj).2
      ⟨hSome, hFile, hSorted⟩)
    (by
      rw [length_range', zero_add, mul_comm]
      exact Nat.div_mul_le_self _ _)
  have hIds : m'.ids = (range' fb (tb - fb + 1) : Multiset Nat) := by
    rw [hFilled.ids, hEmpty, add_zero]
  have hSome : 0 < m'.queue.elements := by
    rw [← card_ids, hIds, Multiset.coe_card, length_range']
    omega
  refine ⟨m', hLoop, hFilled.live, hSome, fun j => ?_, ?_,
    fun j hj => hFilled.each j (Multiset.mem_coe.mp (hIds ▸ hj)), hFilled.toFile, hFilled.maxRows, ?_⟩
  · rw [hIds, Multiset.mem_coe, mem_range'_iff hLe]
  · rw [hFilled.remaining, hEmpty]
    exact add_zero _
  · have hSound : (Event.call (p.keys / (tb - fb + 1))).Sound p := hMax
    have hOpened : Since p (range' fb (tb - fb + 1) : Multiset Nat) m (opened p m fb tb) :=
      ⟨rfl, fun _ _ => rfl, Noted.note hSound⟩
    rw [hIds]
    exact hOpened.trans hFilled.since

/-- The merge at the end of a call, with the new run in `lastbuff`. -/
def described (p : SortParam) (m : Merge) (lastbuff start : Nat) : Merge :=
  m.set lastbuff { m.buffpek lastbuff with
    count := min (p.maxRows - m.maxRows) p.maxRows
    filePos := start }

/-- A call fills the queue, merges and describes the result. -/
theorem mergeBuffers_eq (fuel : Nat) (flag : Bool) (m : Merge) (lastbuff fb tb : Nat) :
    mergeBuffers p fuel flag m lastbuff fb tb =
      ((fillLoop p (p.keys / (tb - fb + 1)) (List.range' fb (tb - fb + 1)) 0 (opened p m fb tb)).bind
        fun m => match p.uniqueBuff with
          | none => mergeQueue p fuel flag m
          | some unique =>
            match firstKey p m unique with
            | (m, true) => some m
            | (m, false) => mergeQueue p fuel flag m).map
        fun m' => described p m' lastbuff m.toFile.length := rfl

/-- What was merged is found again through the descriptor. -/
theorem merged_described {flag : Bool} {lastbuff fb tb : Nat} {s : Multiset Nat} {out : List Record}
    (hTo : m'.toFile = m.toFile ++ out.map (written p flag))
    (hRows : p.maxRows - m'.maxRows = out.length) (hSince : Since p s m m')
    (hRange : ∀ j ∈ s, fb ≤ j ∧ j ≤ tb) :
    Merged p flag m (described p m' lastbuff m.toFile.length) lastbuff fb tb out := by
  have hSelf : (described p m' lastbuff m.toFile.length).buffpek lastbuff =
      { m'.buffpek lastbuff with
        count := min (p.maxRows - m'.maxRows) p.maxRows
        filePos := m.toFile.length } := Function.update_self ..
  refine ⟨hTo, ?_, by rw [hSelf], hSince.fromFile, fun j hj hNe => ?_, hSince.noted⟩
  · rw [hSelf]
    dsimp only
    omega
  · have hOther : (described p m' lastbuff m.toFile.length).buffpek j = m'.buffpek j :=
      Function.update_of_ne hNe _ _
    rw [hOther]
    exact hSince.outside j fun hIn => hj (hRange j hIn)

end MySQL.Filesort
