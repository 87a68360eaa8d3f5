import MySQL.Sql.Filesort.Passes

/-! Merging without removal of duplicates: a call of `merge_buffers` writes the first
records of its runs, and the passes keep the first records of the whole. -/
namespace MySQL.Filesort

open List Library Queues BinaryHeap Multiset Merge

variable {p : SortParam} {m m' : Merge} {flag : Bool} {source : Multiset Record}
  {start : List Record} {out : List Record}

structure Going (p : SortParam) (flag : Bool) (source : Multiset Record) (start : List Record)
    (m : Merge) (out : List Record) : Prop where
  live : m.Live p
  some : 0 < m.queue.elements
  merging : Merging (keyLe p) source out (m.remaining m.ids)
  toFile : m.toFile = start ++ out.map (written p flag)
  rows : m.maxRows + out.length = p.maxRows
  more : 0 < m.maxRows

structure Looped (p : SortParam) (flag : Bool) (source : Multiset Record) (start : List Record)
    (m m' : Merge) (out : List Record) (ended : Bool) : Prop where
  since : Since p m.ids m m'
  full : ended = true → (∃ rest, Merging (keyLe p) source out rest) ∧ out.length = p.maxRows ∧
    m'.maxRows = 0 ∧ m'.toFile = start ++ out.map (written p flag)
  single : ended = false → Going p flag source start m' out ∧ m'.queue.elements = 1 ∧
    m'.ids ≤ m.ids ∧ (m'.remaining m'.ids).card ≤ (m.remaining m.ids).card

theorem mergeLoop_sorts (hNone : p.uniqueBuff = none) (fuel : Nat) (m : Merge) (out : List Record)
    (h : Going p flag source start m out) (hFuel : (m.remaining m.ids).card < fuel) :
    ∃ m' ended out', mergeLoop p flag fuel m = some (m', ended) ∧
      Looped p flag source start m m' out' ended := by
  induction fuel generalizing m out with
  | zero => omega
  | succ fuel ih =>
    rw [mergeLoop]
    by_cases hTwo : 1 < m.queue.elements
    · rw [if_pos hTwo]
      obtain ⟨next, ended, hTurn, hTurned⟩ := turn_spec flag h.live hTwo h.more (by simp [hNone])
      obtain ⟨hEnded, hTo, hRows, -⟩ := hTurned.output (by simp [isDuplicate, hNone])
      obtain ⟨rest, hRest, hLive⟩ := hTurned.remaining
      have hMerging := h.merging
      rw [hRest] at hMerging
      have hPush := hMerging.push fun y hy =>
        h.live.head_le (hRest ▸ mem_cons_of_mem hy)
      have hLeft := h.rows
      have hMore := h.more
      have hFile : next.toFile = start ++ (out ++ [m.head (queueTop m.queue)]).map (written p flag) := by
        rw [hTo, h.toFile, map_append, append_assoc]
        rfl
      have hLength : (out ++ [m.head (queueTop m.queue)]).length = out.length + 1 := by simp
      rw [hTurn]
      cases ended with
      | true =>
        have hOne : m.maxRows = 1 := hEnded.mp rfl
        exact ⟨next, true, _, rfl, hTurned.since,
          fun _ => ⟨⟨rest, hPush⟩, by omega, by omega, hFile⟩, fun hNo => by simp at hNo⟩
      | false =>
        obtain ⟨hEq, hLive, hSome, hSub⟩ := hLive rfl
        have hNotOne : ¬ m.maxRows = 1 := fun hOne => Bool.noConfusion (hEnded.mpr hOne)
        have hCard := congrArg card hRest
        rw [card_cons, hEq] at hCard
        obtain ⟨last, ended, out', hLoop, hLooped⟩ := ih next _
          ⟨hLive, hSome, hEq ▸ hPush, hFile, by omega, by omega⟩ (by omega)
        refine ⟨last, ended, out', hLoop, hTurned.since.trans (hLooped.since.mono hSub),
          hLooped.full, fun hNo => ?_⟩
        obtain ⟨hGoing, hSingle, hSub', hLess⟩ := hLooped.single hNo
        exact ⟨hGoing, hSingle, hSub'.trans hSub, by omega⟩
    · rw [if_neg hTwo]
      have hSome := h.some
      exact ⟨m, false, out, rfl, Since.refl p _ m, fun hNo => by simp at hNo,
        fun _ => ⟨h, by omega, le_rfl, le_rfl⟩⟩

theorem mergeQueue_sorts (hNone : p.uniqueBuff = none) (hKeys : 0 < p.keys) (fuel : Nat)
    (h : Going p flag source start m out) (hFuel : (m.remaining m.ids).card < fuel) :
    ∃ m' out', mergeQueue p fuel flag m = some m' ∧ Firsts (keyLe p) p.maxRows source out' ∧
      m'.toFile = start ++ out'.map (written p flag) ∧ p.maxRows - m'.maxRows = out'.length ∧
      Since p m.ids m m' := by
  obtain ⟨last, ended, out', hLoop, hLooped⟩ := mergeLoop_sorts hNone fuel m out h hFuel
  rw [mergeQueue, hLoop]
  cases ended with
  | true =>
    obtain ⟨⟨rest, hMerging⟩, hLength, hZero, hTo⟩ := hLooped.full rfl
    have hCard := hMerging.card
    exact ⟨last, out', rfl, ⟨⟨rest, hMerging⟩, by omega⟩, hTo, by omega, hLooped.since⟩
  | false =>
    obtain ⟨hGoing, hOne, hSub, hLess⟩ := hLooped.single rfl
    obtain ⟨hIds, hRemaining⟩ := remaining_single hOne
    have hTop : queueTop last.queue ∈ last.ids := top_mem hGoing.some
    have hLoaded := hGoing.live.buffers.loaded _ hTop
    have hStart : startLast p last (queueTop last.queue) = took p last (queueTop last.queue) := by
      rw [startLast_eq hLoaded.some, if_neg (by simp [isDuplicate, hNone])]
    have hLength := length_stream hLoaded.onFile
    have hCard : (last.remaining last.ids).card = (last.stream (queueTop last.queue)).length := by
      rw [hRemaining, coe_card]
    obtain ⟨m', hLast, hTo, hRows, hSince⟩ := lastLoop_spec flag hKeys fuel _ (whole_took hLoaded)
      (by rw [took_self]; dsimp only; omega)
    rw [stream_took] at hTo hRows
    change m'.toFile = last.toFile ++ _ at hTo
    change m'.maxRows = last.maxRows - _ at hRows
    have hMerging := hGoing.merging
    rw [hRemaining, ← take_append_drop last.maxRows (last.stream _)] at hMerging
    have hSorted := hGoing.live.buffers.sorted _ hTop
    rw [← take_append_drop last.maxRows (last.stream _)] at hSorted
    have hAll := hMerging.append hSorted
    have hLeft := hGoing.rows
    have hSourceCard := hGoing.merging.card
    refine ⟨m', out' ++ (last.stream _).take last.maxRows, ?_,
      ⟨⟨_, hAll⟩, ?_⟩, ?_, ?_, ?_⟩
    · dsimp only
      rw [hStart, hLast]
    · rw [length_append, length_take]
      omega
    · rw [hTo, hGoing.toFile, map_append, append_assoc]
      rfl
    · rw [length_append, length_take]
      omega
    · refine hLooped.since.trans (Since.mono ?_ hSub)
      rw [hIds]
      exact since_took.trans hSince

theorem mergeBuffers_sorts (hNone : p.uniqueBuff = none) (hRows : 0 < p.maxRows) (flag : Bool)
    (lastbuff fb tb fuel : Nat) (hLe : fb ≤ tb) (hKeys : tb - fb + 1 ≤ p.keys)
    (hRuns : ∀ j, fb ≤ j → j ≤ tb → SortedRun p m j) (hFuel : (m.runs fb (tb - fb + 1)).card < fuel) :
    ∃ m' out, mergeBuffers p fuel flag m lastbuff fb tb = some m' ∧
      Firsts (keyLe p) p.maxRows (m.runs fb (tb - fb + 1)) out ∧ Merged p flag m m' lastbuff fb tb out := by
  obtain ⟨filled, hFill, hLive, hSome, hIds, hRemaining, -, hTo, hMaxRows, hSince⟩ :=
    fill_opened hLe hKeys hRuns
  have hGoing : Going p flag (m.runs fb (tb - fb + 1)) m.toFile filled [] := by
    refine ⟨hLive, hSome, ?_, ?_, ?_, by omega⟩
    · rw [hRemaining]
      exact Merging.start _
    · rw [hTo, map_nil, append_nil]
    · rw [hMaxRows]
      rfl
  obtain ⟨m', out, hQueue, hFirsts, hToFile, hCount, hSince'⟩ := mergeQueue_sorts hNone (by omega) fuel
    hGoing (by rw [hRemaining]; exact hFuel)
  refine ⟨described p m' lastbuff m.toFile.length, out, ?_, hFirsts,
    merged_described hToFile hCount (hSince.trans hSince') fun j hj => (hIds j).mp hj⟩
  rw [mergeBuffers_eq, hFill, hNone, Option.bind_some, hQueue, Option.map_some]

def Ascending (p : SortParam) (run : List Record) : Prop := run ≠ [] ∧ run.Pairwise (keyLe p)

theorem GoodRun.sortedRun {j : Nat} (h : GoodRun (Ascending p) m j) : SortedRun p m j := by
  obtain ⟨hFile, hSome, hSorted⟩ := h
  refine ⟨Nat.pos_of_ne_zero fun hZero => hSome ?_, hFile, hSorted⟩
  rw [run, hZero, take_zero]

section
variable (hNone : p.uniqueBuff = none) (hRows : 0 < p.maxRows) (hKeys : mergebuff2 ≤ p.keys)
include hNone hRows hKeys

theorem firsts_merger {limit fuel : Nat} (hFuel : limit < fuel) :
    Merger p (Ascending p) (Firsts (keyLe p) p.maxRows) limit fuel := by
  refine ⟨fun m lastbuff fb tb hLe hFew hRuns hLimit => ?_,
    fun _ _ _ _ hPart hAll => hPart.of_part keyLe_trans hAll, fun source out h => ?_⟩
  · obtain ⟨m', out, hCall, hFirsts, hMerged⟩ := mergeBuffers_sorts hNone hRows false lastbuff fb tb fuel
      hLe (by omega) (fun j hj hjt => (hRuns j hj hjt).sortedRun) (by omega)
    refine ⟨m', out, hCall, hFirsts, ⟨fun hNil => ?_, hFirsts.sorted⟩, hMerged⟩
    have hFirst := (hRuns fb le_rfl hLe).sortedRun
    have hLength := hFirsts.length
    have hRun := hFirst.length
    have hSome := hFirst.some
    rw [hNil, add_comm, runs_add, runs_one, card_add, coe_card] at hLength
    simp only [length_nil] at hLength
    omega
  · rw [h.length]
    exact Nat.min_le_right _ _

/-- `merge_many_buff` and `merge_index` return and write the first records of sorted runs. -/
theorem mergeIndex_firsts {maxbuffer fuel : Nat}
    (hRuns : ∀ k, k < maxbuffer + 1 → GoodRun (Ascending p) m k)
    (hFuel : (m.runs 0 (maxbuffer + 1)).card < fuel) :
    ∃ (merged : Merge) (last : Nat) (m' : Merge) (out : List Record),
      mergeManyBuff p fuel m maxbuffer = some (merged, last) ∧ mergeIndex p fuel merged last = some m' ∧
      Firsts (keyLe p) p.maxRows (m.runs 0 (maxbuffer + 1)) out ∧
      m'.toFile = out.map (written p true) ∧ Noted p m m' := by
  obtain ⟨merged, last, hMany, hLast, hStanding⟩ := manyLoop_spec
    (firsts_merger hNone hRows hKeys hFuel) (maxbuffer + 1) m maxbuffer hRuns le_rfl (by omega)
  simp only [mergebuff2] at hLast hKeys
  let opened : Merge := { merged with toFile := [] }
  have hSame : opened.runs 0 (last - 0 + 1) = merged.runs 0 (last + 1) := rfl
  obtain ⟨m', out, hCall, hFirsts, hMerged⟩ := mergeBuffers_sorts (m := opened) hNone hRows true 0 0 last fuel
    (Nat.zero_le _) (by omega)
    (fun j _ hj => by
      obtain ⟨hSome, hFile, hSorted⟩ := (hStanding.runs j (by omega)).sortedRun
      exact ⟨hSome, hFile, hSorted⟩)
    (by rw [hSame]; exact lt_of_le_of_lt hStanding.card hFuel)
  rw [hSame] at hFirsts
  have hNoted : Noted p m opened := hStanding.noted
  exact ⟨merged, last, m', out, hMany, hCall, hStanding.transfer out hFirsts, hMerged.toFile,
    hNoted.trans hMerged.noted⟩

end

/-- The runs up to `maxbuffer` are on the file, not empty, of whole records, and sorted by
the bytes of the sort keys. -/
structure SortedRuns (p : SortParam) (m : Merge) (maxbuffer : Nat) : Prop where
  some : ∀ j ≤ maxbuffer, 0 < (m.buffpek j).count
  onFile : ∀ j ≤ maxbuffer, (m.buffpek j).filePos + (m.buffpek j).count ≤ m.fromFile.length
  records : ∀ j ≤ maxbuffer, ∀ r ∈ m.run j, r.length = p.recLength
  sorted : ∀ j ≤ maxbuffer,
    (m.run j).Pairwise fun x y => x.take p.sortLength ≤ y.take p.sortLength

theorem SortedRuns.run {maxbuffer j : Nat} (h : SortedRuns p m maxbuffer)
    (hKey : p.sortLength ≤ p.recLength) (hj : j < maxbuffer + 1) : GoodRun (Ascending p) m j := by
  refine ⟨h.onFile j (by omega), fun hNil => ?_, ?_⟩
  · have hLength := congrArg length hNil
    rw [Merge.run, length_pread _ _ _ (h.onFile j (by omega))] at hLength
    exact (h.some j (by omega)).ne' hLength
  refine (h.sorted j (by omega)).imp_of_mem fun {x y} hx hy hLe => ?_
  have hxLength := h.records j (by omega) x hx
  have hyLength := h.records j (by omega) y hy
  exact (keyLe_iff (by omega) (by omega)).mpr hLe

/-- `merge_many_buff` and `merge_index` return and write the results of the first records
of the whole, in the order of their keys. At no time do the buffers of the queue overlap,
and no read leaves the sort buffer. -/
theorem mergeIndex_writes_firsts (p : SortParam) (m : Merge) (maxbuffer fuel : Nat)
    (hNone : p.uniqueBuff = none) (hRows : 1 ≤ p.maxRows) (hKeys : mergebuff2 ≤ p.keys)
    (hKey : p.sortLength ≤ p.recLength) (hRuns : SortedRuns p m maxbuffer)
    (hFuel : (m.runs 0 (maxbuffer + 1)).card < fuel) :
    ∃ (merged : Merge) (last : Nat) (m' : Merge) (all : List Record) (new : List Event),
      mergeManyBuff p fuel m maxbuffer = some (merged, last) ∧
      mergeIndex p fuel merged last = some m' ∧
      (all : Multiset Record) = m.runs 0 (maxbuffer + 1) ∧
      all.Pairwise (fun x y => x.take p.sortLength ≤ y.take p.sortLength) ∧
      m'.toFile = (all.take p.maxRows).map
        (fun r => (r.drop (p.recLength - p.resLength)).take p.resLength) ∧
      m'.events = m.events ++ new ∧
      (∀ areas, Event.live areas ∈ new → areas.Pairwise Area.Apart) ∧
      ∀ base count, Event.read base count ∈ new → base + count ≤ p.keys := by
  obtain ⟨merged, last, m', out, hMany, hIndex, hFirsts, hTo, new, hNew, hSound⟩ :=
    mergeIndex_firsts hNone hRows hKeys (fun k => hRuns.run hKey) hFuel
  obtain ⟨all, hAll, hSorted, rfl⟩ := hFirsts.exists_take keyLe_trans keyLe_total
  refine ⟨merged, last, m', all, new, hMany, hIndex, hAll, ?_, hTo, hNew,
    fun areas hIn => (hSound _ hIn).1, fun base count hIn => hSound _ hIn⟩
  refine hSorted.imp_of_mem fun {x y} hx hy hLe => ?_
  have hLength (r : Record) (hr : r ∈ all) : r.length = p.recLength := by
    have hMem : r ∈ m.runs 0 (maxbuffer + 1) := hAll ▸ mem_coe.mpr hr
    obtain ⟨j, hj, hrj⟩ := mem_bind.mp hMem
    have hRange := mem_range'_1.mp (mem_coe.mp hj)
    exact hRuns.records j (by omega) r (mem_coe.mp hrj)
  have hxLength := hLength x hx
  have hyLength := hLength y hy
  exact (keyLe_iff (by omega) (by omega)).mp hLe

/-- Sixteen runs of one record, one too many for a single merge. -/
def sixteenRuns : Merge where
  fromFile := (List.range 16).map fun j => [UInt8.ofNat (15 - j), UInt8.ofNat j]
  toFile := []
  cells := fun _ => []
  buffpek := fun j => ⟨j, 0, 0, 1, 0, 0⟩
  queue := initQueue (fun _ => 0) 0 false fun _ _ => 0
  maxRows := 0
  events := []

/-- A pass of `merge_many_buff` leaves a run of seven and one of nine records, and `merge_index` writes
the results of the first two. -/
theorem mergeIndex_sixteenRuns :
    let p : SortParam := ⟨2, 1, 1, 15, 2, none⟩
    ∃ (merged : Merge) (last : Nat) (m' : Merge) (all : List Record),
      mergeManyBuff p 17 sixteenRuns 15 = some (merged, last) ∧
      mergeIndex p 17 merged last = some m' ∧ (all : Multiset Record) = sixteenRuns.runs 0 16 ∧
      m'.toFile = (all.take 2).map fun r => (r.drop 1).take 1 := by
  intro p
  have hRuns : SortedRuns p sixteenRuns 15 := by
    refine ⟨?_, ?_, ?_, ?_⟩
    · decide
    · decide
    · decide
    · decide
  obtain ⟨merged, last, m', all, -, hMany, hIndex, hAll, -, hTo, -⟩ :=
    mergeIndex_writes_firsts p sixteenRuns 15 17 rfl (by decide) (by decide) (by decide) hRuns (by decide)
  exact ⟨merged, last, m', all, hMany, hIndex, hAll, hTo⟩

end MySQL.Filesort
