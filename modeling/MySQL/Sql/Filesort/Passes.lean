import MySQL.Sql.Filesort.Fill

/-! The passes of `merge_many_buff`, for whatever `merge_buffers` makes of good runs. The
array of runs is overwritten from its start while it is read further on. -/
namespace MySQL.Filesort

open Library Queues Multiset Merge

variable {p : SortParam} {m m' m₀ : Merge}

theorem runs_congr (hFile : m'.fromFile = m.fromFile) {fb n : Nat}
    (h : ∀ j, fb ≤ j → j < fb + n → m'.buffpek j = m.buffpek j) : m'.runs fb n = m.runs fb n := by
  refine bind_congr fun j hj => ?_
  have hRange := List.mem_range'_1.mp (mem_coe.mp hj)
  rw [run, run, hFile, h j hRange.1 hRange.2]

theorem runs_add (fb a b : Nat) : m.runs fb (a + b) = m.runs fb a + m.runs (fb + a) b := by
  rw [runs, ← List.range'_append_1, ← coe_add, add_bind]
  rfl

theorem runs_zero (fb : Nat) : m.runs fb 0 = 0 := rfl

theorem runs_one (fb : Nat) : m.runs fb 1 = (m.run fb : Multiset Record) := by
  change ({fb} : Multiset Nat).bind _ = _
  rw [singleton_bind]

theorem slice_append {α : Type} {front back : List α} {pos count : Nat} (h : pos + count ≤ front.length) :
    ((front ++ back).drop pos).take count = (front.drop pos).take count := by
  rw [List.drop_append_of_le_length (by omega), List.take_append_of_le_length]
  rw [List.length_drop]
  omega

def Merge.swapped (m : Merge) : Merge := { m with fromFile := m.toFile, toFile := m.fromFile }

variable {good : List Record → Prop} {spec : Multiset Record → List Record → Prop} {limit fuel : Nat}

structure GoodRun (good : List Record → Prop) (m : Merge) (j : Nat) : Prop where
  onFile : (m.buffpek j).filePos + (m.buffpek j).count ≤ m.fromFile.length
  good : good (m.run j)

/-- `merge_buffers` makes one good run of good runs, and what `spec` says of such runs may
be said of parts. -/
structure Merger (p : SortParam) (good : List Record → Prop)
    (spec : Multiset Record → List Record → Prop) (limit fuel : Nat) : Prop where
  call : ∀ (m : Merge) (lastbuff fb tb : Nat), fb ≤ tb → tb - fb + 1 ≤ mergebuff2 →
    (∀ j, fb ≤ j → j ≤ tb → GoodRun good m j) → (m.runs fb (tb - fb + 1)).card ≤ limit →
    ∃ m' out, mergeBuffers p fuel false m lastbuff fb tb = some m' ∧
      spec (m.runs fb (tb - fb + 1)) out ∧ good out ∧ Merged p false m m' lastbuff fb tb out
  part : ∀ (part others : Multiset Record) (firsts out : List Record), spec part firsts →
    spec ((firsts : Multiset Record) + others) out → spec (part + others) out
  length : ∀ (source : Multiset Record) (out : List Record), spec source out →
    out.length ≤ source.card

structure Passing (p : SortParam) (good : List Record → Prop)
    (spec : Multiset Record → List Record → Prop) (total : Nat) (m₀ m : Merge) (i j : Nat) : Prop where
  fromFile : m.fromFile = m₀.fromFile
  later : ∀ k, i ≤ k → m.buffpek k = m₀.buffpek k
  done : ∀ k, k < j → GoodRun good m.swapped k
  behind : j ≤ i
  bound : i ≤ total
  transfer : ∀ out, spec (m.swapped.runs 0 j + m₀.runs i (total - i)) out →
    spec (m₀.runs 0 total) out
  card : (m.swapped.runs 0 j).card + (m₀.runs i (total - i)).card ≤ (m₀.runs 0 total).card
  noted : Noted p m₀ m

theorem Passing.start (total : Nat) (m₀ : Merge) :
    Passing p good spec total m₀ { m₀ with toFile := [] } 0 0 :=
  ⟨rfl, fun _ _ => rfl, fun _ hk => by omega, le_rfl, Nat.zero_le _,
    fun out h => by simpa [runs_zero] using h, by simp [runs_zero], Noted.refl p m₀⟩

section
variable (hMerger : Merger p good spec limit fuel)
include hMerger

/-- One more group of runs is merged. -/
theorem Passing.merge {total i j : Nat} (tb : Nat)
    (h : Passing p good spec total m₀ m i j) (hLe : i ≤ tb) (hTotal : tb < total)
    (hFew : tb - i + 1 ≤ mergebuff2) (hRuns : ∀ k, k < total → GoodRun good m₀ k)
    (hLimit : (m₀.runs 0 total).card ≤ limit) :
    ∃ m', mergeBuffers p fuel false m j i tb = some m' ∧
      Passing p good spec total m₀ m' (tb + 1) (j + 1) := by
  have hSame : m.runs i (tb - i + 1) = m₀.runs i (tb - i + 1) :=
    runs_congr h.fromFile fun k hk _ => h.later k hk
  have hSplit : m₀.runs i (total - i) = m₀.runs i (tb - i + 1) + m₀.runs (tb + 1) (total - (tb + 1)) := by
    have hCount : total - i = tb - i + 1 + (total - (tb + 1)) := by omega
    rw [hCount, runs_add]
    congr 2
    omega
  have hCard := h.card
  rw [hSplit, card_add] at hCard
  have hBehind := h.behind
  obtain ⟨m', out, hCall, hSpec, hGood, hMerged⟩ := hMerger.call m j i tb hLe hFew
    (fun k hk hkt => by
      obtain ⟨hFile, hGood⟩ := hRuns k (by omega)
      have hKeep := h.later k hk
      refine ⟨by rw [hKeep, h.fromFile]; exact hFile, ?_⟩
      rw [run, hKeep, h.fromFile]
      exact hGood) (by rw [hSame]; omega)
  rw [hSame] at hSpec
  have hLength := hMerger.length _ _ hSpec
  have hTo : m'.toFile = m.toFile ++ out := by
    rw [hMerged.toFile]
    congr 1
    exact List.map_id'' (fun _ => rfl) out
  have hBuffpek (k : Nat) (hk : k < j) : m'.buffpek k = m.buffpek k :=
    hMerged.outside k (by omega) (by omega)
  have hOld (k : Nat) (hk : k < j) : m'.swapped.run k = m.swapped.run k := by
    have hFile : (m.buffpek k).filePos + (m.buffpek k).count ≤ m.toFile.length := (h.done k hk).onFile
    change (m'.toFile.drop (m'.buffpek k).filePos).take (m'.buffpek k).count = _
    rw [hBuffpek k hk, hTo]
    exact slice_append hFile
  have hNew : m'.swapped.run j = out := by
    change (m'.toFile.drop (m'.buffpek j).filePos).take (m'.buffpek j).count = _
    rw [hMerged.count, hMerged.filePos, hTo, List.drop_left, List.take_length]
  have hRunsOut : m'.swapped.runs 0 (j + 1) = m.swapped.runs 0 j + (out : Multiset Record) := by
    rw [runs_add, zero_add, runs_one, hNew]
    congr 1
    refine bind_congr fun k hk => ?_
    rw [hOld k (by simpa using hk)]
  refine ⟨m', hCall, hMerged.fromFile.trans h.fromFile, fun k hk => ?_, fun k hk => ?_, by omega, by omega,
    fun all hAll => h.transfer all ?_, ?_, h.noted.trans hMerged.noted⟩
  · rw [hMerged.outside k (by omega) (by omega)]
    exact h.later k (by omega)
  · rcases Nat.lt_succ_iff_lt_or_eq.mp hk with hk | rfl
    · refine ⟨?_, ?_⟩
      · change (m'.buffpek k).filePos + (m'.buffpek k).count ≤ m'.toFile.length
        rw [hBuffpek k hk, hTo, List.length_append]
        exact le_trans (h.done k hk).onFile (Nat.le_add_right _ _)
      · rw [hOld k hk]
        exact (h.done k hk).good
    · refine ⟨?_, ?_⟩
      · change (m'.buffpek k).filePos + (m'.buffpek k).count ≤ m'.toFile.length
        rw [hMerged.filePos, hMerged.count, hTo, List.length_append]
      · rw [hNew]
        exact hGood
  · rw [hRunsOut, add_right_comm, add_comm] at hAll
    rw [hSplit, add_left_comm]
    exact hMerger.part _ _ _ _ hSpec hAll
  · rw [hRunsOut, card_add, coe_card]
    omega

/-- Whole groups are merged until at most ten runs are left for the last call. -/
theorem groupLoop_spec {maxbuffer : Nat}
    (hRuns : ∀ k, k < maxbuffer + 1 → GoodRun good m₀ k)
    (hLimit : (m₀.runs 0 (maxbuffer + 1)).card ≤ limit) (turns : Nat) (m : Merge) (i j : Nat)
    (h : Passing p good spec (maxbuffer + 1) m₀ m i j) (hGroups : i = mergebuff * j)
    (hLe : i ≤ maxbuffer) (hTurns : maxbuffer - i < turns) :
    ∃ m' i' j', groupLoop p fuel maxbuffer turns m i j = some (m', i', j') ∧
      Passing p good spec (maxbuffer + 1) m₀ m' i' j' ∧ i' = mergebuff * j' ∧ i' ≤ maxbuffer ∧
      maxbuffer < i' + 10 := by
  induction turns generalizing m i j with
  | zero => omega
  | succ turns ih =>
    rw [groupLoop]
    by_cases hMore : i + mergebuff * 3 / 2 ≤ maxbuffer
    · rw [if_pos hMore]
      simp only [mergebuff] at hMore hGroups
      obtain ⟨m', hCall, hNext⟩ := h.merge hMerger (i + 6) (by omega) (by omega)
        (by simp only [mergebuff2]; omega) hRuns hLimit
      have hCall' : mergeBuffers p fuel false m j i (i + mergebuff - 1) = some m' := hCall
      rw [hCall']
      exact ih m' _ (j + 1) hNext (by simp only [mergebuff]; omega)
        (by simp only [mergebuff]; omega) (by simp only [mergebuff]; omega)
    · rw [if_neg hMore]
      simp only [mergebuff] at hMore
      exact ⟨m, i, j, rfl, h, hGroups, hLe, by omega⟩

/-- Good runs that stand for others: what is made of them could be made of the others. -/
structure Standing (p : SortParam) (good : List Record → Prop)
    (spec : Multiset Record → List Record → Prop) (m : Merge) (n : Nat) (m' : Merge) (n' : Nat) :
    Prop where
  runs : ∀ k, k < n' → GoodRun good m' k
  transfer : ∀ out, spec (m'.runs 0 n') out → spec (m.runs 0 n) out
  card : (m'.runs 0 n').card ≤ (m.runs 0 n).card
  noted : Noted p m m'

theorem mergePass_spec {maxbuffer : Nat}
    (hMany : mergebuff2 ≤ maxbuffer) (hRuns : ∀ k, k < maxbuffer + 1 → GoodRun good m k)
    (hLimit : (m.runs 0 (maxbuffer + 1)).card ≤ limit) :
    ∃ m' maxbuffer', mergePass p fuel m maxbuffer = some (m', maxbuffer') ∧ maxbuffer' < maxbuffer ∧
      Standing p good spec m (maxbuffer + 1) m' (maxbuffer' + 1) := by
  obtain ⟨grouped, i, j, hLoop, hPassing, hGroups, hLe, hFew⟩ := groupLoop_spec hMerger hRuns hLimit
    (maxbuffer + 1) _ 0 0 (Passing.start _ m) rfl (Nat.zero_le _) (by omega)
  simp only [mergebuff2] at hMany
  simp only [mergebuff] at hGroups
  obtain ⟨last, hCall, hDone⟩ := hPassing.merge hMerger maxbuffer hLe (by omega)
    (by simp only [mergebuff2]; omega) hRuns hLimit
  refine ⟨last.swapped, j, ?_, by omega, hDone.done, fun out hOut => hDone.transfer out ?_, ?_, hDone.noted⟩
  · rw [mergePass, hLoop]
    change (mergeBuffers p fuel false grouped j i maxbuffer).bind _ = _
    rw [hCall]
    rfl
  · rw [Nat.sub_self, runs_zero, add_zero]
    exact hOut
  · have hCard := hDone.card
    rw [Nat.sub_self, runs_zero, card_zero] at hCard
    exact hCard

theorem manyLoop_spec (passes : Nat) (m : Merge)
    (maxbuffer : Nat) (hRuns : ∀ k, k < maxbuffer + 1 → GoodRun good m k)
    (hLimit : (m.runs 0 (maxbuffer + 1)).card ≤ limit) (hPasses : maxbuffer < passes) :
    ∃ m' maxbuffer', manyLoop p fuel passes m maxbuffer = some (m', maxbuffer') ∧
      maxbuffer' < mergebuff2 ∧ Standing p good spec m (maxbuffer + 1) m' (maxbuffer' + 1) := by
  induction passes generalizing m maxbuffer with
  | zero => omega
  | succ passes ih =>
    rw [manyLoop]
    by_cases hMany : mergebuff2 ≤ maxbuffer
    · rw [if_pos hMany]
      obtain ⟨next, fewer, hPass, hLess, hStanding⟩ := mergePass_spec hMerger hMany hRuns hLimit
      rw [hPass]
      obtain ⟨m', maxbuffer', hLoop, hEnd, hStanding'⟩ := ih next fewer hStanding.runs
        (hStanding.card.trans hLimit) (by omega)
      exact ⟨m', maxbuffer', hLoop, hEnd, hStanding'.runs,
        fun out hOut => hStanding.transfer out (hStanding'.transfer out hOut),
        hStanding'.card.trans hStanding.card, hStanding.noted.trans hStanding'.noted⟩
    · rw [if_neg hMany]
      exact ⟨m, maxbuffer, rfl, by omega, hRuns, fun _ hOut => hOut, le_rfl, Noted.refl p m⟩

end

end MySQL.Filesort
