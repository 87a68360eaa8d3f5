import MySQL.Sql.Filesort.Merge

/-! `merge_many_buff` of `sql/filesort.cc` where the calls it makes can fail, and what its two
callers report. Which calls fail is given; what the calls do otherwise does not matter here. -/
namespace MySQL.Filesort.Errors

/-- What fails in one pass over the runs: the merge of a group, the merge of the rest, or the flush of
the file that was written. -/
structure Failures where
  group : Nat → Bool
  rest : Bool
  flush : Bool

/-- A call of `merge_buffers` for the runs from `fb` to `tb` -/
structure MergeCall where
  lastbuff : Nat
  fb : Nat
  tb : Nat
  failed : Bool

structure Pass where
  i : Nat
  lastbuff : Nat
  calls : List MergeCall

/-- The `for` loop. An error only leaves this loop, with `i` at the group that failed. -/
def passLoop (f : Failures) (maxbuffer i lastbuff : Nat) : Pass :=
  if i + mergebuff * 3 / 2 ≤ maxbuffer then
    let call : MergeCall := ⟨lastbuff, i, i + mergebuff - 1, f.group lastbuff⟩
    if call.failed then ⟨i, lastbuff + 1, [call]⟩
    else
      let pass := passLoop f maxbuffer (i + mergebuff) (lastbuff + 1)
      { pass with calls := call :: pass.calls }
  else ⟨i, lastbuff, []⟩
termination_by maxbuffer + 1 - i
decreasing_by simp only [mergebuff] at *; omega

/-- The number of groups that one pass over the runs `0` to `maxbuffer` merges -/
def groups (maxbuffer : Nat) : Nat := (maxbuffer - 3) / mergebuff

def Failures.groupFails (f : Failures) (maxbuffer : Nat) : Prop := ∃ g < groups maxbuffer, f.group g

/-- The last run behind a pass: the groups up to the first one that fails, and the rest -/
def Failures.runsLeft (f : Failures) (maxbuffer : Nat) : Nat :=
  match (List.range (groups maxbuffer)).find? f.group with
  | some g => g + 1
  | none => groups maxbuffer

theorem passLoop_spec (f : Failures) (maxbuffer g : Nat) (hBefore : ∀ k < g, ¬ f.group k) (hg : g ≤ groups maxbuffer) :
    (passLoop f maxbuffer (mergebuff * g) g).lastbuff = f.runsLeft maxbuffer ∧
      ((∃ c ∈ (passLoop f maxbuffer (mergebuff * g) g).calls, c.failed) ↔ f.groupFails maxbuffer) := by
  induction hLeft : groups maxbuffer - g generalizing g with
  | zero =>
    obtain rfl : g = groups maxbuffer := by omega
    have hNone : (List.range (groups maxbuffer)).find? f.group = none := by
      rw [List.find?_eq_none]
      exact fun k hk => hBefore k (List.mem_range.mp hk)
    rw [passLoop, if_neg (by simp only [groups, mergebuff]; omega), Failures.runsLeft, hNone]
    refine ⟨rfl, by simp, ?_⟩
    rintro ⟨k, hk, hFails⟩
    exact absurd hFails (hBefore k hk)
  | succ left ih =>
    have hMore : mergebuff * g + mergebuff * 3 / 2 ≤ maxbuffer := by
      simp only [groups, mergebuff] at *
      omega
    rw [passLoop, if_pos hMore]
    by_cases hFails : f.group g
    · have hFirst : (List.range (groups maxbuffer)).find? f.group = some g := by
        rw [List.find?_range_eq_some]
        exact ⟨hFails, by simp; omega, fun k hk => by simpa using hBefore k hk⟩
      simp only [hFails, if_true, Failures.runsLeft, hFirst, true_and]
      exact ⟨fun _ => ⟨g, by omega, hFails⟩, fun _ => ⟨_, List.mem_singleton_self _, rfl⟩⟩
    · have hUpTo : ∀ k < g + 1, ¬ f.group k := fun k hk =>
        (Nat.lt_succ_iff_lt_or_eq.mp hk).elim (hBefore k) fun hSame => hSame ▸ hFails
      obtain ⟨hLast, hCalls⟩ := ih (g + 1) hUpTo (by omega) (by omega)
      rw [Nat.mul_succ] at hLast hCalls
      simp only [hFails, if_false, Bool.false_eq_true, List.mem_cons, exists_eq_or_imp, false_or]
      exact ⟨hLast, hCalls⟩

theorem runsLeft_lt (f : Failures) {maxbuffer : Nat} (h : mergebuff2 ≤ maxbuffer) :
    f.runsLeft maxbuffer < maxbuffer := by
  have hGroups : groups maxbuffer < maxbuffer := by
    simp only [groups, mergebuff, mergebuff2] at *
    omega
  rw [Failures.runsLeft]
  cases hFind : (List.range (groups maxbuffer)).find? f.group with
  | none => exact hGroups
  | some g =>
    have hg := List.mem_range.mp (List.mem_of_find?_eq_some hFind)
    dsimp only
    omega

theorem passLoop_lastbuff (f : Failures) (maxbuffer : Nat) :
    (passLoop f maxbuffer 0 0).lastbuff = f.runsLeft maxbuffer :=
  (passLoop_spec f maxbuffer 0 (fun k hk => absurd hk (Nat.not_lt_zero k)) (Nat.zero_le _)).1

structure Many where
  maxbuffer : Nat
  calls : List MergeCall

/-- The value that is returned: 1 if interrupted. It is 1 too where the first flush fails. -/
def Many.error (many : Many) : Bool := mergebuff2 ≤ many.maxbuffer

/-- The `while` loop, with the number of passes that were made -/
def whileMany (pattern : Nat → Failures) (pass maxbuffer : Nat) : Many :=
  if _hMany : mergebuff2 ≤ maxbuffer then
    let groups := passLoop (pattern pass) maxbuffer 0 0
    let rest : MergeCall := ⟨groups.lastbuff, groups.i, maxbuffer, (pattern pass).rest⟩
    if rest.failed then ⟨maxbuffer, groups.calls ++ [rest]⟩
    else if (pattern pass).flush then ⟨maxbuffer, groups.calls ++ [rest]⟩
    else
      let many := whileMany pattern (pass + 1) groups.lastbuff
      { many with calls := groups.calls ++ rest :: many.calls }
  else ⟨maxbuffer, []⟩
termination_by maxbuffer
decreasing_by
  rw [passLoop_lastbuff]
  exact runsLeft_lt _ _hMany

/-- `start` tells that `t_file` cannot be flushed or the second file not be opened. -/
def mergeManyBuff (start : Bool) (pattern : Nat → Failures) (maxbuffer : Nat) : Many :=
  if maxbuffer < mergebuff2 then ⟨maxbuffer, []⟩
  else if start then ⟨maxbuffer, []⟩
  else whileMany pattern 0 maxbuffer

/-- What fails in `filesort` and `Unique::get` behind `merge_many_buff`: the file of the runs cannot be
read, the last merge fails (`merge_index` or `merge_buffers`), or the result cannot be flushed. -/
structure Finish where
  file : Bool
  merge : Bool
  outfile : Bool

/-- The variable `error` of `filesort` and of `Unique::get`, with all calls of `merge_buffers` -/
def mergeRuns (start : Bool) (pattern : Nat → Failures) (maxbuffer : Nat) (finish : Finish) :
    Bool × List MergeCall :=
  let many := mergeManyBuff start pattern maxbuffer
  if many.error ∨ finish.file then (true, many.calls)
  else (finish.merge || finish.outfile, many.calls ++ [⟨0, 0, many.maxbuffer, finish.merge⟩])

section
variable (pattern : Nat → Failures) (maxbuffer : Nat)

/-- The last run before a pass, as the failures of the passes before it leave it -/
def runs : (pass : Nat) → Nat
  | 0 => maxbuffer
  | pass + 1 => (pattern pass).runsLeft (runs pass)

def Failures.stops (f : Failures) : Prop := f.rest ∨ f.flush

/-- So many runs are left that the pass is made, and no pass before it stopped the loop. -/
def Made (pass : Nat) : Prop :=
  mergebuff2 ≤ runs pattern maxbuffer pass ∧
    ∀ k < pass, mergebuff2 ≤ runs pattern maxbuffer k ∧ ¬ (pattern k).stops

/-- If a group fails in a pass that is made, then the merge of the rest or a flush fails, too. -/
def GroupsRepeated : Prop :=
  (∃ pass, Made pattern maxbuffer pass ∧ (pattern pass).groupFails (runs pattern maxbuffer pass)) →
    ∃ pass, Made pattern maxbuffer pass ∧ (pattern pass).stops

end

section
variable {pattern : Nat → Failures} {maxbuffer : Nat}

variable (pattern maxbuffer) in
/-- From a pass on, an error is returned exactly if some pass stops the loop, and a call fails exactly in
the passes in which a group or the rest does. -/
theorem whileMany_spec (pass : Nat)
    (hBefore : ∀ k < pass, mergebuff2 ≤ runs pattern maxbuffer k ∧ ¬ (pattern k).stops) :
    ((whileMany pattern pass (runs pattern maxbuffer pass)).error ↔
      ∃ k ≥ pass, Made pattern maxbuffer k ∧ (pattern k).stops) ∧
    ((∃ c ∈ (whileMany pattern pass (runs pattern maxbuffer pass)).calls, c.failed) ↔
      ∃ k ≥ pass, Made pattern maxbuffer k ∧
        ((pattern k).groupFails (runs pattern maxbuffer k) ∨ (pattern k).rest)) := by
  induction hRuns : runs pattern maxbuffer pass using Nat.strong_induction_on generalizing pass with
  | _ m ih =>
    obtain ⟨hLast, hGroups⟩ := passLoop_spec (pattern pass) m 0
      (fun k hk => absurd hk (Nat.not_lt_zero k)) (Nat.zero_le _)
    rw [mul_zero] at hLast hGroups
    rw [whileMany]
    by_cases hMany : mergebuff2 ≤ m
    · have hMade : Made pattern maxbuffer pass := ⟨hRuns ▸ hMany, hBefore⟩
      have hLater {k : Nat} (hk : Made pattern maxbuffer k) (hStop : (pattern pass).stops) (hLe : pass ≤ k) :
          k = pass := by
        by_contra hNe
        exact (hk.2 pass (by omega)).2 hStop
      rw [dif_pos hMany]
      by_cases hRest : (pattern pass).rest
      · simp only [hRest, if_true]
        refine ⟨⟨fun _ => ⟨pass, le_rfl, hMade, .inl hRest⟩, fun _ => decide_eq_true hMany⟩,
          ⟨fun _ => ⟨pass, le_rfl, hMade, .inr hRest⟩, fun _ => ⟨_, List.mem_append_right _
            (List.mem_singleton_self _), rfl⟩⟩⟩
      · by_cases hFlush : (pattern pass).flush
        · simp only [hRest, hFlush, if_true, if_false, Bool.false_eq_true, List.mem_append,
            List.mem_singleton]
          refine ⟨⟨fun _ => ⟨pass, le_rfl, hMade, .inr hFlush⟩, fun _ => decide_eq_true hMany⟩, ?_⟩
          constructor
          · rintro ⟨c, hCall | rfl, hFails⟩
            · exact ⟨pass, le_rfl, hMade, .inl (hRuns ▸ hGroups.mp ⟨c, hCall, hFails⟩)⟩
            · cases hFails
          · rintro ⟨k, hLe, hk, hFails⟩
            obtain rfl := hLater hk (.inr hFlush) hLe
            obtain ⟨c, hCall, hFails⟩ := hGroups.mpr (hRuns ▸ hFails.resolve_right hRest)
            exact ⟨c, .inl hCall, hFails⟩
        · have hStop : ¬ (pattern pass).stops := not_or.mpr ⟨hRest, hFlush⟩
          have hNext : runs pattern maxbuffer (pass + 1) = (pattern pass).runsLeft m := by rw [runs, hRuns]
          have hUpTo : ∀ k < pass + 1, mergebuff2 ≤ runs pattern maxbuffer k ∧ ¬ (pattern k).stops :=
            fun k hk => (Nat.lt_succ_iff_lt_or_eq.mp hk).elim (hBefore k)
              fun hSame => hSame ▸ ⟨hRuns ▸ hMany, hStop⟩
          obtain ⟨hError, hCalls⟩ := ih _ (runsLeft_lt (pattern pass) hMany) (pass + 1) hUpTo hNext
          simp only [hRest, hFlush, hLast, if_false, Bool.false_eq_true, List.mem_append, List.mem_cons]
          constructor
          · refine hError.trans ⟨fun ⟨k, hLe, hk⟩ => ⟨k, by omega, hk⟩, fun ⟨k, hLe, hk⟩ => ?_⟩
            refine ⟨k, Nat.lt_of_le_of_ne hLe ?_, hk⟩
            rintro rfl
            exact hStop hk.2
          · constructor
            · rintro ⟨c, hCall | rfl | hCall, hFails⟩
              · exact ⟨pass, le_rfl, hMade, .inl (hRuns ▸ hGroups.mp ⟨c, hCall, hFails⟩)⟩
              · cases hFails
              · obtain ⟨k, hLe, hk⟩ := hCalls.mp ⟨c, hCall, hFails⟩
                exact ⟨k, by omega, hk⟩
            · rintro ⟨k, hLe, hk, hFails⟩
              rcases Nat.eq_or_lt_of_le hLe with rfl | hLess
              · obtain ⟨c, hCall, hFails⟩ := hGroups.mpr (hRuns ▸ hFails.resolve_right hRest)
                exact ⟨c, .inl hCall, hFails⟩
              · obtain ⟨c, hCall, hFails⟩ := hCalls.mpr ⟨k, hLess, hk, hFails⟩
                exact ⟨c, .inr (.inr hCall), hFails⟩
    · rw [dif_neg hMany]
      have hNone {k : Nat} (hLe : pass ≤ k) (hk : Made pattern maxbuffer k) : False := by
        rcases Nat.eq_or_lt_of_le hLe with rfl | hLess
        · exact hMany (hRuns ▸ hk.1)
        · exact hMany (hRuns ▸ (hk.2 pass hLess).1)
      refine ⟨⟨fun hError => absurd (of_decide_eq_true hError) hMany, fun ⟨k, hLe, hk⟩ =>
        (hNone hLe hk.1).elim⟩, by simp, fun ⟨k, hLe, hk⟩ => (hNone hLe hk.1).elim⟩

variable (pattern maxbuffer) in
theorem mergeManyBuff_spec (start : Bool) :
    ((∃ c ∈ (mergeManyBuff start pattern maxbuffer).calls, c.failed) →
      (mergeManyBuff start pattern maxbuffer).error) ↔ start ∨ GroupsRepeated pattern maxbuffer := by
  rw [mergeManyBuff]
  split_ifs with hFew hStart
  · refine ⟨fun _ => .inr ?_, by simp⟩
    rintro ⟨pass, hMade, -⟩
    have hFirst : mergebuff2 ≤ runs pattern maxbuffer 0 := by
      rcases Nat.eq_zero_or_pos pass with rfl | hPos
      · exact hMade.1
      · exact (hMade.2 0 hPos).1
    exact absurd hFirst (Nat.not_le.mpr hFew)
  · simp [hStart]
  · obtain ⟨hError, hCalls⟩ := whileMany_spec pattern maxbuffer 0
      fun k hk => absurd hk (Nat.not_lt_zero k)
    rw [runs] at hError hCalls
    rw [hError, hCalls, GroupsRepeated]
    simp only [hStart, Bool.false_eq_true, false_or, ge_iff_le, Nat.zero_le, true_and]
    constructor
    · rintro h ⟨pass, hMade, hFails⟩
      exact h ⟨pass, hMade, .inl hFails⟩
    · rintro h ⟨pass, hMade, hFails | hRest⟩
      · exact h ⟨pass, hMade, hFails⟩
      · exact ⟨pass, hMade, .inl hRest⟩

end

/-- Every error of `merge_buffers` makes `merge_many_buff` return 1 exactly if the first flush fails, or
where groups fail another failure stops the loop. `filesort` and `Unique::get` report every error exactly
if this is so or something fails behind `merge_many_buff`. -/
theorem mergeManyBuff_reports_iff (start : Bool) (pattern : Nat → Failures) (maxbuffer : Nat) (finish : Finish) :
    (((∃ c ∈ (mergeManyBuff start pattern maxbuffer).calls, c.failed) →
      (mergeManyBuff start pattern maxbuffer).error) ↔ start ∨ GroupsRepeated pattern maxbuffer) ∧
    (((∃ c ∈ (mergeRuns start pattern maxbuffer finish).2, c.failed) →
      (mergeRuns start pattern maxbuffer finish).1) ↔
        finish.file ∨ finish.merge ∨ finish.outfile ∨ start ∨ GroupsRepeated pattern maxbuffer) := by
  have hMany := mergeManyBuff_spec pattern maxbuffer start
  refine ⟨hMany, ?_⟩
  rw [mergeRuns, ← hMany]
  by_cases hFile : finish.file
  · simp [hFile]
  by_cases hError : (mergeManyBuff start pattern maxbuffer).error
  · simp [hError]
  by_cases hMerge : finish.merge
  · simp [hFile, hError, hMerge]
  by_cases hOutfile : finish.outfile
  · simp [hFile, hError, hMerge, hOutfile]
  · simp [hFile, hError, hMerge, hOutfile]

/-- Of sixteen runs the merge of the first seven fails, and the merge of all of them behind it succeeds:
the error is lost. -/
theorem mergeManyBuff_loses_error :
    let pattern : Nat → Failures := fun pass => ⟨fun g => pass = 0 ∧ g = 0, false, false⟩
    (∃ c ∈ (mergeManyBuff false pattern 15).calls, c.failed) ∧ (mergeManyBuff false pattern 15).error = false ∧
      (mergeRuns false pattern 15 ⟨false, false, false⟩).1 = false := by
  simp [mergeRuns, mergeManyBuff, whileMany, passLoop, mergebuff, mergebuff2, Many.error]

end MySQL.Filesort.Errors
