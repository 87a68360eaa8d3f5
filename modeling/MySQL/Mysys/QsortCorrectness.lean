import MySQL.Mysys.Qsort

/-! `qsort2` rearranges its range into ascending order. The partition loop runs
without bounds checks, so the stopping cells on both sides are part of its
invariant. Ranges still to be sorted are the current one and those on the stack. -/
namespace MySQL.Qsort

open Function List Library

variable {α : Type} {cmp : α → α → BitVec 32} {a b : Nat → α} {low mid high lo hi : Nat}

def AtMost (cmp : α → α → BitVec 32) (x y : α) : Prop := (cmp x y).toInt ≤ 0

def Ascending (cmp : α → α → BitVec 32) (a : Nat → α) (lo hi : Nat) : Prop :=
  ∀ i j, lo ≤ i → i < j → j ≤ hi → AtMost cmp (a i) (a j)

section
variable (a : Nat → α)

theorem swapCells_eq (i j : Nat) : swapCells a i j = a ∘ Equiv.swap i j := by
  funext k
  by_cases hj : k = j
  · subst hj
    simp [swapCells]
  · by_cases hi : k = i
    · subst hi
      simp [swapCells, update_of_ne hj]
    · simp [swapCells, update_of_ne hj, update_of_ne hi, Equiv.swap_apply_of_ne_of_ne hi hj]

theorem swapCells_left (i j : Nat) : swapCells a i j i = a j := by
  rw [swapCells_eq, comp_apply, Equiv.swap_apply_left]

theorem swapCells_right (i j : Nat) : swapCells a i j j = a i := by
  rw [swapCells_eq, comp_apply, Equiv.swap_apply_right]

theorem swapCells_other {i j k : Nat} (hi : k ≠ i) (hj : k ≠ j) :
    swapCells a i j k = a k := by
  rw [swapCells_eq, comp_apply, Equiv.swap_apply_of_ne_of_ne hi hj]

theorem rearranged_swapCells {i j : Nat} (hi' : lo ≤ i ∧ i ≤ hi)
    (hj : lo ≤ j ∧ j ≤ hi) : Rearranged lo hi a (swapCells a i j) := by
  rw [swapCells_eq]
  exact Rearranged.swap a hi' hj

end

theorem rearranged_orderEnds (hLow : lo ≤ low ∧ low ≤ hi) (hHigh : lo ≤ high ∧ high ≤ hi) :
    Rearranged lo hi a (orderEnds cmp a low high) := by
  unfold orderEnds
  split_ifs
  · exact rearranged_swapCells a hHigh hLow
  · exact Rearranged.refl lo hi a

section
variable (hLow : lo ≤ low ∧ low ≤ hi) (hMid : lo ≤ mid ∧ mid ≤ hi) (hHigh : lo ≤ high ∧ high ≤ hi)
include hLow hMid hHigh

theorem rearranged_orderMiddle : Rearranged lo hi a (orderMiddle cmp a low mid high) := by
  unfold orderMiddle
  split_ifs
  · exact rearranged_swapCells a hMid hLow
  · exact rearranged_swapCells a hMid hHigh
  · exact Rearranged.refl lo hi a

theorem rearranged_median : Rearranged lo hi a (median cmp a low mid high) :=
  (rearranged_orderEnds hLow hHigh).trans (rearranged_orderMiddle hLow hMid hHigh)

end

section
variable (h : SignPreorder cmp)
include h

theorem orderEnds_ordered (a : Nat → α) (low high : Nat) :
    AtMost cmp (orderEnds cmp a low high low) (orderEnds cmp a low high high) := by
  unfold orderEnds
  split_ifs with hSwap
  · rw [swapCells_left, swapCells_right]
    unfold AtMost
    omega
  · exact h.nonpos_of_not_neg _ _ hSwap

/-- After `MEDIAN` its three cells are in order. -/
theorem median_ordered (a : Nat → α) (hLow : low < mid) (hHigh : mid < high) :
    AtMost cmp (median cmp a low mid high low) (median cmp a low mid high mid) ∧
      AtMost cmp (median cmp a low mid high mid) (median cmp a low mid high high) := by
  have hEnds := orderEnds_ordered h a low high
  unfold median orderMiddle
  split_ifs with hMidLow hHighMid
  · rw [swapCells_left, swapCells_right, swapCells_other _ (by omega) (by omega)]
    exact ⟨by unfold AtMost; omega, hEnds⟩
  · rw [swapCells_left, swapCells_right, swapCells_other _ (by omega) (by omega)]
    exact ⟨hEnds, by unfold AtMost; omega⟩
  · exact ⟨h.nonpos_of_not_neg _ _ hMidLow, h.nonpos_of_not_neg _ _ hHighMid⟩

/-- `ptr` is the only cell of the block that may be smaller than cells before it. -/
theorem sink_ascending (low high ptr : Nat) (a : Nat → α) (hPtr : low ≤ ptr) (hHigh : ptr ≤ high)
    (hExcept : ∀ i j, low ≤ i → i < j → j ≤ high → j ≠ ptr → AtMost cmp (a i) (a j)) :
    Ascending cmp (sink cmp low a ptr) low high ∧ Rearranged low high a (sink cmp low a ptr) := by
  induction ptr generalizing a with
  | zero =>
    refine ⟨fun i j hi hij hj => ?_, Rearranged.refl low high a⟩
    exact hExcept i j hi hij hj (by omega)
  | succ ptr ih =>
    unfold sink
    split_ifs with hSwap
    · obtain ⟨hAbove, hAfter⟩ := hSwap
      obtain ⟨hAsc, hRearranged⟩ := ih (swapCells a (ptr + 1) ptr) (by omega) (by omega) (by
        intro i j hi hij hj hNe
        by_cases hTop : j = ptr + 1
        · subst hTop
          rw [swapCells_left]
          by_cases hDown : i = ptr
          · subst hDown
            rw [swapCells_right]
            have hStrict := (h.neg_iff _ (a i)).mpr hAfter
            unfold AtMost
            omega
          · rw [swapCells_other a (by omega) hDown]
            exact hExcept i ptr hi (by omega) (by omega) (by omega)
        · rw [swapCells_other a hTop hNe]
          by_cases hUp : i = ptr + 1
          · subst hUp
            rw [swapCells_left]
            exact hExcept ptr j (by omega) (by omega) hj hTop
          · by_cases hDown : i = ptr
            · subst hDown
              rw [swapCells_right]
              exact hExcept (i + 1) j (by omega) (by omega) hj hTop
            · rw [swapCells_other a hUp hDown]
              exact hExcept i j hi hij hj hTop)
      exact ⟨hAsc, (rearranged_swapCells a ⟨by omega, by omega⟩ ⟨by omega, by omega⟩).trans
        hRearranged⟩
    · refine ⟨fun i j hi hij hj => ?_, Rearranged.refl low high a⟩
      by_cases hTop : j = ptr + 1
      · subst hTop
        have hStep : AtMost cmp (a ptr) (a (ptr + 1)) := by
          unfold AtMost
          by_contra hPos
          exact hSwap ⟨by omega, by omega⟩
        by_cases hDown : i = ptr
        · rw [hDown]
          exact hStep
        · exact h.trans _ _ _ (hExcept i ptr hi (by omega) (by omega) (by omega)) hStep
      · exact hExcept i j hi hij hj hTop

theorem insertSort_ascending (low rounds : Nat) (a : Nat → α) (lowPtr : Nat) (hLow : low < lowPtr)
    (hAsc : Ascending cmp a low (lowPtr - 1)) :
    Ascending cmp (insertSort cmp low rounds a lowPtr) low (lowPtr - 1 + rounds) ∧
      Rearranged low (lowPtr - 1 + rounds) a (insertSort cmp low rounds a lowPtr) := by
  induction rounds generalizing a lowPtr with
  | zero => exact ⟨hAsc, Rearranged.refl _ _ _⟩
  | succ rounds ih =>
    obtain ⟨hSunk, hMoved⟩ := sink_ascending h low lowPtr lowPtr a
      (by omega) le_rfl (fun i j hi hij hj hNe => hAsc i j hi hij (by omega))
    obtain ⟨hRest, hMoves⟩ := ih _ (lowPtr + 1) (by omega) hSunk
    have hEnd : lowPtr + 1 - 1 + rounds = lowPtr - 1 + (rounds + 1) := by omega
    rw [hEnd] at hRest hMoves
    exact ⟨hRest, (hMoved.mono le_rfl (by omega)).trans hMoves⟩

end

variable {pivot : α}

theorem scanUp_spec {stop : Nat} (fuel lowPtr : Nat) (hStop : lowPtr ≤ stop)
    (hFuel : stop ≤ lowPtr + fuel) (hSentinel : ¬ (cmp (a stop) pivot).toInt < 0) :
    lowPtr ≤ scanUp cmp a pivot fuel lowPtr ∧ scanUp cmp a pivot fuel lowPtr ≤ stop ∧
      ¬ (cmp (a (scanUp cmp a pivot fuel lowPtr)) pivot).toInt < 0 ∧
      ∀ i, lowPtr ≤ i → i < scanUp cmp a pivot fuel lowPtr → (cmp (a i) pivot).toInt < 0 := by
  induction fuel generalizing lowPtr with
  | zero =>
    obtain rfl : lowPtr = stop := by omega
    exact ⟨le_rfl, le_rfl, hSentinel, fun i hi hLt => absurd hi (by simpa [scanUp] using hLt)⟩
  | succ fuel ih =>
    unfold scanUp
    split_ifs with hBefore
    · have hNe : lowPtr ≠ stop := by
        rintro rfl
        exact hSentinel hBefore
      obtain ⟨hLow, hHigh, hAt, hSkipped⟩ := ih (lowPtr + 1) (by omega) (by omega)
      refine ⟨by omega, hHigh, hAt, fun i hi hLt => ?_⟩
      by_cases hFirst : i = lowPtr
      · rw [hFirst]
        exact hBefore
      · exact hSkipped i (by omega) hLt
    · exact ⟨le_rfl, hStop, hBefore, fun i hi hLt => by omega⟩

theorem scanDown_spec {stop : Nat} (fuel highPtr : Nat) (hStop : stop ≤ highPtr)
    (hFuel : highPtr ≤ stop + fuel) (hSentinel : ¬ (cmp pivot (a stop)).toInt < 0) :
    stop ≤ scanDown cmp a pivot fuel highPtr ∧ scanDown cmp a pivot fuel highPtr ≤ highPtr ∧
      ¬ (cmp pivot (a (scanDown cmp a pivot fuel highPtr))).toInt < 0 ∧
      ∀ i, scanDown cmp a pivot fuel highPtr < i → i ≤ highPtr → (cmp pivot (a i)).toInt < 0 := by
  induction fuel generalizing highPtr with
  | zero =>
    obtain rfl : highPtr = stop := by omega
    exact ⟨le_rfl, le_rfl, hSentinel, fun i hLt hi => absurd hi (by simpa [scanDown] using hLt)⟩
  | succ fuel ih =>
    unfold scanDown
    split_ifs with hAfter
    · have hNe : highPtr ≠ stop := by
        rintro rfl
        exact hSentinel hAfter
      obtain ⟨hLow, hHigh, hAt, hSkipped⟩ := ih (highPtr - 1) (by omega) (by omega)
      refine ⟨hLow, by omega, hAt, fun i hLt hi => ?_⟩
      by_cases hFirst : i = highPtr
      · rw [hFirst]
        exact hAfter
      · exact hSkipped i hLt (by omega)
    · exact ⟨hStop, le_rfl, hAfter, fun i hLt hi => by omega⟩

structure Split (cmp : α → α → BitVec 32) (pivot : α) (low high : Nat) (a : Nat → α)
    (lowPtr highPtr : Nat) : Prop where
  left : ∀ i, low ≤ i → i < lowPtr → AtMost cmp (a i) pivot
  right : ∀ i, highPtr < i → i ≤ high → AtMost cmp pivot (a i)

structure Stops (cmp : α → α → BitVec 32) (pivot : α) (low high : Nat) (a : Nat → α)
    (lowPtr highPtr : Nat) : Prop where
  up : ∃ k, lowPtr ≤ k ∧ k ≤ highPtr + 1 ∧ k ≤ high ∧ AtMost cmp pivot (a k)
  down : ∃ k, low ≤ k ∧ lowPtr ≤ k + 1 ∧ k ≤ highPtr ∧ AtMost cmp (a k) pivot

/-- What the partition loop leaves: a split at `lowPtr` and `highPtr`, which have
crossed and left at most one cell between them. -/
structure Partitioned (cmp : α → α → BitVec 32) (pivot : α) (low high : Nat) (a : Nat → α)
    (result : (Nat → α) × Nat × Nat) : Prop where
  split : Split cmp pivot low high result.1 result.2.1 result.2.2
  moved : Rearranged low high a result.1
  crossed : result.2.1 = result.2.2 + 1 ∨ result.2.1 = result.2.2 + 2
  lowBound : low ≤ result.2.2 + 1
  highBound : result.2.1 ≤ high + 1

theorem partitionLoop_spec (h : SignPreorder cmp) (hPos : 1 ≤ low) (fuel : Nat) (a : Nat → α)
    (lowPtr highPtr : Nat) (hFuel : highPtr < lowPtr + fuel) (hLow : low ≤ lowPtr)
    (hHigh : highPtr ≤ high) (hOrder : lowPtr ≤ highPtr)
    (hSplit : Split cmp pivot low high a lowPtr highPtr)
    (hStops : Stops cmp pivot low high a lowPtr highPtr) :
    ∃ result, partitionLoop cmp pivot fuel a lowPtr highPtr = result ∧ Partitioned cmp pivot low high a result ∧
      lowPtr ≤ result.2.1 ∧ result.2.2 ≤ highPtr ∧
      ∀ mid, lowPtr ≤ mid → mid ≤ highPtr → AtMost cmp pivot (a mid) → AtMost cmp (a mid) pivot →
        lowPtr < result.2.1 ∧ result.2.2 < highPtr := by
  induction fuel generalizing a lowPtr highPtr with
  | zero => omega
  | succ fuel ih =>
    obtain ⟨up, hUpLow, hUpHigh, hUpRange, hUp⟩ := hStops.up
    obtain ⟨down, hDownRange, hDownLow, hDownHigh, hDown⟩ := hStops.down
    have hUpStop : ¬ (cmp (a up) pivot).toInt < 0 := by
      have hSwap := (h.nonpos_iff pivot (a up)).mp hUp
      omega
    have hDownStop : ¬ (cmp pivot (a down)).toInt < 0 := by
      have hSwap := (h.nonpos_iff (a down) pivot).mp hDown
      omega
    have hScanUp := scanUp_spec (highPtr + 1) lowPtr hUpLow (by omega) hUpStop
    have hScanDown := scanDown_spec (highPtr + 1) highPtr hDownHigh (by omega) hDownStop
    -- a pivot cell between the two pointers stops both scans
    have hBoth : ∀ mid, lowPtr ≤ mid → mid ≤ highPtr → AtMost cmp pivot (a mid) →
        AtMost cmp (a mid) pivot → scanUp cmp a pivot (highPtr + 1) lowPtr ≤ mid ∧
          mid ≤ scanDown cmp a pivot (highPtr + 1) highPtr := by
      intro mid hMidLow hMidHigh hFrom hTo
      have hLeft := (h.nonpos_iff pivot (a mid)).mp hFrom
      have hRight := (h.nonpos_iff (a mid) pivot).mp hTo
      exact ⟨(scanUp_spec _ lowPtr hMidLow (by omega) (by omega)).2.1,
        (scanDown_spec _ highPtr hMidHigh (by omega) (by omega)).1⟩
    unfold partitionLoop
    generalize scanUp cmp a pivot _ lowPtr = newLow at *
    generalize scanDown cmp a pivot _ highPtr = newHigh at *
    obtain ⟨hUpFrom, hUpTo, hUpAt, hUpSkip⟩ := hScanUp
    obtain ⟨hDownTo, hDownFrom, hDownAt, hDownSkip⟩ := hScanDown
    have hLeft : ∀ i, low ≤ i → i < newLow → AtMost cmp (a i) pivot := by
      intro i hi hLt
      by_cases hOld : i < lowPtr
      · exact hSplit.left i hi hOld
      · exact le_of_lt (hUpSkip i (by omega) hLt)
    have hRight : ∀ i, newHigh < i → i ≤ high → AtMost cmp pivot (a i) := by
      intro i hLt hi
      by_cases hOld : highPtr < i
      · exact hSplit.right i hOld hi
      · exact le_of_lt (hDownSkip i hLt (by omega))
    have hLowAt : AtMost cmp pivot (a newLow) := h.nonpos_of_not_neg _ _ hUpAt
    have hHighAt : AtMost cmp (a newHigh) pivot := h.nonpos_of_not_neg _ _ hDownAt
    by_cases hMeet : newLow ≤ newHigh
    · have hSwapped : Split cmp pivot low high (swapCells a newLow newHigh) (newLow + 1) (newHigh - 1) := by
        constructor
        · intro i hi hBelow
          by_cases hEq : i = newLow
          · rw [hEq, swapCells_left]
            exact hHighAt
          · rw [swapCells_other a hEq (by omega)]
            exact hLeft i hi (by omega)
        · intro i hAbove hi
          by_cases hEq : i = newHigh
          · rw [hEq, swapCells_right]
            exact hLowAt
          · rw [swapCells_other a (by omega) hEq]
            exact hRight i (by omega) hi
      have hMoved : Rearranged low high a (swapCells a newLow newHigh) :=
        rearranged_swapCells a ⟨by omega, by omega⟩ ⟨by omega, by omega⟩
      by_cases hMore : newLow + 1 ≤ newHigh - 1
      · rw [if_pos (by omega), if_pos hMore]
        obtain ⟨result, hResult, hDone, hDoneLow, hDoneHigh, -⟩ := ih _ _
          (newHigh - 1) (by omega) (by omega) (by omega) hMore hSwapped
          { up := ⟨newHigh, by omega, by omega, by omega, by rwa [swapCells_right]⟩
            down := ⟨newLow, by omega, by omega, by omega, by rwa [swapCells_left]⟩ }
        exact ⟨result, hResult, { hDone with moved := hMoved.trans hDone.moved }, by omega, by omega,
          fun mid _ _ _ _ => ⟨by omega, by omega⟩⟩
      · refine ⟨(swapCells a newLow newHigh, newLow + 1, newHigh - 1), ?_, ⟨hSwapped, hMoved, ?_, ?_, ?_⟩, ?_, ?_,
          fun mid _ _ _ _ => ⟨?_, ?_⟩⟩
        · rcases hMeet.lt_or_eq with hLt | rfl
          · rw [if_pos hLt, if_neg hMore]
          · rw [if_neg (lt_irrefl _), if_pos rfl, swapCells_eq, Equiv.swap_self, Equiv.coe_refl, comp_id]
        all_goals
          dsimp only
          omega
    · -- the scan down cannot pass the last cell the scan up has skipped
      have hCrossed : newLow = newHigh + 1 := by
        by_contra hFar
        have hSkipped := hDownSkip (newLow - 1) (by omega) (by omega)
        have hBelow := hLeft (newLow - 1) (by omega) (by omega)
        have hSwap := (h.nonpos_iff _ pivot).mp hBelow
        omega
      rw [if_neg (by omega), if_neg (by omega)]
      refine ⟨_, rfl, ⟨⟨hLeft, hRight⟩, Rearranged.refl low high a, .inl hCrossed, by dsimp only; omega,
        by dsimp only; omega⟩, hUpFrom, hDownFrom, fun mid hMidLow hMidHigh hFrom hTo => ?_⟩
      have hBetween := hBoth mid hMidLow hMidHigh hFrom hTo
      omega

/-- Choosing the pivot moves cells of the range only and leaves the pivot between
the two starting pointers. -/
theorem choosePivot_spec (h : SignPreorder cmp) (a : Nat → α) (hSize : 10 ≤ high - low + 1) :
    let r := choosePivot cmp a low high
    Rearranged low high a r.1 ∧ low ≤ r.2.2.1 ∧ r.2.2.1 ≤ r.2.1 ∧ r.2.1 ≤ r.2.2.2 ∧
      r.2.2.2 ≤ high ∧ Split cmp (r.1 r.2.1) low high r.1 r.2.2.1 r.2.2.2 := by
  unfold choosePivot
  dsimp only
  split_ifs with hLarge
  · dsimp only
    refine ⟨?_, le_rfl, by omega, by omega, le_rfl, ⟨fun i hi hLt => ?_, fun i hLt hi => ?_⟩⟩
    · refine Rearranged.trans ?_ (rearranged_median (by omega) (by omega) (by omega))
      refine Rearranged.trans ?_ (rearranged_median (by omega) (by omega) (by omega))
      refine Rearranged.trans ?_ (rearranged_median (by omega) (by omega) (by omega))
      exact rearranged_median (by omega) (by omega) (by omega)
    · omega
    · omega
  · have hOrdered := median_ordered h a (show low < low + (high - low + 1) / 2 by omega)
      (show low + (high - low + 1) / 2 < high by omega)
    dsimp only
    refine ⟨rearranged_median (by omega) (by omega) (by omega), by omega, by omega, by omega,
      by omega, ⟨fun i hi hLt => ?_, fun i hLt hi => ?_⟩⟩
    · obtain rfl : i = low := by omega
      exact hOrdered.1
    · obtain rfl : i = high := by omega
      exact hOrdered.2

theorem partition_spec (h : SignPreorder cmp) (a : Nat → α) (hPos : 1 ≤ low) (hSize : 10 ≤ high - low + 1) :
    ∃ pivot, Partitioned cmp pivot low high a (partition cmp a low high) ∧
      low < (partition cmp a low high).2.1 ∧ (partition cmp a low high).2.2 < high := by
  obtain ⟨hMoved, hLow, hMidLow, hMidHigh, hHigh, hSplit⟩ :=
    choosePivot_spec h a hSize
  unfold partition
  generalize choosePivot cmp a low high = choice at *
  obtain ⟨b, mid, lowPtr, highPtr⟩ := choice
  dsimp only at *
  have hSelf : AtMost cmp (b mid) (b mid) := le_of_eq (h.self (b mid))
  obtain ⟨result, rfl, hDone, hDoneLow, hDoneHigh, hStrict⟩ := partitionLoop_spec h hPos (high - low + 1) b
    lowPtr highPtr (by omega) hLow hHigh (by omega) hSplit
    ⟨⟨mid, hMidLow, by omega, by omega, hSelf⟩, ⟨mid, by omega, by omega, hMidHigh, hSelf⟩⟩
  obtain ⟨hLt, hGt⟩ := hStrict mid hMidLow hMidHigh hSelf hSelf
  exact ⟨b mid, { hDone with moved := hMoved.trans hDone.moved }, by omega, by omega⟩

structure Pending (cmp : α → α → BitVec 32) (base last : Nat) (a : Nat → α)
    (ranges : List (Nat × Nat)) : Prop where
  inside : ∀ r ∈ ranges, base ≤ r.1 ∧ r.1 ≤ r.2 ∧ r.2 ≤ last
  disjoint : ranges.Pairwise fun r s => r.2 < s.1 ∨ s.2 < r.1
  sorted : ∀ i j, base ≤ i → i < j → j ≤ last →
    AtMost cmp (a i) (a j) ∨ ∃ r ∈ ranges, r.1 ≤ i ∧ j ≤ r.2

variable {base last : Nat}

/-- Replace the first pending range by ranges inside it. -/
theorem Pending.refine {rest : List (Nat × Nat)} (h : Pending cmp base last a ((low, high) :: rest))
    (new : List (Nat × Nat)) (hMoved : Rearranged low high a b)
    (hInside : ∀ r ∈ new, low ≤ r.1 ∧ r.1 ≤ r.2 ∧ r.2 ≤ high)
    (hDisjoint : new.Pairwise fun r s => r.2 < s.1 ∨ s.2 < r.1)
    (hSorted : ∀ i j, low ≤ i → i < j → j ≤ high →
      AtMost cmp (b i) (b j) ∨ ∃ r ∈ new, r.1 ≤ i ∧ j ≤ r.2) :
    Pending cmp base last b (new ++ rest) := by
  obtain ⟨hBase, hOrder, hLast⟩ := h.inside (low, high) (by simp)
  have hApart : ∀ r ∈ rest, high < r.1 ∨ r.2 < low := (pairwise_cons.mp h.disjoint).1
  -- what is in a cell has come from the range if the cell is there, and was there before otherwise
  have hSource (k : Nat) : ∃ k', b k = a k' ∧
      (low ≤ k ∧ k ≤ high ∧ low ≤ k' ∧ k' ≤ high ∨ ¬(low ≤ k ∧ k ≤ high) ∧ k' = k) := by
    by_cases hIn : low ≤ k ∧ k ≤ high
    · obtain ⟨k', hkLow, hkHigh, hk⟩ := hMoved.inside hIn.1 hIn.2
      exact ⟨k', hk, .inl ⟨hIn.1, hIn.2, hkLow, hkHigh⟩⟩
    · exact ⟨k, hMoved.outside (by omega), .inr ⟨hIn, rfl⟩⟩
  constructor
  · intro r hr
    rcases mem_append.mp hr with hNew | hRest
    · have hIn := hInside r hNew
      omega
    · exact h.inside r (mem_cons_of_mem _ hRest)
  · refine pairwise_append.mpr ⟨hDisjoint, (pairwise_cons.mp h.disjoint).2, ?_⟩
    intro r hr s hs
    have hIn := hInside r hr
    have hFar := hApart s hs
    omega
  · intro i j hi hij hj
    by_cases hBoth : low ≤ i ∧ j ≤ high
    · exact (hSorted i j hBoth.1 hij hBoth.2).imp_right fun ⟨r, hr, hRange⟩ => ⟨r, mem_append_left _ hr, hRange⟩
    · obtain ⟨i', hi', hFrom⟩ := hSource i
      obtain ⟨j', hj', hTo⟩ := hSource j
      rw [hi', hj']
      refine (h.sorted i' j' (by omega) (by omega) (by omega)).imp_right fun ⟨r, hr, hRange⟩ => ?_
      rcases mem_cons.mp hr with rfl | hRest
      · dsimp only at hRange
        omega
      · have hFar := hApart r hRest
        exact ⟨r, mem_append_right _ hRest, by omega⟩

def weight (ranges : List (Nat × Nat)) : Nat :=
  (ranges.map fun r => 2 * (r.2 - r.1) + 1).sum

theorem intDistance_nonpos_iff {p q bound : Nat} (hBound : 8 * bound < 2 ^ 31)
    (hp : p ≤ q + bound) (hq : q ≤ p + bound) : intDistance p q ≤ 0 ↔ p ≤ q := by
  have hExact : intDistance p q = 8 * ((p : Int) - q) := by
    apply Int.bmod_eq_of_le <;> omega
  omega

@[simp] theorem weight_nil : weight [] = 0 := rfl

@[simp] theorem weight_cons (r : Nat × Nat) (rest : List (Nat × Nat)) :
    weight (r :: rest) = 2 * (r.2 - r.1) + 1 + weight rest := by
  simp [weight]

theorem Pending.ascending (h : Pending cmp base last a []) : Ascending cmp a base last := by
  intro i j hi hij hj
  rcases h.sorted i j hi hij hj with hAtMost | ⟨r, hr, -⟩
  · exact hAtMost
  · cases hr

section
variable (h : SignPreorder cmp)
include h

/-- Only pairs on one side of the partition may be out of order. -/
theorem Partitioned.sides {result : (Nat → α) × Nat × Nat}
    (hp : Partitioned cmp pivot low high a result) (i j : Nat) (hi : low ≤ i) (hj : j ≤ high) :
    AtMost cmp (result.1 i) (result.1 j) ∨ result.2.1 ≤ i ∨ j ≤ result.2.2 := by
  by_cases hLeft : i < result.2.1
  · by_cases hRight : result.2.2 < j
    · exact .inl (h.trans _ _ _ (hp.split.left i hi hLeft) (hp.split.right j hRight hj))
    · exact .inr (.inr (by omega))
  · exact .inr (.inl (by omega))

/-- One round keeps the pending ranges and makes them lighter. -/
theorem sortRound_spec (hPos : 1 ≤ base) (hBound : 8 * (last + 1 - base) < 2 ^ 31)
    {stack : List (Nat × Nat)} (hPending : Pending cmp base last a ((low, high) :: stack)) :
    Pending cmp base last (sortRound cmp a low high stack).1 (sortRound cmp a low high stack).2 ∧
      Rearranged base last a (sortRound cmp a low high stack).1 ∧
      weight (sortRound cmp a low high stack).2 < weight ((low, high) :: stack) := by
  obtain ⟨hBase, hOrder, hLast⟩ := hPending.inside (low, high) (by simp)
  simp only [weight_cons]
  unfold sortRound
  split_ifs with hSmall
  · obtain ⟨hAsc, hMoved⟩ := insertSort_ascending h low _ a (low + 1)
      (by omega) (fun i j hi hij hj => by omega)
    rw [show low + 1 - 1 + (high - low) = high by omega] at hAsc hMoved
    refine ⟨?_, hMoved.mono hBase hLast, by dsimp only; omega⟩
    exact hPending.refine [] hMoved (by simp) Pairwise.nil
      (fun i j hi hij hj => .inl (hAsc i j hi hij hj))
  · obtain ⟨pivot, hPart, hLowGt, hHighLt⟩ :=
      partition_spec h a (by omega) (show 10 ≤ high - low + 1 by omega)
    have hSides := hPart.sides h
    obtain ⟨-, hMoved, hCrossed, hLowBound, hHighBound⟩ := hPart
    generalize partition cmp a low high = result at *
    obtain ⟨b, lowPtr, highPtr⟩ := result
    dsimp only at *
    simp only [intDistance_nonpos_iff hBound (p := highPtr) (q := low) (by omega) (by omega),
      intDistance_nonpos_iff hBound (p := high) (q := lowPtr) (by omega) (by omega)]
    have hNext (new : List (Nat × Nat)) (hIn : ∀ r ∈ new, low ≤ r.1 ∧ r.1 ≤ r.2 ∧ r.2 ≤ high)
        (hApart : new.Pairwise fun r s => r.2 < s.1 ∨ s.2 < r.1) (hRight : lowPtr < high → (lowPtr, high) ∈ new)
        (hLeft : low < highPtr → (low, highPtr) ∈ new)
        (hLess : weight (new ++ stack) < 2 * (high - low) + 1 + weight stack) :
        Pending cmp base last b (new ++ stack) ∧ Rearranged base last a b ∧
          weight (new ++ stack) < 2 * (high - low) + 1 + weight stack := by
      refine ⟨hPending.refine new hMoved hIn hApart fun i j hi hij hj => ?_, hMoved.mono hBase hLast, hLess⟩
      rcases hSides i j hi hj with hAtMost | hRange | hRange
      · exact .inl hAtMost
      · exact .inr ⟨(lowPtr, high), hRight (by omega), hRange, hj⟩
      · exact .inr ⟨(low, highPtr), hLeft (by omega), hi, hRange⟩
    split_ifs with hLeft hRight hRight hLarger
    · exact hNext [] (by simp) .nil (by simp [hRight]) (by simp [hLeft]) (by rw [nil_append]; omega)
    · exact hNext [(lowPtr, high)] (by simp; omega) (pairwise_singleton _ _) (by simp) (by simp [hLeft])
        (by simp; omega)
    · exact hNext [(low, highPtr)] (by simp; omega) (pairwise_singleton _ _) (by simp [hRight]) (by simp)
        (by simp; omega)
    · exact hNext [(lowPtr, high), (low, highPtr)] (by simp; omega) (by simp; omega) (by simp) (by simp)
        (by simp; omega)
    · exact hNext [(low, highPtr), (lowPtr, high)] (by simp; omega) (by simp; omega) (by simp) (by simp)
        (by simp; omega)

theorem sortLoop_spec (hPos : 1 ≤ base) (hBound : 8 * (last + 1 - base) < 2 ^ 31) (fuel : Nat)
    (a : Nat → α) (ranges : List (Nat × Nat)) (hPending : Pending cmp base last a ranges)
    (hFuel : weight ranges ≤ fuel) : Ascending cmp (sortLoop cmp fuel a ranges) base last ∧
      Rearranged base last a (sortLoop cmp fuel a ranges) := by
  induction fuel generalizing a ranges with
  | zero =>
    cases ranges with
    | nil => exact ⟨hPending.ascending, Rearranged.refl _ _ _⟩
    | cons r rest => simp at hFuel
  | succ fuel ih =>
    cases ranges with
    | nil => exact ⟨hPending.ascending, Rearranged.refl _ _ _⟩
    | cons r stack =>
      obtain ⟨low, high⟩ := r
      obtain ⟨hNext, hMoved, hLess⟩ := sortRound_spec h hPos hBound hPending
      obtain ⟨hAsc, hMoves⟩ := ih _ _ hNext (by omega)
      exact ⟨hAsc, hMoved.trans hMoves⟩

/-- `qsort2` sorts every array whose byte length fits a signed 32 bit integer. -/
theorem qsort2_sorts (a : Nat → α) (base count : Nat) (hPos : 1 ≤ base)
    (hBound : 8 * count < 2 ^ 31) :
    Ascending cmp (qsort2 cmp a base count) base (base + count - 1) ∧
      Rearranged base (base + count - 1) a (qsort2 cmp a base count) := by
  unfold qsort2
  split_ifs with hSmall
  · exact ⟨fun i j hi hij hj => by omega, Rearranged.refl _ _ _⟩
  · refine sortLoop_spec h hPos (by omega) _ a [(base, base + count - 1)] ⟨?_, ?_, ?_⟩ ?_
    · simp only [mem_singleton, forall_eq]
      omega
    · exact pairwise_singleton _ _
    · intro i j hi hij hj
      exact .inr ⟨(base, base + count - 1), by simp, hi, hj⟩
    · simp only [weight_cons, weight_nil]
      omega

end

/-! ### The stack of ranges -/

/-- `STACK_SIZE` on a machine with `long` of 64 bits -/
def stackSize : Nat := 64

/-- The array and the ranges left after a number of turns of the main loop. -/
def sortRounds (cmp : α → α → BitVec 32) : Nat → (Nat → α) → List (Nat × Nat) →
    (Nat → α) × List (Nat × Nat)
  | 0, a, ranges => (a, ranges)
  | _, a, [] => (a, [])
  | rounds + 1, a, (low, high) :: stack =>
    sortRounds cmp rounds (sortRound cmp a low high stack).1 (sortRound cmp a low high stack).2

/-- A range with `k` ranges below it on the stack has at most `total / 2 ^ k` cells. -/
def Halving (total : Nat) : List (Nat × Nat) → Prop
  | [] => True
  | (low, high) :: stack =>
    low < high ∧ (high - low + 1) * 2 ^ stack.length ≤ total ∧ Halving total stack

/-- The smaller part of a range is sorted first. -/
theorem sortRound_halving (h : SignPreorder cmp) (hPos : 1 ≤ base)
    (hBound : 8 * (last + 1 - base) < 2 ^ 31) {stack : List (Nat × Nat)}
    (hPending : Pending cmp base last a ((low, high) :: stack))
    (hHalving : Halving total ((low, high) :: stack)) :
    Halving total (sortRound cmp a low high stack).2 := by
  obtain ⟨hBase, hOrder, hLast⟩ := hPending.inside (low, high) (by simp)
  obtain ⟨-, hTotal, hStack⟩ := hHalving
  have hPart {p q : Nat} (hLess : p < q) (hLow : low ≤ p) (hHigh : q ≤ high) :
      Halving total ((p, q) :: stack) :=
    ⟨hLess, (Nat.mul_le_mul_right _ (by omega)).trans hTotal, hStack⟩
  have hParts {p q p' q' : Nat} (hLess : p < q) (hHalf : 2 * (q - p + 1) ≤ high - low + 1)
      (hBelow : Halving total ((p', q') :: stack)) :
      Halving total ((p, q) :: (p', q') :: stack) := by
    refine ⟨hLess, ?_, hBelow⟩
    rw [length_cons, pow_succ', ← mul_assoc, mul_comm _ 2]
    exact (Nat.mul_le_mul_right _ hHalf).trans hTotal
  unfold sortRound
  split_ifs with hSmall
  · exact hStack
  · obtain ⟨pivot, ⟨-, -, hCrossed, hLowBound, hHighBound⟩, hLowGt, hHighLt⟩ :=
      partition_spec h a (by omega) (show 10 ≤ high - low + 1 by omega)
    generalize partition cmp a low high = result at *
    obtain ⟨b, lowPtr, highPtr⟩ := result
    dsimp only at *
    simp only [intDistance_nonpos_iff hBound (p := highPtr) (q := low) (by omega) (by omega),
      intDistance_nonpos_iff hBound (p := high) (q := lowPtr) (by omega) (by omega)]
    split_ifs with hLeft hRight hRight hLarger
    · exact hStack
    · exact hPart (by omega) (by omega) le_rfl
    · exact hPart (by omega) le_rfl (by omega)
    · exact hParts (by omega) (by omega) (hPart (by omega) le_rfl (by omega))
    · exact hParts (by omega) (by omega) (hPart (by omega) (by omega) le_rfl)

theorem sortRounds_halving (h : SignPreorder cmp) (hPos : 1 ≤ base)
    (hBound : 8 * (last + 1 - base) < 2 ^ 31) (rounds : Nat) {ranges : List (Nat × Nat)}
    (hPending : Pending cmp base last a ranges) (hHalving : Halving total ranges) :
    Halving total (sortRounds cmp rounds a ranges).2 := by
  induction rounds generalizing a ranges with
  | zero => exact hHalving
  | succ rounds ih =>
    cases ranges with
    | nil => exact hHalving
    | cons r stack =>
      obtain ⟨low, high⟩ := r
      exact ih (sortRound_spec h hPos hBound hPending).1
        (sortRound_halving h hPos hBound hPending hHalving)

theorem Halving.length_le {ranges : List (Nat × Nat)} (h : Halving total ranges) :
    ranges.length ≤ Nat.log 2 total := by
  cases ranges with
  | nil => exact Nat.zero_le _
  | cons r stack =>
    obtain ⟨hLess, hTotal, -⟩ := h
    have hPow : 2 ^ (stack.length + 1) ≤ total := by
      rw [pow_succ']
      exact (Nat.mul_le_mul_right _ (by omega)).trans hTotal
    exact Nat.le_log_of_pow_le Nat.one_lt_two hPow

theorem sortLoop_eq_sortRounds (fuel : Nat) (a : Nat → α) (ranges : List (Nat × Nat)) :
    sortLoop cmp fuel a ranges = (sortRounds cmp fuel a ranges).1 := by
  induction fuel generalizing a ranges with
  | zero => cases ranges <;> rfl
  | succ fuel ih =>
    cases ranges with
    | nil => rfl
    | cons r stack => exact ih _ _

/-- `qsort2` sorts the cells in place, and in every turn of its main loop the current range and the
stack are at most `log2 count` ranges, so that `stack` has room for them. -/
theorem qsort2_stack_fits (h : SignPreorder cmp) (a : Nat → α) (base count : Nat) (hPos : 1 ≤ base)
    (hCount : 2 ≤ count) (hBound : 8 * count < 2 ^ 31) :
    Ascending cmp (qsort2 cmp a base count) base (base + count - 1) ∧
      Rearranged base (base + count - 1) a (qsort2 cmp a base count) ∧
      qsort2 cmp a base count = (sortRounds cmp (2 * count) a [(base, base + count - 1)]).1 ∧
      ∀ rounds, (sortRounds cmp rounds a [(base, base + count - 1)]).2.length ≤ Nat.log 2 count ∧
        Nat.log 2 count < stackSize := by
  obtain ⟨hAscending, hMoved⟩ := qsort2_sorts h a base count hPos hBound
  refine ⟨hAscending, hMoved, by rw [qsort2, if_neg (by omega), sortLoop_eq_sortRounds], fun rounds => ?_⟩
  have hPending : Pending cmp base (base + count - 1) a [(base, base + count - 1)] := by
    refine ⟨by simp; omega, pairwise_singleton _ _, fun i j hi hij hj => ?_⟩
    exact .inr ⟨(base, base + count - 1), by simp, hi, hj⟩
  have hHalving : Halving count [(base, base + count - 1)] := by
    refine ⟨by omega, ?_, trivial⟩
    simp only [length_nil, pow_zero]
    omega
  have hLog : Nat.log 2 count < 31 := Nat.log_lt_of_lt_pow (by omega) (by omega)
  exact ⟨(sortRounds_halving h hPos (by omega) rounds hPending hHalving).length_le, by
    rw [stackSize]
    omega⟩

/-- Twelve numbers in descending order are partitioned once and sorted. -/
theorem qsort2_stack_fits_twelve :
    let cmp (x y : Fin 12) : BitVec 32 := BitVec.ofInt 32 ((x : Int) - (y : Int))
    let a (i : Nat) : Fin 12 := Fin.ofNat 12 (12 - i)
    Ascending cmp (qsort2 cmp a 1 12) 1 12 ∧
      (List.range' 1 12).map (qsort2 cmp a 1 12) = [0, 1, 2, 3, 4, 5, 6, 7, 8, 9, 10, 11] ∧
      (sortRounds cmp 1 a [(1, 12)]).2.length = 2 ∧ (sortRounds cmp 1 a [(1, 12)]).2.length ≤ Nat.log 2 12 := by
  intro cmp a
  have hOrder : SignPreorder cmp := ⟨by decide +kernel, by decide +kernel⟩
  obtain ⟨hAscending, -, -, hStack⟩ := qsort2_stack_fits hOrder a 1 12 (by decide) (by decide) (by decide)
  exact ⟨hAscending, by decide +kernel, by decide +kernel, (hStack 1).1⟩

end MySQL.Qsort
