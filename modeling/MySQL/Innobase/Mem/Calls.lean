import MySQL.Innobase.Mem.Areas

/-! What the functions of the allocator do to the areas of a pool. -/
namespace MySQL.Innobase.Mem

open Finset Library Block Function Nat

section
variable {p : Pool} {used : Nat} {A F : Finset Block} {b c : Block} {i : Nat}

/-- The lower half leaves its buddy alone. -/
theorem noBuddies_split (h : Shape p used A F) (hc : c ∈ F) (hSome : 1 ≤ c.exp) (hNone : NoBuddies (F.erase c)) :
    NoBuddies ((insert (lowerHalf c) (insert (upperHalf c) (F.erase c))).erase (lowerHalf c)) := by
  have hcMem : c ∈ A ∪ F := mem_union_right A hc
  obtain ⟨hAligned, hParent, hBuddy⟩ := halves_spec (h.tiles.aligned c hcMem) hSome
  have hLowerNot : lowerHalf c ∉ A ∪ F :=
    h.not_mem_of_covers hcMem c.covers_start (by simp only [lowerHalf]; omega)
  have hBack : (upperHalf c).buddy = lowerHalf c := by rw [← hBuddy, buddy_buddy hAligned]
  refine (hNone.insert (fun d hd => ?_) (hBuddy ▸ hAligned.buddy) fun hIn => ?_).mono
    (erase_insert_subset _ _)
  · exact h.tiles.aligned d (mem_union_right A (mem_of_mem_erase hd))
  · rw [hBack] at hIn
    exact hLowerNot (mem_union_right A (mem_of_mem_erase hIn))

/-- Behind the areas there is nothing, or a word that looks like the size of an area. -/
def TailPasses (used : Nat) (p : Pool) : Prop :=
  p.size ≤ used ∨ ut2PowerUp (memAreaGetSize (p.word used)) = memAreaGetSize (p.word used)

instance (used : Nat) (p : Pool) : Decidable (TailPasses used p) := inferInstanceAs (Decidable (_ ∨ _))

/-- The area, or one that it grows to when it is joined with free buddies, is the last before `used`. -/
def growsTo (used : Nat) (p : Pool) : (fuel : Nat) → Block → Bool
  | 0, _ => false
  | fuel + 1, b => b.stop = used || b.buddy.start ∈ p.freeList b.exp && growsTo used p fuel b.parent

theorem growsTo_succ (fuel : Nat) : growsTo used p (fuel + 1) b =
    (decide (b.stop = used) || (decide (b.buddy.start ∈ p.freeList b.exp) && growsTo used p fuel b.parent)) := rfl

/-- How far an area grows depends only on the lists of its size and above. -/
theorem growsTo_congr {p' : Pool} {fuel : Nat} (h : ∀ n, b.exp ≤ n → p'.freeList n = p.freeList n) :
    growsTo used p' fuel b = growsTo used p fuel b := by
  induction fuel generalizing b with
  | zero => rfl
  | succ fuel ih =>
    rw [growsTo_succ, growsTo_succ, h b.exp le_rfl, ih fun n hn => h n (by simp only [parent] at hn; omega)]

/-- Joining two areas does not touch the word behind all areas. -/
theorem tailPasses_joined (h : Shape p used A F) (hb : b ∈ A) (hBuddy : b.buddy ∈ F) :
    TailPasses used (joined p b) ↔ TailPasses used p := by
  have hStop := h.join hb hBuddy |>.tiles.stop b.parent (mem_union_left _ (mem_insert_self ..))
  have hPos := b.parent.size_pos
  have hSame : (joined p b).word used = p.word used := update_of_ne (by unfold stop at hStop; omega) ..
  rw [TailPasses, TailPasses, hSame]
  rfl

/-- A free area that is first in its list, as `mem_area_alloc` takes it. -/
structure Ready (p : Pool) (used : Nat) (A F : Finset Block) (c : Block) : Prop where
  shape : Shape p used A F
  free : c ∈ F
  first : ∃ rest, p.freeList c.exp = c.start :: rest
  noBuddies : NoBuddies (F.erase c)

/-- The first area of a list is free. -/
theorem Shape.ready (h : Shape p used A F) (hNone : NoBuddies F) {area : Nat} {rest : List Nat}
    (hList : p.freeList i = area :: rest) : Ready p used A F ⟨area, i⟩ :=
  ⟨h, (h.listed.mem i area).mp (hList ▸ List.mem_cons_self), ⟨rest, hList⟩, hNone.mono (erase_subset _ F)⟩

/-- An area that is too large is split, and its lower half is first in the next list. -/
theorem Ready.split (h : Ready p used A F c) (hExp : c.exp = i + 1) (hSome : 5 ≤ i) :
    ∃ F', Ready (splitArea i c.start p) used A F' ⟨c.start, i⟩ := by
  have hFew := (h.shape.exps c (mem_union_right A h.free)).2
  have hLower : lowerHalf c = ⟨c.start, i⟩ := Block.ext rfl (by simp only [lowerHalf]; omega)
  have hNone := noBuddies_split h.shape h.free (by omega) h.noBuddies
  have hShape := h.shape.split h.free hExp hSome
  rw [hLower] at hNone hShape
  refine ⟨_, hShape, mem_insert_self _ _, ?_, hNone⟩
  exact ⟨_, update_self ..⟩

/-- `mem_pool_fill_free_list` returns; if it does not find a larger area, nothing changed. -/
theorem memPoolFillFreeList_spec {fuel : Nat} (h : Shape p used A F) (hNone : NoBuddies F) (hSome : 5 ≤ i)
    (hFuel : 63 - i < fuel) :
    memPoolFillFreeList fuel i p = some (false, p) ∨
      ∃ p' F' area, memPoolFillFreeList fuel i p = some (true, p') ∧ Ready p' used A F' ⟨area, i⟩ ∧
        p'.size = p.size := by
  induction fuel generalizing i with
  | zero => omega
  | succ fuel ih =>
    rw [memPoolFillFreeList]
    by_cases hLast : 63 ≤ i
    · exact .inl (if_pos hLast)
    rw [if_neg hLast]
    cases hList : p.freeList (i + 1) with
    | cons area rest =>
      obtain ⟨F', hReady⟩ := (h.ready hNone hList).split rfl hSome
      exact .inr ⟨_, F', area, rfl, hReady, rfl⟩
    | nil =>
      rcases ih (by omega) (by omega : 63 - (i + 1) < fuel) with hFill | ⟨p', F', area, hFill, hReady, hSize⟩
      · rw [hFill]
        exact .inl rfl
      · rw [hFill]
        obtain ⟨rest, hFirst⟩ := hReady.first
        obtain ⟨F'', hReady'⟩ := hReady.split rfl hSome
        refine .inr ⟨_, F'', area, ?_, hReady', hSize⟩
        dsimp only at hFirst ⊢
        rw [hFirst]

/-- The list that `mem_area_alloc` looks at: its areas have room for the buffer and a header. -/
theorem listFor_bounds {size : Nat} (hSize : size + memAreaExtraSize ≤ 2 ^ 63) :
    let n := ut2Log (max ((size + memAreaExtraSize) % 2 ^ 64) memAreaMinSize)
    5 ≤ n ∧ n < 64 ∧ size + memAreaExtraSize ≤ 2 ^ n := by
  intro n
  have hMod : (size + memAreaExtraSize) % 2 ^ 64 = size + memAreaExtraSize := mod_eq_of_lt (by omega)
  have hMin : memAreaMinSize = 48 := rfl
  obtain ⟨hLow, hHigh⟩ := ut2Log_bounds (n := max ((size + memAreaExtraSize) % 2 ^ 64) memAreaMinSize)
    (by omega) (by omega)
  change 2 ^ (n - 1) < _ at hLow
  change _ ≤ 2 ^ n at hHigh
  have hSome : 2 ^ 5 < 2 ^ n := by omega
  have hFew : 2 ^ (n - 1) < 2 ^ 63 := by omega
  have hSome' := (Nat.pow_lt_pow_iff_right (by omega)).mp hSome
  have hFew' := (Nat.pow_lt_pow_iff_right (by omega)).mp hFew
  exact ⟨by omega, by omega, by omega⟩

/-- The area is taken out of its list and marked as used. -/
theorem Ready.take (h : Ready p used A F c) :
    ∃ p', takeArea c.exp c.start p = some (some (c.start + memAreaExtraSize), p') ∧ p'.size = p.size ∧
      Shape p' used (insert c A) (F.erase c) ∧ NoBuddies (F.erase c) ∧ c ∉ A := by
  obtain ⟨p', hTake, hSize, hShape⟩ := h.shape.take h.free
  exact ⟨p', hTake, hSize, hShape, h.noBuddies, fun hIn => disjoint_left.mp h.shape.disjoint hIn h.free⟩

section
variable (h : Shape p used A F)
include h

/-- `mem_area_alloc` takes a free area into use that is large enough, or changes nothing. -/
theorem memAreaAlloc_spec (hNone : NoBuddies F) {size : Nat}
    (hSize : size + memAreaExtraSize ≤ 2 ^ 63) : memAreaAlloc size p = some (none, p) ∨
      ∃ p' F' b, memAreaAlloc size p = some (some (b.start + memAreaExtraSize), p') ∧ p'.size = p.size ∧
        Shape p' used (insert b A) F' ∧ NoBuddies F' ∧ b ∉ A ∧ size + memAreaExtraSize ≤ b.size := by
  obtain ⟨hSome, hFew, hRoom⟩ := listFor_bounds hSize
  rw [memAreaAlloc, if_neg (by omega)]
  generalize ut2Log _ = n at *
  cases hList : p.freeList n with
  | cons area rest =>
    obtain ⟨p', hTake, hSame, hShape, hNone', hFresh⟩ := (h.ready hNone hList).take
    exact .inr ⟨p', _, ⟨area, n⟩, hTake, hSame, hShape, hNone', hFresh, hRoom⟩
  | nil =>
    rcases memPoolFillFreeList_spec h hNone hSome (by omega : 63 - n < 64) with
      hFill | ⟨filled, F', area, hFill, hReady, hFilled⟩
    · rw [hFill]
      exact .inl rfl
    · obtain ⟨rest, hFirst⟩ := hReady.first
      obtain ⟨p', hTake, hSame, hShape, hNone', hFresh⟩ := hReady.take
      refine .inr ⟨p', _, ⟨area, n⟩, ?_, hSame.trans hFilled, hShape, hNone', hFresh, hRoom⟩
      rw [hFill]
      dsimp only at hFirst hTake ⊢
      rw [hFirst]
      exact hTake

/-- The buddy that `mem_area_get_buddy` finds is among the areas, or smaller ones start there. -/
theorem memAreaGetBuddy_spec (hb : b ∈ A) :
    (memAreaGetBuddy b.start b.size p = none ∧ b.buddy ∉ F) ∨
      ∃ c ∈ A ∪ F, memAreaGetBuddy b.start b.size p = some c.start ∧ c.start = b.buddy.start ∧ c.exp ≤ b.exp := by
  have hbMem : b ∈ A ∪ F := mem_union_left F hb
  have hAligned := h.tiles.aligned b hbMem
  have hStop := h.tiles.stop b hbMem
  have hInPool := h.inPool
  rcases hAligned.halves with ⟨hLower, hBuddy, -, -⟩ | ⟨hUpper, hLe, hBuddy, -, -⟩
  · have hBuddyStop : b.buddy.stop = b.start + b.size + b.size := by
      rw [stop, buddy_size, hBuddy]
    rw [memAreaGetBuddy, if_pos hLower]
    by_cases hOut : p.size < b.start + b.size + b.size
    · refine .inl ⟨if_pos hOut, fun hIn => ?_⟩
      have hInside := h.tiles.stop _ (mem_union_right A hIn)
      omega
    · obtain ⟨c, hc, hStart, hExp⟩ := h.tiles.start_buddy hbMem (h.edge b hAligned hStop (by omega))
      refine .inr ⟨c, hc, ?_, hStart, hExp⟩
      rw [if_neg hOut, hStart, hBuddy]
  · have hBuddyStop : b.buddy.stop = b.start := by
      rw [stop, hBuddy]
      exact Nat.sub_add_cancel hLe
    have hInside : b.start ≤ used := (le_add_right _ _).trans hStop
    obtain ⟨c, hc, hStart, hExp⟩ := h.tiles.start_buddy hbMem (by omega)
    refine .inr ⟨c, hc, ?_, hStart, hExp⟩
    rw [memAreaGetBuddy, if_neg hUpper, hStart, hBuddy]

/-- An area is joined with its buddy if that is free, and only then. -/
theorem joinable_spec (hb : b ∈ A) :
    joinable b.start b.size p = if b.buddy ∈ F then some b.buddy.start else none := by
  rw [joinable]
  rcases memAreaGetBuddy_spec h hb with ⟨hGet, hAlone⟩ | ⟨c, hc, hGet, hStart, hSmall⟩
  · rw [hGet, if_neg hAlone]
    rfl
  · rw [hGet, ← hStart]
    have hIff : (memAreaGetFree (p.word c.start) = true ∧ b.size = memAreaGetSize (p.word c.start)) ↔
        b.buddy ∈ F := by
      rw [h.getFree hc, h.getSize hc]
      constructor
      · rintro ⟨hcF, hSize⟩
        have hExp : b.exp = c.exp := (Nat.pow_right_inj (by omega)).mp (hSize)
        have hEq : c = b.buddy := Block.ext hStart (by rw [buddy_exp, hExp])
        exact hEq ▸ hcF
      · intro hBuddy
        have hEq : c = b.buddy := h.tiles.eq_of_start (mem_union_right A hBuddy) hc hStart
        rw [hEq]
        exact ⟨hBuddy, b.buddy_size.symm⟩
    simp only [Option.filter, hIff, decide_eq_true_eq]

/-- The header of the next area passes the check. -/
theorem nextPasses_spec (hb : b ∈ A) (hTail : b.stop = used → TailPasses used p) :
    nextPasses b.start b.size p = true := by
  have hbMem : b ∈ A ∪ F := mem_union_left F hb
  have hStop := h.tiles.stop b hbMem
  rw [nextPasses, decide_eq_true_eq]
  change p.size ≤ b.stop ∨ ut2PowerUp (memAreaGetSize (p.word b.stop)) = memAreaGetSize (p.word b.stop)
  rcases hStop.eq_or_lt with hEnd | hInside
  · rw [hEnd]
    exact hTail hEnd
  · -- an area covers the byte behind this one, and it begins there
    obtain ⟨c, hc, hCovers⟩ := h.tiles.covers b.stop hInside
    have hStart : c.start = b.stop := by
      by_contra hNe
      have hPos := b.size_pos
      have hLast : c.Covers (b.stop - 1) := by
        unfold Covers at hCovers ⊢
        omega
      have hSame := h.tiles.unique c hc b hbMem (b.stop - 1) hLast (by unfold Covers stop; omega)
      rw [hSame] at hCovers
      exact absurd hCovers.2 (lt_irrefl _)
    have hExp := h.exps c hc
    right
    rw [← hStart, h.getSize hc]
    exact ut2PowerUp_two_pow (by omega)

/-- `mem_area_free` on an area in use. -/
theorem memAreaFreeBody_eq (hb : b ∈ A) (hTail : b.stop = used → TailPasses used p) :
    memAreaFreeBody ((b.start + memAreaExtraSize : Nat) : Int) p =
      if b.buddy ∈ F then some (.inr (((b.parent.start + memAreaExtraSize : Nat) : Int), joined p b))
      else some (.inl (releaseArea b.exp b.size b.start p)) := by
  have hbMem : b ∈ A ∪ F := mem_union_left F hb
  have hExp := h.exps b hbMem
  have hInside : b.start + memAreaExtraSize < p.size := by
    have hStop := h.tiles.stop b hbMem
    have hInPool := h.inPool
    have hLarge : 2 ^ 5 ≤ b.size := Nat.pow_le_pow_right (by omega) hExp.1
    simp only [stop, memAreaExtraSize] at *
    omega
  have hNotFree : ¬ (memAreaGetFree (p.word b.start) = true ∨ b.size = 0) := by
    rw [h.getFree hbMem]
    exact not_or.mpr ⟨disjoint_left.mp h.disjoint hb, b.size_pos.ne'⟩
  have hLog : ut2Log b.size = b.exp := ut2Log_two_pow (by omega) (by omega)
  rw [memAreaFreeBody, if_neg (by omega), Int.toNat_natCast, Nat.add_sub_cancel]
  dsimp only
  rw [h.getSize hbMem, if_neg hNotFree, if_neg (by rw [nextPasses_spec h hb hTail]; decide), hLog, joinable_spec h hb]
  by_cases hBuddy : b.buddy ∈ F
  · rw [if_pos hBuddy, if_pos hBuddy]
    dsimp only
    rw [joinBuddy_eq h hb]
  · rw [if_neg hBuddy, if_neg hBuddy]

/-- `mem_area_free` returns, and the areas in use are the others. -/
theorem memAreaFree_spec {fuel : Nat} (hNone : NoBuddies F) (hb : b ∈ A) (hFuel : 31 - b.exp < fuel)
    (hTail : TailPasses used p ∨ growsTo used p fuel b = false) :
    ∃ p' F', memAreaFree fuel ((b.start + memAreaExtraSize : Nat) : Int) p = some p' ∧ p'.size = p.size ∧
      Shape p' used (A.erase b) F' ∧ NoBuddies F' := by
  induction fuel generalizing p A F b with
  | zero => omega
  | succ fuel ih =>
    have hbMem : b ∈ A ∪ F := mem_union_left F hb
    have hExp := h.exps b hbMem
    rw [growsTo_succ] at hTail
    rw [memAreaFree, memAreaFreeBody_eq h hb fun hEnd => hTail.resolve_right (by simp [hEnd])]
    by_cases hBuddy : b.buddy ∈ F
    · rw [if_pos hBuddy]
      have hJoin := h.join hb hBuddy
      have hListed : b.buddy.start ∈ p.freeList b.exp := by
        rw [h.listed.mem, ← b.buddy_exp]
        exact hBuddy
      have hTail' : TailPasses used (joined p b) ∨ growsTo used (joined p b) fuel b.parent = false := by
        refine hTail.imp (tailPasses_joined h hb hBuddy).mpr fun hNot => ?_
        have hSame : growsTo used (joined p b) fuel b.parent = growsTo used p fuel b.parent :=
          growsTo_congr fun n hn => update_of_ne (by simp only [parent] at hn; omega) ..
        rw [hSame]
        simpa [hListed] using (Bool.or_eq_false_iff.mp hNot).2
      obtain ⟨p', F', hFree, hSize, hShape, hNone'⟩ := ih hJoin (hNone.mono (erase_subset _ F))
        (mem_insert_self _ _) (by simp only [parent]; omega) hTail'
      rw [erase_insert] at hShape
      · exact ⟨p', F', hFree, hSize, hShape, hNone'⟩
      · exact fun hIn => h.parent_not_mem hbMem (mem_union_right A hBuddy)
          (mem_union_left F (mem_of_mem_erase hIn))
    · rw [if_neg hBuddy]
      refine ⟨_, _, rfl, rfl, h.release hb, hNone.insert (fun c hc => ?_) (h.tiles.aligned b hbMem) hBuddy⟩
      exact h.tiles.aligned c (mem_union_right A hc)

end

end

/-! The areas that `mem_pool_create` sets up. -/

/-- Between multiples there is room for the divisor. -/
theorem add_le_of_dvd {k m n : Nat} (hm : k ∣ m) (hn : k ∣ n) (hLess : m < n) : m + k ≤ n := by
  have hStep := le_of_dvd (by omega) (dvd_sub hn hm)
  omega

/-- The rest of the pool has no buddy of an area in it. -/
theorem edge_of_dvd {i used size : Nat} (hDvd : 2 ^ i ∣ used) (hRest : size < used + 2 ^ i) (b : Block)
    (hb : b.Aligned) (hStop : b.stop ≤ used) (hBuddy : b.buddy.stop ≤ size) : b.buddy.stop ≤ used := by
  have hPos := b.size_pos
  rcases hb.halves with ⟨hMod, hLower, -, -⟩ | ⟨-, hLe, hUpper, -, -⟩
  · have hEnd : b.buddy.stop = b.start + 2 * b.size := by
      rw [stop, buddy_size, hLower]
      simp only
      omega
    have hDouble : 2 * b.size ∣ b.start + 2 * b.size := Nat.dvd_add (dvd_of_mod_eq_zero hMod) (dvd_refl _)
    by_contra hOut
    rcases lt_or_ge b.exp i with hSmall | hLarge
    · have hPow : 2 * b.size ∣ used := by
        refine Dvd.dvd.trans ?_ hDvd
        rw [Block.size, ← pow_succ']
        exact pow_dvd_pow 2 hSmall
      have hRoom := add_le_of_dvd (dvd_of_mod_eq_zero hMod) hPow
        (lt_of_lt_of_le (Nat.lt_add_of_pos_right hPos) hStop)
      omega
    · have hPow : 2 ^ i ∣ 2 * b.size := Dvd.dvd.mul_left (pow_dvd_pow 2 hLarge) 2
      have hRoom := add_le_of_dvd hDvd (hPow.trans hDouble) (by omega)
      omega
  · have hEnd : b.buddy.stop = b.start := by
      rw [stop, hUpper]
      exact Nat.sub_add_cancel hLe
    have hStart : b.start ≤ b.stop := le_add_right _ _
    omega

/-- The exponent that `mem_pool_create` takes for a rest of `n` bytes. -/
theorem exponent_bounds {n i : Nat} (hMin : 48 ≤ n) (hMax : n < 2 ^ 31)
    (hi : i = if n < ut2Exp (ut2Log n) then ut2Log n - 1 else ut2Log n) :
    5 ≤ i ∧ i < 31 ∧ 2 ^ i ≤ n ∧ n < 2 ^ (i + 1) := by
  obtain ⟨hLow, hHigh⟩ := ut2Log_bounds (by omega : 2 ≤ n) (by omega)
  have hFew : ut2Log n - 1 < 31 := (Nat.pow_lt_pow_iff_right (by omega)).mp (hLow.trans hMax)
  have hBounds : i < 31 ∧ 2 ^ i ≤ n ∧ n < 2 ^ (i + 1) := by
    by_cases hTop : ut2Log n = 31
    · have hExp : ut2Exp 31 = 2 ^ 64 - 2 ^ 31 := rfl
      rw [hTop, hExp, if_pos (by omega)] at hi
      rw [hTop] at hLow
      subst hi
      exact ⟨by omega, hLow.le, hMax⟩
    · rw [ut2Exp_of_lt (by omega)] at hi
      split at hi
      · rename_i hLess
        have hOne : ut2Log n - 1 + 1 = ut2Log n := by
          have hSome : ut2Log n ≠ 0 := fun hZero => by
            rw [hZero] at hHigh
            omega
          omega
        rw [hi, hOne]
        exact ⟨hFew, hLow.le, hLess⟩
      · rename_i hNot
        have hSame : n = 2 ^ ut2Log n := by omega
        rw [hi, pow_succ]
        exact ⟨by omega, hSame.ge, by omega⟩
  refine ⟨?_, hBounds⟩
  have hSome : 2 ^ 5 < 2 ^ (i + 1) := by omega
  have hSome' := (Nat.pow_lt_pow_iff_right (by omega)).mp hSome
  omega

/-- The pool while it is cut: no area is below the size that is tried next. -/
structure Creating (p : Pool) (used i : Nat) (F : Finset Block) : Prop where
  shape : Shape p used ∅ F
  noBuddies : NoBuddies F
  large : ∀ b ∈ F, i ≤ b.exp
  dvd : 2 ^ i ∣ used
  rest : p.size < used + 2 ^ i

variable {p : Pool} {used i j : Nat} {F : Finset Block}

/-- An area is set up behind the others. -/
theorem Shape.setUp (h : Shape p used ∅ F) (hSome : 5 ≤ j) (hFew : j < 31) (hAligned : (Block.mk used j).Aligned)
    (hRoom : used + 2 ^ j ≤ p.size) (hRest : p.size < used + 2 ^ j + 2 ^ j) :
    Shape (((p.setSize used (2 ^ j)).setFree used true).addFirst j used) (used + 2 ^ j) ∅
      (insert ⟨used, j⟩ F) := by
  have hBefore (b : Block) (hb : b ∈ F) : b.start < used := by
    have hStop := h.tiles.stop b (mem_union_right ∅ hb)
    have hPos := b.size_pos
    unfold stop at hStop
    omega
  have hSet (w : Nat) : memAreaSetFree (memAreaSetSize w (2 ^ j)) true = header ⟨used, j⟩ true :=
    memAreaSetFree_setSize (b := ⟨used, j⟩) (by simp only; omega)
  simp only [Pool.addFirst, Pool.setFree, Pool.setSize, update_self, update_idem, hSet]
  constructor
  · rw [empty_union]
    exact Tiles.append (by rw [← empty_union F]; exact h.tiles) hAligned rfl
  · exact disjoint_empty_left _
  · intro b hb
    rw [empty_union] at hb
    rcases mem_insert.mp hb with rfl | hb
    · exact ⟨hSome, hFew⟩
    · exact h.exps b (mem_union_right ∅ hb)
  · exact fun b hb => absurd hb (notMem_empty b)
  · intro b hb
    rcases mem_insert.mp hb with rfl | hb
    · exact update_self ..
    · exact (update_of_ne (hBefore b hb).ne _ _).trans (h.free b hb)
  · have hNew : (⟨used, j⟩ : Block) ∉ F := fun hIn => lt_irrefl used (hBefore _ hIn)
    exact h.listed.insert hNew
  · exact h.reserved
  · exact hRoom
  · exact h.small
  · exact edge_of_dvd (Nat.dvd_add hAligned (dvd_refl _)) hRest

/-- The next area. -/
theorem Creating.step (h : Creating p used i F) (hMin : 48 ≤ p.size - used)
    (hj : j = if p.size - used < ut2Exp (ut2Log (p.size - used)) then ut2Log (p.size - used) - 1
      else ut2Log (p.size - used)) :
    j < i ∧ Creating (((p.setSize used (ut2Exp j)).setFree used true).addFirst j used) (used + ut2Exp j) j
      (insert ⟨used, j⟩ F) := by
  have hSmall := h.shape.small
  have hRest := h.rest
  obtain ⟨hSome, hFew, hLow, hHigh⟩ := exponent_bounds hMin (by omega) hj
  have hLess : j < i := (Nat.pow_lt_pow_iff_right (by omega)).mp (by omega : 2 ^ j < 2 ^ i)
  have hDvd : 2 ^ (j + 1) ∣ used := (pow_dvd_pow 2 hLess).trans h.dvd
  have hAligned : (Block.mk used j).Aligned := (pow_dvd_pow 2 (le_succ j)).trans hDvd
  have hRest' : p.size < used + 2 ^ j + 2 ^ j := by
    omega
  rw [ut2Exp_of_lt hFew]
  refine ⟨hLess, h.shape.setUp hSome hFew hAligned (by omega) hRest', ?_, ?_,
    Nat.dvd_add hAligned (dvd_refl _), hRest'⟩
  · -- the buddy of the new area would be larger than what was set up before
    refine h.noBuddies.insert (fun b hb => h.shape.tiles.aligned b (mem_union_right ∅ hb)) hAligned
      fun hIn => ?_
    have hLarge := h.large _ hIn
    rw [buddy_exp] at hLarge
    exact absurd hLarge (not_le.mpr hLess)
  · intro b hb
    rcases mem_insert.mp hb with rfl | hb
    · exact le_rfl
    · exact hLess.le.trans (h.large b hb)

/-- The loop of `mem_pool_create` returns when less than the smallest area is left. -/
theorem createLoop_spec {fuel : Nat} (h : Creating p used i F) (hFuel : i < fuel) :
    ∃ used' p' F', createLoop fuel used p = some (used', p') ∧ p'.size = p.size ∧
      p.size < used' + memAreaMinSize ∧ Shape p' used' ∅ F' ∧ NoBuddies F' := by
  induction fuel generalizing used p i F with
  | zero => omega
  | succ fuel ih =>
    rw [createLoop]
    by_cases hMin : memAreaMinSize ≤ p.size - used
    · rw [if_pos hMin]
      obtain ⟨hLess, hNext⟩ := h.step hMin rfl
      exact ih hNext (by omega)
    · rw [if_neg hMin]
      exact ⟨used, p, F, rfl, rfl, by omega, h.shape, h.noBuddies⟩

/-- A new pool is cut into free areas without buddies; less than the smallest area is left over. -/
theorem memPoolCreate_spec (word : Nat → Nat) {size : Nat} (hMin : 10000 < size) (hMax : size < 2 ^ 31) :
    ∃ used pool F, memPoolCreate word size = some (used, pool) ∧ pool.size = size ∧
      size < used + memAreaMinSize ∧ Shape pool used ∅ F ∧ NoBuddies F := by
  rw [memPoolCreate, if_pos hMin]
  refine createLoop_spec (i := 31) (F := ∅) ⟨⟨?_, disjoint_empty_left _, ?_, ?_, ?_, ⟨?_, ?_⟩, rfl,
    zero_le _, hMax, ?_⟩, ?_, ?_, dvd_zero _, by simpa using hMax⟩ (by omega)
  · exact ⟨by simp, by simp, by simp, by simp⟩
  · simp
  · simp
  · simp
  · simp
  · simp
  · intro b _ hStop
    have hPos := b.size_pos
    unfold stop at hStop
    omega
  · exact fun b hb => absurd hb (notMem_empty b)
  · exact fun b hb => absurd hb (notMem_empty b)

end MySQL.Innobase.Mem
