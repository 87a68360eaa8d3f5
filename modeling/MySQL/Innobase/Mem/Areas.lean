import MySQL.Innobase.Mem.Pool
import MySQL.Library.Dyadic

/-! The areas of a pool: what the steps of the allocator do to them. -/
namespace MySQL.Innobase.Mem

open Finset Function Library Block

/-- The largest power of two below `n` has the exponent that the loop counts to. -/
theorem ut2LogLoop_eq (fuel n res : Nat) (h : n < 2 ^ fuel) : ut2LogLoop fuel n res = Nat.log 2 n + res := by
  induction fuel generalizing n res with
  | zero =>
    have hZero : n = 0 := by omega
    rw [ut2LogLoop, hZero, Nat.log_zero_right, zero_add]
  | succ fuel ih =>
    rw [ut2LogLoop]
    split
    · rename_i hHalf
      rw [Nat.log_of_lt (by omega), zero_add]
    · rename_i hHalf
      have hLog : Nat.log 2 n = Nat.log 2 (n / 2) + 1 := Nat.log_of_one_lt_of_le (by omega) (by omega)
      rw [ih (n / 2) (res + 1) (by omega)]
      omega

/-- `ut_2_log` rounds upward. -/
theorem ut2Log_bounds {n : Nat} (hTwo : 2 ≤ n) (hWord : n < 2 ^ 64) :
    2 ^ (ut2Log n - 1) < n ∧ n ≤ 2 ^ ut2Log n := by
  rw [ut2Log, ut2LogLoop_eq 64 (n - 1) 0 (by omega), add_zero, Nat.add_sub_cancel]
  have hLow := Nat.pow_log_le_self 2 (x := n - 1) (by omega)
  have hHigh := Nat.lt_pow_succ_log_self (b := 2) (by omega) (n - 1)
  omega

theorem ut2Log_two_pow {k : Nat} (hSome : 1 ≤ k) (hWord : k < 64) : ut2Log (2 ^ k) = k := by
  have hTwo : 2 ^ 1 ≤ 2 ^ k := Nat.pow_le_pow_right (by omega) hSome
  obtain ⟨hLow, hHigh⟩ := ut2Log_bounds (by omega : 2 ≤ 2 ^ k) (Nat.pow_lt_pow_right (by omega) hWord)
  have hLess : ut2Log (2 ^ k) - 1 < k := (Nat.pow_lt_pow_iff_right (by omega)).mp hLow
  have hMore : k ≤ ut2Log (2 ^ k) := (Nat.pow_le_pow_iff_right (by omega)).mp hHigh
  omega

theorem ut2PowerUpLoop_two_pow {fuel j k : Nat} (hLow : j ≤ k) (hFuel : k ≤ j + fuel) :
    ut2PowerUpLoop fuel (2 ^ k) (2 ^ j) = 2 ^ k := by
  induction fuel generalizing j with
  | zero => rw [ut2PowerUpLoop, le_antisymm hLow hFuel]
  | succ fuel ih =>
    rw [ut2PowerUpLoop]
    split
    · rename_i hLess
      rw [← pow_succ]
      exact ih ((Nat.pow_lt_pow_iff_right (by omega)).mp hLess) (by omega)
    · rename_i hNot
      exact le_antisymm (Nat.pow_le_pow_right (by omega) hLow) (not_lt.mp hNot)

/-- `ut_2_power_up` leaves a power of two as it is. -/
theorem ut2PowerUp_two_pow {k : Nat} (h : k ≤ 64) : ut2PowerUp (2 ^ k) = 2 ^ k := by
  have hLoop := ut2PowerUpLoop_two_pow (Nat.zero_le k) (by omega : k ≤ 0 + 64)
  rwa [pow_zero] at hLoop

/-- `ut_2_exp` shifts an `int`, so it is right below 31. -/
theorem ut2Exp_of_lt {n : Nat} (h : n < 31) : ut2Exp n = 2 ^ n := by
  rw [ut2Exp, Nat.mod_eq_of_lt (by omega), if_neg (by omega)]

/-- The word in front of an area. -/
def header (b : Block) (free : Bool) : Nat := b.size + free.toNat

section
variable {b : Block} {free : Bool} {w : Nat}

section
variable (h : 1 ≤ b.exp)
include h

theorem even_size : b.size = 2 * 2 ^ (b.exp - 1) := by
  rw [size, ← Nat.pow_succ']
  congr 1
  omega

theorem memAreaGetSize_header : memAreaGetSize (header b free) = b.size := by
  rw [memAreaGetSize, header, even_size h]
  have hBit := Bool.toNat_lt free
  omega

theorem memAreaGetFree_header : memAreaGetFree (header b free) = free := by
  rw [memAreaGetFree, header, even_size h]
  cases free
  · simp
  · simp

/-- Setting the size keeps the lowest bit. -/
theorem memAreaSetSize_eq : memAreaSetSize w b.size = b.size + w % 2 := by
  rw [memAreaSetSize, Nat.or_comm, even_size h]
  exact (Nat.two_pow_add_eq_or_of_lt (i := 1) (by omega) _).symm

/-- A new size keeps the bit. -/
theorem memAreaSetSize_header {c : Block} (hc : 1 ≤ c.exp) :
    memAreaSetSize (header c free) b.size = header b free := by
  rw [memAreaSetSize_eq h, header, header, even_size hc]
  have hBit := Bool.toNat_lt free
  omega

/-- A new bit keeps the size. -/
theorem memAreaSetFree_header {old : Bool} :
    memAreaSetFree (header b old) free = header b free := by
  have hSize : header b old / 2 * 2 = b.size := memAreaGetSize_header h
  rw [memAreaSetFree, hSize, header, even_size h]
  exact (Nat.two_pow_add_eq_or_of_lt (i := 1) (Bool.toNat_lt free) _).symm

/-- A header that is written anew. -/
theorem memAreaSetFree_setSize : memAreaSetFree (memAreaSetSize w b.size) free = header b free := by
  have hBit : w % 2 = (decide (w % 2 = 1)).toNat := by
    rcases Nat.mod_two_eq_zero_or_one w with hZero | hOne
    · simp [hZero]
    · simp [hOne]
  rw [memAreaSetSize_eq h, hBit]
  exact memAreaSetFree_header h

end

end

/-- The free lists hold these blocks, each under its exponent and once. -/
structure Listed (freeList : Nat → List Nat) (F : Finset Block) : Prop where
  mem : ∀ n area, area ∈ freeList n ↔ ⟨area, n⟩ ∈ F
  nodup : ∀ n, (freeList n).Nodup

section
variable {freeList : Nat → List Nat} {F : Finset Block} (h : Listed freeList F)
include h

/-- A block comes to the front of the list of its size. -/
theorem Listed.insert {b : Block} (hb : b ∉ F) :
    Listed (update freeList b.exp (b.start :: freeList b.exp)) (insert b F) := by
  constructor
  · intro n area
    rw [mem_insert, Block.ext_iff, ← h.mem]
    by_cases hn : n = b.exp
    · rw [hn, update_self, List.mem_cons]
      tauto
    · rw [update_of_ne hn]
      tauto
  · intro n
    by_cases hn : n = b.exp
    · rw [hn, update_self, List.nodup_cons, h.mem]
      exact ⟨hb, h.nodup b.exp⟩
    · rw [update_of_ne hn]
      exact h.nodup n

/-- A block leaves the list of its size. -/
theorem Listed.erase (b : Block) :
    Listed (update freeList b.exp ((freeList b.exp).erase b.start)) (F.erase b) := by
  constructor
  · intro n area
    rw [mem_erase, ne_eq, Block.ext_iff, ← h.mem]
    by_cases hn : n = b.exp
    · rw [hn, update_self, (h.nodup b.exp).mem_erase_iff]
      tauto
    · rw [update_of_ne hn]
      tauto
  · intro n
    by_cases hn : n = b.exp
    · rw [hn, update_self]
      exact (h.nodup b.exp).erase _
    · rw [update_of_ne hn]
      exact h.nodup n

end

/-- The areas `A` are in use and the areas `F` are free, and together they take the first
`used` bytes of the pool. -/
structure Shape (p : Pool) (used : Nat) (A F : Finset Block) : Prop where
  tiles : Tiles (A ∪ F) used
  disjoint : Disjoint A F
  exps : ∀ b ∈ A ∪ F, 5 ≤ b.exp ∧ b.exp < 31
  inUse : ∀ b ∈ A, p.word b.start = header b false
  free : ∀ b ∈ F, p.word b.start = header b true
  listed : Listed p.freeList F
  reserved : p.reserved = ∑ b ∈ A, b.size
  inPool : used ≤ p.size
  small : p.size < 2 ^ 31
  edge : ∀ b : Block, b.Aligned → b.stop ≤ used → b.buddy.stop ≤ p.size → b.buddy.stop ≤ used

section
variable {p : Pool} {used : Nat} {A F : Finset Block} {b c : Block} {i : Nat}

/-- No other block begins inside a block. -/
theorem Shape.start_ne (h : Shape p used A F) (hb : b ∈ A ∪ F) (hc : c ∈ A ∪ F) (hNe : b ≠ c) {x : Nat}
    (hx : c.Covers x) : b.start ≠ x := fun hEq =>
  hNe (h.tiles.unique b hb c hc x (hEq ▸ b.covers_start) hx)

theorem Shape.not_mem_of_covers (h : Shape p used A F) (hc : c ∈ A ∪ F) (hx : c.Covers b.start)
    (hExp : b.exp ≠ c.exp) : b ∉ A ∪ F := fun hb =>
  h.start_ne hb hc (fun hEq => hExp (congrArg exp hEq)) hx rfl

def lowerHalf (b : Block) : Block := ⟨b.start, b.exp - 1⟩

def upperHalf (b : Block) : Block := ⟨b.start + 2 ^ (b.exp - 1), b.exp - 1⟩

/-- The halves of a block are buddies. -/
theorem halves_spec (hb : b.Aligned) (hExp : 1 ≤ b.exp) :
    (lowerHalf b).Aligned ∧ (lowerHalf b).parent = b ∧ (lowerHalf b).buddy = upperHalf b := by
  have hDouble : b.size = 2 * (lowerHalf b).size := even_size hExp
  have hAligned : (lowerHalf b).Aligned := Dvd.dvd.trans ⟨2, by rw [hDouble, mul_comm]⟩ hb
  have hMod : (lowerHalf b).start % (2 * (lowerHalf b).size) = 0 := by
    rw [← hDouble]
    exact Nat.mod_eq_zero_of_dvd hb
  rcases hAligned.halves with ⟨-, hBuddy, hParent, -⟩ | ⟨hNot, -⟩
  · refine ⟨hAligned, hParent.trans ?_, hBuddy⟩
    exact Block.ext rfl (by simp only [lowerHalf]; omega)
  · exact absurd hMod hNot

theorem covers_upperHalf (hExp : 1 ≤ b.exp) : b.Covers (upperHalf b).start := by
  have hSize := even_size hExp
  have hPos : 0 < 2 ^ (b.exp - 1) := Nat.two_pow_pos _
  unfold Covers stop upperHalf
  simp only
  omega

/-- What `splitArea` writes. -/
theorem splitArea_eq (hc : p.word c.start = header c true) (hExp : c.exp = i + 1) (hSome : 1 ≤ i)
    (hFew : i < 31) :
    splitArea i c.start p = { p with
        word := update (update p.word (upperHalf c).start (header (upperHalf c) true))
          c.start (header (lowerHalf c) true)
        freeList := update (update p.freeList c.exp ((p.freeList c.exp).erase c.start)) i
          (c.start :: (upperHalf c).start :: p.freeList i) } := by
  have hPos : 0 < 2 ^ i := Nat.two_pow_pos i
  have hNe : c.start ≠ c.start + 2 ^ i := by omega
  have hUpper (w : Nat) : memAreaSetFree (memAreaSetSize w (2 ^ i)) true = header ⟨c.start + 2 ^ i, i⟩ true :=
    memAreaSetFree_setSize (b := ⟨c.start + 2 ^ i, i⟩) hSome
  have hLower : memAreaSetSize (header c true) (2 ^ i) = header ⟨c.start, i⟩ true :=
    memAreaSetSize_header (b := ⟨c.start, i⟩) hSome (by omega)
  simp only [splitArea, Pool.remove, Pool.setSize, Pool.setFree, Pool.addFirst, ut2Exp_of_lt hFew,
    update_self, update_idem, update_of_ne hNe, hUpper, hc, hLower,
    update_of_ne (ne_of_lt (Nat.lt_succ_self i)), upperHalf, lowerHalf, hExp,
    Nat.add_sub_cancel]

section
variable (h : Shape p used A F)
include h

/-- A free area becomes two free areas. -/
theorem Shape.split (hc : c ∈ F) (hExp : c.exp = i + 1) (hSome : 5 ≤ i) :
    Shape (splitArea i c.start p) used A (insert (lowerHalf c) (insert (upperHalf c) (F.erase c))) := by
  have hcMem : c ∈ A ∪ F := mem_union_right A hc
  have hFew := (h.exps c hcMem).2
  obtain ⟨hAligned, hParent, hBuddy⟩ := halves_spec (h.tiles.aligned c hcMem) (by omega)
  have hcA : c ∉ A := fun hIn => disjoint_left.mp h.disjoint hIn hc
  have hUpper := covers_upperHalf (b := c) (by omega)
  have hLowerNot : lowerHalf c ∉ A ∪ F :=
    h.not_mem_of_covers hcMem c.covers_start (by simp only [lowerHalf]; omega)
  have hUpperNot : upperHalf c ∉ A ∪ F :=
    h.not_mem_of_covers hcMem hUpper (by simp only [upperHalf]; omega)
  have hUnion : A ∪ insert (lowerHalf c) (insert (upperHalf c) (F.erase c)) =
      ((A ∪ F) \ {c}) ∪ {lowerHalf c, (lowerHalf c).buddy} := by
    rw [hBuddy]
    ext b
    simp only [mem_union, mem_sdiff, mem_insert, mem_singleton, mem_erase]
    by_cases hEq : b = c
    · subst hEq
      tauto
    · tauto
  rw [splitArea_eq (h.free c hc) hExp (by omega) (by omega)]
  -- the other areas do not start where a header is written
  have hFrame (b : Block) (hb : b ∈ A ∪ F) (hNe : b ≠ c) (w : Nat) (w' : Nat) :
      update (update p.word (upperHalf c).start w) c.start w' b.start = p.word b.start := by
    rw [update_of_ne (h.start_ne hb hcMem hNe c.covers_start),
      update_of_ne (h.start_ne hb hcMem hNe hUpper)]
  constructor
  · rw [hUnion]
    exact h.tiles.split hcMem hAligned hParent
  · simp only [disjoint_insert_right]
    simp only [mem_union, not_or] at hLowerNot hUpperNot
    exact ⟨hLowerNot.1, hUpperNot.1, h.disjoint.mono_right (erase_subset c F)⟩
  · intro b hb
    rw [hUnion, hBuddy] at hb
    simp only [mem_union, mem_sdiff, mem_insert, mem_singleton] at hb
    rcases hb with ⟨hb, -⟩ | rfl | rfl
    · exact h.exps b (mem_union.mpr hb)
    · simp only [lowerHalf]
      omega
    · simp only [upperHalf]
      omega
  · intro b hb
    exact (hFrame b (mem_union_left F hb) (fun hEq => hcA (hEq ▸ hb)) _ _).trans (h.inUse b hb)
  · intro b hb
    simp only [mem_insert, mem_erase] at hb
    rcases hb with rfl | rfl | ⟨hNe, hb⟩
    · exact update_self ..
    · refine (update_of_ne ?_ _ _).trans (update_self ..)
      have hPos : 0 < 2 ^ (c.exp - 1) := Nat.two_pow_pos _
      simp only [upperHalf]
      omega
    · exact (hFrame b (mem_union_right A hb) hNe _ _).trans (h.free b hb)
  · have hLists := ((h.listed.erase c).insert
        (fun hIn => hUpperNot (mem_union_right A (mem_of_mem_erase hIn)))).insert
        (by
          simp only [mem_insert, mem_erase, not_or]
          refine ⟨fun hEq => ?_, fun hIn => hLowerNot (mem_union_right A hIn.2)⟩
          exact not_covers_buddy hAligned (lowerHalf c).covers_start (hBuddy ▸ hEq ▸ (lowerHalf c).covers_start))
    rw [show (upperHalf c).exp = i by simp only [upperHalf]; omega,
      show (lowerHalf c).exp = i by simp only [lowerHalf]; omega, update_self, update_idem,
      update_of_ne (by omega)] at hLists
    exact hLists
  · exact h.reserved
  · exact h.inPool
  · exact h.small
  · exact h.edge

/-- The header of an area has the size of its block. -/
theorem Shape.getSize (hb : b ∈ A ∪ F) : memAreaGetSize (p.word b.start) = b.size := by
  have hExp := h.exps b hb
  rcases mem_union.mp hb with hA | hF
  · rw [h.inUse b hA, memAreaGetSize_header (by omega)]
  · rw [h.free b hF, memAreaGetSize_header (by omega)]

/-- The header of an area says whether its block is free. -/
theorem Shape.getFree (hb : b ∈ A ∪ F) : memAreaGetFree (p.word b.start) = true ↔ b ∈ F := by
  have hExp := h.exps b hb
  rcases mem_union.mp hb with hA | hF
  · rw [h.inUse b hA, memAreaGetFree_header (by omega)]
    simp only [Bool.false_eq_true, false_iff]
    exact disjoint_left.mp h.disjoint hA
  · rw [h.free b hF, memAreaGetFree_header (by omega)]
    simp only [true_iff]
    exact hF

/-- A free area is taken into use. -/
theorem Shape.take (hb : b ∈ F) :
    ∃ p', takeArea b.exp b.start p = some (some (b.start + memAreaExtraSize), p') ∧ p'.size = p.size ∧
      Shape p' used (insert b A) (F.erase b) := by
  have hbMem : b ∈ A ∪ F := mem_union_right A hb
  have hExp := h.exps b hbMem
  have hbA : b ∉ A := fun hIn => disjoint_left.mp h.disjoint hIn hb
  have hSet : memAreaSetFree (p.word b.start) false = header b false := by
    rw [h.free b hb, memAreaSetFree_header (by omega)]
  have hUnion : insert b A ∪ F.erase b = A ∪ F := by
    rw [insert_union, ← union_insert, insert_erase hb]
  let p' : Pool :=
    { p with
      word := update p.word b.start (header b false)
      freeList := update p.freeList b.exp ((p.freeList b.exp).erase b.start)
      reserved := p.reserved + b.size }
  have hFrame (c : Block) (hc : c ∈ A ∪ F) (hNe : c ≠ b) : p'.word c.start = p.word c.start :=
    update_of_ne (h.start_ne hc hbMem hNe b.covers_start) _ _
  refine ⟨p', ?_, rfl, ?_⟩
  · rw [takeArea, if_pos ((h.getFree hbMem).mpr hb)]
    simp only [Pool.setFree, Pool.remove, update_self, hSet, memAreaGetSize_header (by omega : 1 ≤ b.exp)]
    rfl
  · constructor
    · rw [hUnion]
      exact h.tiles
    · rw [disjoint_insert_left]
      exact ⟨notMem_erase b F, h.disjoint.mono_right (erase_subset b F)⟩
    · rw [hUnion]
      exact h.exps
    · intro c hc
      by_cases hEq : c = b
      · rw [hEq]
        exact update_self ..
      · have hcA := mem_of_mem_insert_of_ne hc hEq
        exact (hFrame c (mem_union_left F hcA) hEq).trans (h.inUse c hcA)
    · intro c hc
      obtain ⟨hNe, hcF⟩ := mem_erase.mp hc
      exact (hFrame c (mem_union_right A hcF) hNe).trans (h.free c hcF)
    · exact h.listed.erase b
    · rw [sum_insert hbA, ← h.reserved, add_comm]
    · exact h.inPool
    · exact h.small
    · exact h.edge

/-- An area in use is freed on its own. -/
theorem Shape.release (hb : b ∈ A) :
    Shape (releaseArea b.exp b.size b.start p) used (A.erase b) (insert b F) := by
  have hbMem : b ∈ A ∪ F := mem_union_left F hb
  have hExp := h.exps b hbMem
  have hbF : b ∉ F := disjoint_left.mp h.disjoint hb
  have hSet : memAreaSetFree (p.word b.start) true = header b true := by
    rw [h.inUse b hb, memAreaSetFree_header (by omega)]
  have hUnion : A.erase b ∪ insert b F = A ∪ F := by
    rw [union_insert, ← insert_union, insert_erase hb]
  have hFrame (c : Block) (hc : c ∈ A ∪ F) (hNe : c ≠ b) (w : Nat) :
      update p.word b.start w c.start = p.word c.start :=
    update_of_ne (h.start_ne hc hbMem hNe b.covers_start) _ _
  simp only [releaseArea, Pool.addFirst, Pool.setFree, hSet]
  constructor
  · rw [hUnion]
    exact h.tiles
  · rw [disjoint_insert_right]
    exact ⟨notMem_erase b A, h.disjoint.mono_left (erase_subset b A)⟩
  · rw [hUnion]
    exact h.exps
  · intro c hc
    obtain ⟨hNe, hcA⟩ := mem_erase.mp hc
    exact (hFrame c (mem_union_left F hcA) hNe _).trans (h.inUse c hcA)
  · intro c hc
    by_cases hEq : c = b
    · rw [hEq]
      exact update_self ..
    · have hcF := mem_of_mem_insert_of_ne hc hEq
      exact (hFrame c (mem_union_right A hcF) hEq _).trans (h.free c hcF)
  · exact h.listed.insert hbF
  · simp only
    rw [h.reserved, ← sum_erase_add A _ hb, Nat.add_sub_cancel]
  · exact h.inPool
  · exact h.small
  · exact h.edge

end

/-- The pool after an area was joined with its free buddy. -/
def joined (p : Pool) (b : Block) : Pool :=
  { p with
    word := Function.update p.word b.parent.start (header b.parent false)
    freeList := Function.update p.freeList b.exp ((p.freeList b.exp).erase b.buddy.start)
    reserved := p.reserved + b.size }

/-- What `joinBuddy` does. -/
theorem joinBuddy_eq (h : Shape p used A F) (hb : b ∈ A) :
    joinBuddy b.exp b.size b.start b.buddy.start p = (b.parent.start, joined p b) := by
  have hbMem : b ∈ A ∪ F := mem_union_left F hb
  have hExp := h.exps b hbMem
  have hParentExp : 1 ≤ b.parent.exp := Nat.le_add_left 1 b.exp
  have hSize := b.parent_size
  have hPos := b.size_pos
  have hPow : ut2Exp b.exp = b.size := ut2Exp_of_lt hExp.2
  rcases (h.tiles.aligned b hbMem).halves with ⟨-, hLower, hParent, -⟩ | ⟨-, hLe, hUpper, hParent, -⟩
  · have hNot : ¬ b.buddy.start < b.start := by
      rw [hLower]
      simp only
      omega
    have hStart : b.parent.start = b.start := by rw [hParent]
    have hSet : memAreaSetSize (header b false) b.parent.size = header b.parent false :=
      memAreaSetSize_header hParentExp (by omega)
    rw [joinBuddy, joined, if_neg hNot, if_neg hNot, hStart, hPow, ← hSize]
    simp only [Pool.setSize, Pool.remove, h.inUse b hb, hSet]
  · have hLess : b.buddy.start < b.start := by
      rw [hUpper]
      simp only
      omega
    have hStart : b.parent.start = b.buddy.start := by rw [hParent, hUpper]
    rw [joinBuddy, joined, if_pos hLess, if_pos hLess, hStart, hPow, ← hSize]
    simp only [Pool.setFree, Pool.setSize, Pool.remove, update_self, update_idem,
      memAreaSetFree_setSize hParentExp]

/-- Two buddies are not yet the area of twice the size. -/
theorem Shape.parent_not_mem (h : Shape p used A F) (hb : b ∈ A ∪ F) (hBuddy : b.buddy ∈ A ∪ F) :
    b.parent ∉ A ∪ F := by
  rcases (covers_parent_iff (h.tiles.aligned b hb)).mp b.parent.covers_start with hIn | hIn
  · exact h.not_mem_of_covers hb hIn (by simp [parent])
  · exact h.not_mem_of_covers hBuddy hIn (by simp [parent])

/-- The free buddy of an area in use is joined with it. -/
theorem Shape.join (h : Shape p used A F) (hb : b ∈ A) (hBuddy : b.buddy ∈ F) :
    Shape (joined p b) used (insert b.parent (A.erase b)) (F.erase b.buddy) := by
  have hbMem : b ∈ A ∪ F := mem_union_left F hb
  have hBuddyMem : b.buddy ∈ A ∪ F := mem_union_right A hBuddy
  have hAligned := h.tiles.aligned b hbMem
  have hbF : b ∉ F := disjoint_left.mp h.disjoint hb
  have hBuddyA : b.buddy ∉ A := fun hIn => disjoint_left.mp h.disjoint hIn hBuddy
  have hExp := h.exps b hbMem
  have hStart : b.parent.Covers b.parent.start := b.parent.covers_start
  have hParentNot := h.parent_not_mem hbMem hBuddyMem
  have hUnion : insert b.parent (A.erase b) ∪ F.erase b.buddy = ((A ∪ F) \ {b, b.buddy}) ∪ {b.parent} := by
    ext c
    simp only [mem_union, mem_sdiff, mem_insert, mem_singleton, mem_erase]
    by_cases hEq : c = b
    · subst hEq
      tauto
    by_cases hEq' : c = b.buddy
    · subst hEq'
      tauto
    · tauto
  have hTiles := h.tiles.merge hbMem hBuddyMem
  -- the other areas do not start where the new header is written
  have hFrame (c : Block) (hc : c ∈ A ∪ F) (hNe : c ≠ b) (hNe' : c ≠ b.buddy) (w : Nat) :
      update p.word b.parent.start w c.start = p.word c.start := by
    refine update_of_ne ?_ _ _
    rcases (covers_parent_iff hAligned).mp hStart with hIn | hIn
    · exact h.start_ne hc hbMem hNe hIn
    · exact h.start_ne hc hBuddyMem hNe' hIn
  constructor
  · rw [hUnion]
    exact hTiles
  · rw [disjoint_insert_left]
    refine ⟨fun hIn => hParentNot (mem_union_right A (mem_of_mem_erase hIn)), ?_⟩
    exact (h.disjoint.mono_left (erase_subset b A)).mono_right (erase_subset _ F)
  · intro c hc
    rw [hUnion] at hc
    simp only [mem_union, mem_sdiff, mem_singleton] at hc
    rcases hc with ⟨hc, -⟩ | rfl
    · exact h.exps c (mem_union.mpr hc)
    · -- the parent is inside the pool
      have hStop := hTiles.stop b.parent (mem_union_right _ (mem_singleton_self _))
      have hSmall := h.small
      have hInPool := h.inPool
      have hLess : 2 ^ (b.exp + 1) < 2 ^ 31 := by
        have hSize : 2 ^ (b.exp + 1) ≤ b.parent.stop := Nat.le_add_left _ _
        omega
      have hFew := (Nat.pow_lt_pow_iff_right (by omega)).mp hLess
      exact ⟨by simp only [parent]; omega, hFew⟩
  · intro c hc
    rcases mem_insert.mp hc with rfl | hc
    · exact update_self ..
    · obtain ⟨hNe, hcA⟩ := mem_erase.mp hc
      exact (hFrame c (mem_union_left F hcA) hNe (fun hEq => hBuddyA (hEq ▸ hcA)) _).trans (h.inUse c hcA)
  · intro c hc
    obtain ⟨hNe, hcF⟩ := mem_erase.mp hc
    exact (hFrame c (mem_union_right A hcF) (fun hEq => hbF (hEq ▸ hcF)) hNe _).trans (h.free c hcF)
  · have hList := h.listed.erase b.buddy
    rw [buddy_exp] at hList
    exact hList
  · have hFresh : b.parent ∉ A.erase b := fun hIn =>
      hParentNot (mem_union_left F (mem_of_mem_erase hIn))
    have hSum := sum_erase_add A size hb
    have hReserved := h.reserved
    rw [sum_insert hFresh, parent_size]
    simp only [joined]
    omega
  · exact h.inPool
  · exact h.small
  · exact h.edge

end

end MySQL.Innobase.Mem
