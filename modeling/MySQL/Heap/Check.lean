import MySQL.Heap.HashIndex

/-! `check_one_key` of _check.c: it follows every chain of a hash index. -/
namespace MySQL.Heap

open Finset List Library LinearHash

/-- The links of the chain of `i` after its first slot, with the records found and whether
one is in a wrong chain. -/
def checkLinks (home : Nat → Nat) (block : Nat → Slot Nat) (records i : Nat) :
    (fuel : Nat) → (next : Option Nat) → (found : Nat) → (error : Bool) → Option (Nat × Bool)
  | 0, _, _, _ => none
  | _ + 1, none, found, error => some (found, error)
  | fuel + 1, some pos, found, error =>
    if found < records + 1 then
      if home (block pos).data ≠ i then
        checkLinks home block records i fuel (block pos).next found true
      else checkLinks home block records i fuel (block pos).next (found + 1) error
    else some (found, error)

def checkSlot (home : Nat → Nat) (block : Nat → Slot Nat) (records : Nat) (seen : Nat × Nat × Bool)
    (i : Nat) : Option (Nat × Nat × Bool) :=
  let (found, hashBucketsFound, error) := seen
  if home (block i).data = i then
    (checkLinks home block records i (records + 1) (block i).next (found + 1) error).map
      fun (found, error) => (found, hashBucketsFound + 1, error)
  else some seen

/-- The answer `true` reports an error. -/
def checkOneKey (home : Nat → Nat) (block : Nat → Slot Nat) (hashBuckets records : Nat) : Option Bool :=
  ((List.range records).foldlM (checkSlot home block records) (0, 0, false)).map
    fun (found, hashBucketsFound, error) =>
      error || found ≠ records || hashBuckets ≠ hashBucketsFound

section
variable {home : Nat → Nat} {block : Nat → Slot Nat} {records : Nat} {chains : Nat → List Nat}

theorem checkLinks_spec {i found fuel : Nat} {error : Bool} {next : Option Nat} {rest : List Nat}
    (h : Seg block next rest none) (hHome : ∀ pos ∈ rest, home (block pos).data = i)
    (hFound : found + rest.length ≤ records) (hFuel : rest.length < fuel) :
    checkLinks home block records i fuel next found error = some (found + rest.length, error) := by
  induction rest generalizing next found fuel with
  | nil =>
    obtain rfl : next = none := h
    obtain ⟨fuel, rfl⟩ := Nat.exists_eq_succ_of_ne_zero (Nat.ne_of_gt hFuel)
    rfl
  | cons pos rest ih =>
    obtain ⟨rfl, hRest⟩ := h
    rw [length_cons] at hFound hFuel
    obtain ⟨fuel, rfl⟩ := Nat.exists_eq_succ_of_ne_zero (show fuel ≠ 0 by omega)
    rw [checkLinks, if_pos (by omega), if_neg (by simp [hHome pos mem_cons_self]),
      ih hRest (fun p hp => hHome p (mem_cons_of_mem _ hp)) (by omega) (by omega),
      length_cons, add_assoc, add_comm 1]

/-- The slots before `n` have the chains that start there. -/
theorem foldlM_checkSlot (h : Chained home (Finset.range records) block chains) {n : Nat}
    (hn : n ≤ records) :
    (List.range n).foldlM (checkSlot home block records) (0, 0, false) =
      some (∑ i ∈ Finset.range n, (chains i).length, buckets home (Finset.range n) block, false) := by
  induction n with
  | zero => rfl
  | succ n ih =>
    have hMem : n ∈ Finset.range records := Finset.mem_range.mpr hn
    have hBuckets : buckets home (range (n + 1)) block =
        buckets home (range n) block + if home (block n).data = n then 1 else 0 := by
      rw [buckets, range_add_one, filter_insert]
      split
      · rw [card_insert_of_notMem (by simp), buckets]
      · rfl
    rw [range_succ, foldlM_append, ih (by omega), Finset.sum_range_succ, hBuckets]
    simp only [Option.bind_eq_bind, Option.bind_some, foldlM_cons, foldlM_nil, checkSlot]
    by_cases hHome : home (block n).data = n
    · have hChain := h.complete n hMem
      rw [hHome] at hChain
      obtain ⟨rest, hEq, hSeg⟩ := h.chain_eq (ne_nil_of_mem hChain)
      have hLe : ∑ i ∈ range (n + 1), (chains i).length ≤ records := by
        refine (sum_le_sum_of_subset (range_subset_range.mpr hn)).trans ?_
        rw [h.sum_length, card_range]
      rw [Finset.sum_range_succ, hEq, length_cons] at hLe
      rw [if_pos hHome, if_pos hHome, checkLinks_spec hSeg
        (fun pos hPos => (h.sound n pos (hEq ▸ mem_cons_of_mem _ hPos)).2) (by omega) (by omega),
        hEq, length_cons, add_assoc, add_comm 1]
      rfl
    · rw [if_neg hHome, if_neg hHome, h.eq_nil_of_foreign hHome]
      rfl

/-- The chains of a hash index pass the check. -/
theorem checkOneKey_spec (h : Chained home (Finset.range records) block chains) :
    checkOneKey home block (buckets home (Finset.range records) block) records = some false := by
  rw [checkOneKey, foldlM_checkSlot h le_rfl, h.sum_length, card_range]
  simp

end

end MySQL.Heap
