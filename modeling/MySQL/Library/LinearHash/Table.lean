import MySQL.Library.LinearHash.Mask
import MySQL.Library.LinearHash.Remove
import MySQL.Library.LinearHash.Split

/-! A table of the first `n` slots. One slot more splits a chain and then takes a
record; one slot less removes a record and then joins two chains. The code computes hash
numbers by `hashnr`; `view` is what they stand for, and both agree on the records in the
table. -/
namespace Library.LinearHash
open Finset

universe u
variable {α : Type u}

def homeOf (hashnr : α → Nat) (n b : Nat) (r : α) : Nat := mask (hashnr r) b n

structure Valid (hashnr : α → Nat) (n b : Nat) (slots : Nat → Slot α)
    (chains : Nat → List Nat) : Prop where
  sized : Sized n b
  chained : Chained (homeOf hashnr n b) (Finset.range n) slots chains

def Agree (hashnr view : α → Nat) (n : Nat) (slots : Nat → Slot α) : Prop :=
  ∀ r ∈ contents (Finset.range n) slots, hashnr r = view r

/-- Put a record with hash number `nr` into a table of `n` slots. The answer has the
slots, the slot that was free before the record was placed, whether a chain was split in
two and whether the record starts a chain. -/
def insertRec (hashnr : α → Nat) (slots : Nat → Slot α) (n b : Nat) (r : α) (nr : Nat) :
    Option ((Nat → Slot α) × Nat × Bool × Bool) :=
  (split (homeOf hashnr n b) (fun r => hashnr r &&& (b / 2) ≠ 0) slots n n (n - b / 2)).bind
    fun (slots, empty, both) =>
      (place (homeOf hashnr (n + 1) b) slots n empty (mask nr b (n + 1)) r).map
        fun (slots, fresh) => (slots, empty, both, fresh)

/-- Take the record in slot `pos`, which the one in `prev` links to, out of a table of
`n + 1` slots. The answer has the slots and how many chains less there are. -/
def removeRec (hashnr : α → Nat) (slots : Nat → Slot α) (n b b' : Nat) (prev : Option Nat)
    (pos : Nat) : Option ((Nat → Slot α) × Nat) :=
  let (slots, hole, gone) := unlink slots prev pos
  (fillHole (homeOf hashnr (n + 1) b) (homeOf hashnr n b') slots (n + 1) n hole).map
    fun (slots, merged) => (slots, gone.toNat + merged.toNat)

variable {hashnr view : α → Nat} {n b : Nat} {slots : Nat → Slot α} {chains : Nat → List Nat}

theorem Valid.empty (hashnr : α → Nat) (slots : Nat → Slot α) :
    Valid hashnr 0 1 slots fun _ => [] :=
  ⟨.zero, fun _ => .inl rfl, by simp, by simp⟩

theorem Valid.congr (h : Valid hashnr n b slots chains) (hAgree : Agree view hashnr n slots) :
    Valid view n b slots chains := by
  refine ⟨h.sized, h.chained.congr (fun _ _ => rfl) fun j hj => ?_⟩
  rw [homeOf, homeOf, hAgree _ (mem_contents.mpr ⟨j, hj, rfl⟩)]

theorem homeOf_grown (hSized : Sized n b) :
    homeOf view (n + 1) (grown (n + 1) b) = homeOf view (n + 1) b := by
  funext r
  exact hSized.mask_grown (view r)

structure Inserted (view : α → Nat) (n b : Nat) (slots : Nat → Slot α) (r : α)
    (slots' : Nat → Slot α) (chains' : Nat → List Nat) (empty : Nat) (both fresh : Bool) : Prop where
  valid : Valid view (n + 1) (grown (n + 1) b) slots' chains'
  contents_eq : contents (Finset.range (n + 1)) slots' = r ::ₘ contents (Finset.range n) slots
  buckets_eq : buckets (homeOf view (n + 1) (grown (n + 1) b)) (Finset.range (n + 1)) slots' =
    buckets (homeOf view n b) (Finset.range n) slots + both.toNat + fresh.toNat
  first : (slots' (mask (view r) b (n + 1))).data = r
  chain : ∃ rest, chains' (mask (view r) b (n + 1)) =
    mask (view r) b (n + 1) :: if fresh then [] else empty :: rest

theorem insertRec_spec (h : Valid view n b slots chains) (hAgree : Agree hashnr view n slots)
    (r : α) :
    ∃ slots' chains' empty both fresh,
      insertRec hashnr slots n b r (view r) = some (slots', empty, both, fresh) ∧
        Inserted view n b slots r slots' chains' empty both fresh := by
  have hn : n ∉ range n := by simp
  have hPos {j : Nat} (hj : j ∈ range n) : 0 < n := by
    rw [mem_range] at hj
    omega
  have hData {j : Nat} (hj : j ∈ range n) : hashnr (slots j).data = view (slots j).data :=
    hAgree _ (mem_contents.mpr ⟨j, hj, rfl⟩)
  have hLook (j : Nat) (hj : j ∈ range n) :
      homeOf hashnr n b (slots j).data = homeOf view n b (slots j).data := by
    rw [homeOf, homeOf, hData hj]
  have hFirst (hNe : n - b / 2 ≠ n) : n - b / 2 ∈ range n := by
    rw [mem_range]
    omega
  have hHome (j : Nat) (hj : j ∈ range n) : homeOf view (n + 1) b (slots j).data =
      if homeOf view n b (slots j).data = n - b / 2 ∧
        decide (hashnr (slots j).data &&& (b / 2) ≠ 0) = true then n
      else homeOf view n b (slots j).data := by
    rw [homeOf, homeOf, h.sized.mask_succ _ (hPos hj), hData hj]
    simp
  have hFuel : (range n).card ≤ n := by simp
  obtain ⟨slots₁, chains₁, e, both, hSplit, he, hChained₁, hContents₁, hBuckets₁⟩ :=
    split_spec (fun r => hashnr r &&& (b / 2) ≠ 0) h.chained hLook hn hFirst hHome hFuel
  have hRange : insert n (range n) = range (n + 1) := range_add_one.symm
  rw [hRange] at he hChained₁ hContents₁ hBuckets₁
  have hLive : insert e ((range (n + 1)).erase e) = range (n + 1) :=
    insert_erase he
  have hLook₁ (j : Nat) (hj : j ∈ (range (n + 1)).erase e) :
      homeOf hashnr (n + 1) b (slots₁ j).data = homeOf view (n + 1) b (slots₁ j).data := by
    rw [homeOf, homeOf, hAgree _ (hContents₁ ▸ mem_contents.mpr ⟨j, hj, rfl⟩)]
  have hIdx : homeOf view (n + 1) b r ∈ insert e ((range (n + 1)).erase e) := by
    rw [hLive, mem_range, ← homeOf_grown h.sized]
    exact h.sized.grow.mask_lt _ (Nat.succ_pos n)
  have hFuel₁ : ((range (n + 1)).erase e).card ≤ n := by
    rw [card_erase_of_mem he]
    simp
  obtain ⟨slots', chains', fresh, hPlace, hPlaced⟩ :=
    place_spec hChained₁ hLook₁ (notMem_erase e _) rfl hIdx hFuel₁
  have hChained := hPlaced.chained
  have hContents := hPlaced.contents_eq
  have hBuckets := hPlaced.buckets_eq
  rw [hLive] at hChained hContents hBuckets
  refine ⟨slots', chains', e, both, fresh, ?_, ⟨h.sized.grow, ?_⟩, ?_, ?_, ?_, ?_⟩
  · rw [insertRec, hSplit]
    exact congrArg (Option.map _) hPlace
  · rwa [homeOf_grown h.sized]
  · rw [hContents, hContents₁]
  · rw [homeOf_grown h.sized, hBuckets, hBuckets₁]
  · exact congrArg Slot.data hPlaced.first
  · exact hPlaced.chain

namespace Inserted
variable {r : α} {slots' : Nat → Slot α} {chains' : Nat → List Nat} {empty : Nat}
  {both fresh : Bool}

section
variable (h : Inserted view n b slots r slots' chains' empty both fresh)
include h

theorem home_mem : mask (view r) b (n + 1) ∈ Finset.range (n + 1) := by
  obtain ⟨rest, hChain⟩ := h.chain
  exact (h.valid.chained.sound _ _ (by rw [hChain]; exact List.mem_cons_self)).1

/-- The records in the other slots are those from before. -/
theorem others : contents ((Finset.range (n + 1)).erase (mask (view r) b (n + 1))) slots' =
      contents (Finset.range n) slots := by
  have hAll := h.contents_eq
  rw [← contents_erase h.home_mem, h.first, Multiset.cons_inj_right] at hAll
  exact hAll

/-- The slots after the first one in the chain of the record hold the records from before
that have its home. -/
theorem mem_rest {rest : List Nat}
    (hChain : chains' (mask (view r) b (n + 1)) = mask (view r) b (n + 1) :: rest) (r' : α) :
    (∃ j ∈ rest, (slots' j).data = r') ↔ r' ∈ contents (Finset.range n) slots ∧
        homeOf view (n + 1) (grown (n + 1) b) r' = mask (view r) b (n + 1) := by
  set idx := mask (view r) b (n + 1) with hIdx
  have hNodup := h.valid.chained.nodup idx
  rw [hChain, List.nodup_cons] at hNodup
  rw [← h.others, ← hIdx, mem_contents]
  constructor
  · rintro ⟨j, hj, rfl⟩
    have hSound := h.valid.chained.sound idx j (by rw [hChain]; exact List.mem_cons_of_mem _ hj)
    have hNe : j ≠ idx := fun hEq => hNodup.1 (hEq ▸ hj)
    exact ⟨⟨j, mem_erase.mpr ⟨hNe, hSound.1⟩, rfl⟩, hSound.2⟩
  · rintro ⟨⟨j, hj, rfl⟩, hHome⟩
    obtain ⟨hNe, hLive⟩ := mem_erase.mp hj
    have hMem := h.valid.chained.complete j hLive
    rw [hHome, hChain] at hMem
    exact ⟨j, (List.mem_cons.mp hMem).resolve_left hNe, rfl⟩

end

/-- A record that starts a chain has no other record of its home. -/
theorem home_ne (h : Inserted view n b slots r slots' chains' empty both true) {r' : α}
    (hr' : r' ∈ contents (Finset.range n) slots) :
    homeOf view (n + 1) (grown (n + 1) b) r' ≠ mask (view r) b (n + 1) := by
  obtain ⟨rest, hChain⟩ := h.chain
  rw [if_pos rfl] at hChain
  intro hHome
  obtain ⟨j, hj, -⟩ := (h.mem_rest hChain r').mpr ⟨hr', hHome⟩
  exact List.not_mem_nil hj

/-- The search through the other records of the home. -/
theorem find_rest (h : Inserted view n b slots r slots' chains' empty both false)
    (found : α → Bool) :
    ∃ answer, findSlot found slots' (n + 1) none empty = some answer ∧
      (answer.isSome ↔ ∃ r' ∈ contents (Finset.range n) slots,
        homeOf view (n + 1) (grown (n + 1) b) r' = mask (view r) b (n + 1) ∧ found r' = true) := by
  obtain ⟨rest, hChain⟩ := h.chain
  rw [if_neg (by simp)] at hChain
  have hSeg := (h.valid.chained.linked (mask (view r) b (n + 1))).resolve_left (by simp [hChain])
  rw [hChain] at hSeg
  obtain ⟨-, hNext, hTail⟩ := hSeg
  have hLength := h.valid.chained.length_le (mask (view r) b (n + 1))
  rw [hChain, card_range, List.length_cons, List.length_cons] at hLength
  have hMem := h.mem_rest hChain
  rcases findSlot_spec found none ⟨rfl, hTail⟩ (show rest.length < n + 1 by omega) with
    ⟨hNone, hAll⟩ | ⟨front, j, back, hSplit, hFound, hEq⟩
  · refine ⟨none, hNone, by simp, ?_⟩
    rintro ⟨r', hr', hHome, hIs⟩
    obtain ⟨j, hj, rfl⟩ := (hMem r').mpr ⟨hr', hHome⟩
    exact absurd ((hAll j hj).symm.trans hIs) (by simp)
  · refine ⟨_, hEq, ?_⟩
    obtain ⟨hr', hHome⟩ := (hMem _).mp ⟨j, by rw [hSplit]; simp, rfl⟩
    simp only [Option.isSome_some, true_iff]
    exact ⟨_, hr', hHome, hFound⟩

end Inserted

structure Removed (view : α → Nat) (n b : Nat) (slots : Nat → Slot α) (r : α)
    (slots' : Nat → Slot α) (chains' : Nat → List Nat) (fewer : Nat) : Prop where
  valid : Valid view n (shrunk n b) slots' chains'
  contents_eq : r ::ₘ contents (Finset.range n) slots' = contents (Finset.range (n + 1)) slots
  buckets_eq : buckets (homeOf view (n + 1) b) (Finset.range (n + 1)) slots =
    buckets (homeOf view n (shrunk n b)) (Finset.range n) slots' + fewer

/-- One slot less gives the records of one home to another. -/
theorem homeOf_shrunk (view : α → Nat) (hSized : Sized (n + 1) b) (hn : 0 < n) (r : α) :
    homeOf view n (shrunk n b) r = if homeOf view (n + 1) b r = n then n - shrunk n b / 2
      else homeOf view (n + 1) b r := by
  have hShrunk := hSized.shrink
  have hGrown := hShrunk.mask_grown (view r)
  rw [hSized.grown_shrunk, hShrunk.mask_succ _ hn] at hGrown
  have hLt := hShrunk.mask_lt (view r) hn
  rw [homeOf, homeOf, hGrown]
  split
  · rename_i hBit
    rw [if_pos rfl, hBit.1]
  · rw [if_neg (ne_of_lt hLt)]

/-- The hash number of the record that goes is not read. -/
theorem removeRec_spec (h : Valid view (n + 1) b slots chains) {i pos : Nat}
    {front back : List Nat} (hChain : chains i = front ++ pos :: back)
    (hAgree : ∀ rest, (slots pos).data ::ₘ rest = contents (Finset.range (n + 1)) slots →
      ∀ r ∈ rest, hashnr r = view r) :
    ∃ slots' chains' fewer,
      removeRec hashnr slots n b (shrunk n b) front.getLast? pos = some (slots', fewer) ∧
        Removed view n b slots (slots pos).data slots' chains' fewer := by
  set live := range (n + 1) with hRange
  obtain ⟨chains₁, hUnlinked⟩ := unlink_spec h.chained hChain
  rw [removeRec]
  generalize unlink slots front.getLast? pos = unlinked at hUnlinked ⊢
  obtain ⟨slots₁, hole, gone⟩ := unlinked
  simp only at hUnlinked ⊢
  obtain ⟨hHole, hChained₁, hContents₁, hBuckets₁⟩ := hUnlinked
  have hLive : insert hole (live.erase hole) = live := insert_erase hHole
  have hRangeN : live.erase n = range n := by
    rw [hRange, range_add_one, erase_insert (by simp)]
  have hPos {j : Nat} (hj : j ∈ live.erase hole) : 0 < n := by
    simp only [hRange, mem_erase, mem_range] at hj hHole
    omega
  have hData {j : Nat} (hj : j ∈ live.erase hole) :
      hashnr (slots₁ j).data = view (slots₁ j).data :=
    hAgree _ hContents₁ _ (mem_contents.mpr ⟨j, hj, rfl⟩)
  have hLook (n' b' j : Nat) (hj : j ∈ live.erase hole) :
      homeOf hashnr n' b' (slots₁ j).data = homeOf view n' b' (slots₁ j).data := by
    rw [homeOf, homeOf, hData hj]
  have hHome (j : Nat) (hj : j ∈ live.erase hole) :=
    homeOf_shrunk view h.sized (hPos hj) (slots₁ j).data
  have hLast (hNe : hole ≠ n) : n ∈ live.erase hole := by
    simp [hRange, hNe.symm]
  have hHomes (j : Nat) (hj : j ∈ live.erase hole) :
      homeOf view n (shrunk n b) (slots₁ j).data ∈
        (insert hole (live.erase hole)).erase n := by
    rw [hLive, hRangeN, mem_range]
    exact h.sized.shrink.mask_lt _ (hPos hj)
  have hFuel : (live.erase hole).card ≤ n + 1 := by
    rw [card_erase_of_mem hHole]
    simp
  obtain ⟨slots', chains', merged, hFill, hFilled⟩ :=
    fillHole_spec hHome hChained₁ (notMem_erase hole _) hLast hHomes (hLook (n + 1) b)
      (hLook n _) hFuel
  have hChained := hFilled.chained
  have hContents := hFilled.contents_eq
  have hBuckets := hFilled.buckets_eq
  rw [hLive, hRangeN] at hChained hContents hBuckets
  refine ⟨slots', chains', gone.toNat + merged.toNat, ?_, ⟨h.sized.shrink, hChained⟩, ?_, ?_⟩
  · rw [hFill]
    rfl
  · rw [hContents, hContents₁]
  · rw [hBuckets₁, hBuckets]
    omega

end Library.LinearHash
