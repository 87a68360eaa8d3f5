import Mathlib

/-! Linear hashing in an array of slots. The records with one home are linked in a
chain that starts in the slot of that number; its other slots are slots that are
nobody's home at present. -/
namespace Library.LinearHash
open Function List

universe u
variable {α : Type u}

structure Slot (α : Type u) where
  next : Option Nat
  data : α

def Seg (slots : Nat → Slot α) : (first : Option Nat) → List Nat → (stop : Option Nat) → Prop
  | first, [], stop => first = stop
  | first, j :: rest, stop => first = some j ∧ Seg slots (slots j).next rest stop

section
variable {slots slots' : Nat → Slot α} {first stop : Option Nat} {front back l : List Nat}

theorem seg_append : Seg slots first (front ++ back) stop ↔
      ∃ middle, Seg slots first front middle ∧ Seg slots middle back stop := by
  induction front generalizing first with
  | nil => simp [Seg]
  | cons j front ih => simp [Seg, ih, and_assoc]

theorem Seg.congr (h : Seg slots first l stop) (hSame : ∀ j ∈ l, slots' j = slots j) :
    Seg slots' first l stop := by
  induction l generalizing first with
  | nil => exact h
  | cons j l ih =>
    obtain ⟨hFirst, hRest⟩ := h
    refine ⟨hFirst, ?_⟩
    rw [hSame j mem_cons_self]
    exact ih hRest fun k hk => hSame k (mem_cons_of_mem j hk)

/-- The slots up to the end of the links are determined by the first one. -/
theorem Seg.unique (h : Seg slots first front none) (h' : Seg slots first back none) :
    front = back := by
  induction front generalizing first back with
  | nil =>
    cases back with
    | nil => rfl
    | cons k back => simp_all [Seg]
  | cons j front ih =>
    cases back with
    | nil => simp_all [Seg]
    | cons k back =>
      obtain ⟨rfl, hFront⟩ := h
      obtain ⟨hSame, hBack⟩ := h'
      obtain rfl := Option.some.inj hSame
      rw [ih hFront hBack]

theorem Seg.nodup (h : Seg slots first l none) : l.Nodup := by
  induction l generalizing first with
  | nil => exact nodup_nil
  | cons j l ih =>
    refine nodup_cons.mpr ⟨fun hMem => ?_, ih h.2⟩
    obtain ⟨before, after, rfl⟩ := append_of_mem hMem
    obtain ⟨middle, -, hAfter⟩ := seg_append.mp h.2
    have hLonger : j :: (before ++ j :: after) = j :: after :=
      Seg.unique ⟨rfl, h.2⟩ ⟨rfl, hAfter.2⟩
    have hLength := congrArg length hLonger
    simp only [length_cons, length_append] at hLength
    omega

end

structure Chained (home : α → Nat) (live : Finset Nat) (slots : Nat → Slot α)
    (chains : Nat → List Nat) : Prop where
  linked : ∀ i, chains i = [] ∨ Seg slots (some i) (chains i) none
  sound : ∀ i j, j ∈ chains i → j ∈ live ∧ home (slots j).data = i
  complete : ∀ j ∈ live, j ∈ chains (home (slots j).data)

def contents (live : Finset Nat) (slots : Nat → Slot α) : Multiset α :=
  live.val.map fun j => (slots j).data

def buckets (home : α → Nat) (live : Finset Nat) (slots : Nat → Slot α) : Nat :=
  (live.filter fun i => home (slots i).data = i).card

namespace Chained
variable {home : α → Nat} {live : Finset Nat} {slots : Nat → Slot α} {chains : Nat → List Nat}
  {i j : Nat}

section
variable (h : Chained home live slots chains)
include h

theorem nodup (i : Nat) : (chains i).Nodup := by
  rcases h.linked i with hNone | hSeg
  · simp [hNone]
  · exact hSeg.nodup

theorem chain_eq (hSome : chains i ≠ []) :
    ∃ rest, chains i = i :: rest ∧ Seg slots (slots i).next rest none := by
  have hSeg := (h.linked i).resolve_left hSome
  cases hChain : chains i with
  | nil => exact absurd hChain hSome
  | cons k rest =>
    rw [hChain] at hSeg
    obtain ⟨hFirst, hRest⟩ := hSeg
    obtain rfl := Option.some.inj hFirst
    exact ⟨rest, rfl, hRest⟩

/-- A slot that is some record's home holds a record of that home. -/
theorem head (hSome : chains i ≠ []) : i ∈ live ∧ home (slots i).data = i := by
  obtain ⟨rest, hChain, -⟩ := h.chain_eq hSome
  exact h.sound i i (hChain ▸ mem_cons_self)

theorem home_mem (hj : j ∈ live) : home (slots j).data ∈ live :=
  (h.head (ne_nil_of_mem (h.complete j hj))).1

/-- The chain of a slot held by a record of another home is empty. -/
theorem eq_nil_of_foreign (hForeign : home (slots i).data ≠ i) : chains i = [] := by
  by_contra hSome
  exact hForeign (h.head hSome).2

theorem eq_nil_of_notMem (hi : i ∉ live) : chains i = [] := by
  by_contra hSome
  exact hi (h.head hSome).1

theorem index_unique {k : Nat} (hi : j ∈ chains i) (hk : j ∈ chains k) : i = k :=
  (h.sound i j hi).2.symm.trans (h.sound k j hk).2

end

section
variable {home' : α → Nat} {live' : Finset Nat} {slots' : Nat → Slot α} {chains' : Nat → List Nat}

section
variable (h : Chained home live slots chains)
include h

/-- Only the chains of the numbers in `touched` change. -/
theorem rebuild (touched : Nat → Prop)
    (hLinked : ∀ i, touched i → chains' i = [] ∨ Seg slots' (some i) (chains' i) none)
    (hSound : ∀ i, touched i → ∀ j ∈ chains' i, j ∈ live' ∧ home' (slots' j).data = i)
    (hOld : ∀ i, ¬touched i → chains' i = chains i)
    (hKept : ∀ j ∈ live, ¬touched (home (slots j).data) →
      j ∈ live' ∧ slots' j = slots j ∧ home' (slots j).data = home (slots j).data)
    (hCover : ∀ j ∈ live', (∃ i, touched i ∧ j ∈ chains' i) ∨
      (j ∈ live ∧ ¬touched (home (slots j).data))) : Chained home' live' slots' chains' := by
  have hOther {i j : Nat} (hi : ¬touched i) (hj : j ∈ chains i) :
      j ∈ live' ∧ slots' j = slots j ∧ home' (slots j).data = i := by
    obtain ⟨hLive, hHome⟩ := h.sound i j hj
    have hFacts := hKept j hLive (hHome ▸ hi)
    rwa [hHome] at hFacts
  refine ⟨fun i => ?_, fun i j hj => ?_, fun j hj => ?_⟩
  · by_cases hi : touched i
    · exact hLinked i hi
    · rw [hOld i hi]
      exact (h.linked i).imp_right fun hSeg => hSeg.congr fun j hj => (hOther hi hj).2.1
  · by_cases hi : touched i
    · exact hSound i hi j hj
    · rw [hOld i hi] at hj
      obtain ⟨hLive, hSame, hHome⟩ := hOther hi hj
      exact ⟨hLive, by rw [hSame, hHome]⟩
  · rcases hCover j hj with ⟨i, hi, hMem⟩ | ⟨hLive, hHome⟩
    · rwa [(hSound i hi j hMem).2]
    · obtain ⟨-, hSame, hSameHome⟩ := hKept j hLive hHome
      rw [hSame, hSameHome, hOld _ hHome]
      exact h.complete j hLive

theorem congr (hSame : ∀ j ∈ live, slots' j = slots j)
    (hHome : ∀ j ∈ live, home' (slots j).data = home (slots j).data) :
    Chained home' live slots' chains :=
  h.rebuild (fun _ => False) (fun _ => False.elim) (fun _ => False.elim) (fun _ _ => rfl)
    (fun j hj _ => ⟨hj, hSame j hj, hHome j hj⟩) (fun _ hj => .inr ⟨hj, not_false⟩)

/-- Another chain `l` in the place of the one of `i`. -/
theorem replace {l : List Nat} (hLinked : l = [] ∨ Seg slots' (some i) l none)
    (hHome : ∀ j ∈ l, home (slots' j).data = i)
    (hLive : ∀ j, j ∈ live' ↔ j ∈ l ∨ j ∈ live ∧ j ∉ chains i)
    (hSame : ∀ j ∈ live, j ∉ chains i → slots' j = slots j) :
    Chained home live' slots' (update chains i l) := by
  have hOut {j : Nat} (hj : j ∈ live) : home (slots j).data ≠ i ↔ j ∉ chains i := by
    refine not_congr ⟨fun hEq => hEq ▸ h.complete j hj, fun hMem => (h.sound i j hMem).2⟩
  refine h.rebuild (· = i) ?_ ?_ (fun k hk => update_of_ne hk ..) ?_ ?_
  · rintro _ rfl
    rwa [update_self]
  · rintro _ rfl j hj
    rw [update_self] at hj
    exact ⟨(hLive j).mpr (.inl hj), hHome j hj⟩
  · intro j hj hNe
    have hMem := (hOut hj).mp hNe
    exact ⟨(hLive j).mpr (.inr ⟨hj, hMem⟩), hSame j hj hMem, rfl⟩
  · intro j hj
    rcases (hLive j).mp hj with hMem | ⟨hj, hMem⟩
    · exact .inl ⟨i, rfl, by rwa [update_self]⟩
    · exact .inr ⟨hj, (hOut hj).mpr hMem⟩

end

end

end Chained

def setNext (slots : Nat → Slot α) (j : Nat) (next : Option Nat) : Nat → Slot α :=
  Function.update slots j { slots j with next }

@[simp] theorem setNext_data (slots : Nat → Slot α) (j k : Nat) (next : Option Nat) :
    (setNext slots j next k).data = (slots k).data := by
  by_cases hk : k = j
  · simp [setNext, hk]
  · simp [setNext, hk]

theorem setNext_of_ne {slots : Nat → Slot α} {j k : Nat} (h : k ≠ j) (next : Option Nat) :
    setNext slots j next k = slots k :=
  update_of_ne h ..

theorem setNext_next (slots : Nat → Slot α) (j : Nat) (next : Option Nat) :
    (setNext slots j next j).next = next := by
  simp [setNext]

/-- Follow the links from `pos` up to the one to `find` and change that link. It is
not found when the links end before. -/
def moveLink (slots : Nat → Slot α) (find newLink : Option Nat) :
    (fuel pos : Nat) → Option (Nat → Slot α)
  | 0, _ => none
  | fuel + 1, pos =>
    if (slots pos).next = find then some (setNext slots pos newLink)
    else
      match (slots pos).next with
      | some next => moveLink slots find newLink fuel next
      | none => none

theorem moveLink_spec {slots : Nat → Slot α} {find : Option Nat} {l : List Nat} {pos fuel : Nat}
    (newLink : Option Nat) (h : Seg slots (some pos) (pos :: l) find)
    (hNodup : (pos :: l).Nodup) (hFind : ∀ k, find = some k → k ∉ pos :: l)
    (hFuel : (pos :: l).length ≤ fuel) :
    ∃ slots', moveLink slots find newLink fuel pos = some slots' ∧
      Seg slots' (some pos) (pos :: l) newLink ∧ (∀ j ∉ pos :: l, slots' j = slots j) ∧
      ∀ j, (slots' j).data = (slots j).data := by
  induction l generalizing pos fuel with
  | nil =>
    obtain ⟨fuel, rfl⟩ : ∃ n, fuel = n + 1 := ⟨fuel - 1, by simp at hFuel; omega⟩
    have hNext : (slots pos).next = find := h.2
    refine ⟨setNext slots pos newLink, by rw [moveLink, if_pos hNext], ⟨rfl, ?_⟩, ?_, ?_⟩
    · exact setNext_next slots pos newLink
    · intro j hj
      exact setNext_of_ne (by simpa using hj) newLink
    · intro j
      exact setNext_data slots pos j newLink
  | cons next l ih =>
    obtain ⟨fuel, rfl⟩ : ∃ n, fuel = n + 1 := ⟨fuel - 1, by simp at hFuel; omega⟩
    have hNext : (slots pos).next = some next := h.2.1
    have hNot : (slots pos).next ≠ find := by
      intro hEq
      rw [hNext] at hEq
      exact hFind next hEq.symm (by simp)
    have hRest : Seg slots (some next) (next :: l) find := hNext ▸ h.2
    obtain ⟨slots', hMove, hSeg, hOther, hData⟩ := ih hRest (nodup_cons.mp hNodup).2
      (fun k hk hMem => hFind k hk (mem_cons_of_mem pos hMem)) (by simpa using hFuel)
    refine ⟨slots', ?_, ⟨rfl, ?_⟩, ?_, hData⟩
    · rw [moveLink, if_neg hNot, hNext]
      exact hMove
    · rw [hOther pos (nodup_cons.mp hNodup).1, hNext]
      exact hSeg
    · intro j hj
      exact hOther j fun hMem => hj (mem_cons_of_mem pos hMem)

end Library.LinearHash
