import MySQL.Innobase.Index.Page
import MySQL.Library.Chain

/-! The directory cuts the record list into groups; the last record of a group owns it. -/
namespace MySQL.Innobase.Index

open List Library Nat

structure Group where
  front : List Nat
  owner : Nat

namespace Group

def members (g : Group) : List Nat := g.front ++ [g.owner]

def size (g : Group) : Nat := g.front.length + 1

@[simp] theorem length_members (g : Group) : g.members.length = g.size := by simp [members, size]

theorem owner_mem (g : Group) : g.owner ∈ g.members := by simp [members]

end Group

def recsOf (G : List Group) : List Nat := G.flatMap Group.members

@[simp] theorem recsOf_nil : recsOf [] = [] := rfl

@[simp] theorem recsOf_cons (g : Group) (G : List Group) : recsOf (g :: G) = g.members ++ recsOf G := by
  simp [recsOf]

@[simp] theorem recsOf_append (G H : List Group) : recsOf (G ++ H) = recsOf G ++ recsOf H := by
  simp [recsOf]

/-- Where the record list is cut, a group is cut. -/
theorem recsOf_eq_append {G : List Group} {u v : List Nat} (h : recsOf G = u ++ v) (hv : v ≠ []) :
    ∃ G₁ a b o G₂, G = G₁ ++ [⟨a ++ b, o⟩] ++ G₂ ∧ u = recsOf G₁ ++ a ∧ v = b ++ [o] ++ recsOf G₂ := by
  induction G generalizing u with
  | nil => simp_all
  | cons g G ih =>
    rw [recsOf_cons] at h
    obtain ⟨u', rfl, hRest⟩ | ⟨c, hMembers, hc⟩ := append_eq_append_iff.mp h
    · obtain ⟨G₁, a, b, o, G₂, rfl, rfl, rfl⟩ := ih hRest
      exact ⟨g :: G₁, a, b, o, G₂, rfl, by simp, rfl⟩
    · rcases c.eq_nil_or_concat with rfl | ⟨b, o, rfl⟩
      · obtain ⟨G₁, a, b, o, G₂, rfl, hu, hv'⟩ := ih (u := []) hc.symm
        obtain ⟨hNil, rfl⟩ := append_eq_nil_iff.mp hu.symm
        refine ⟨g :: G₁, [], b, o, G₂, rfl, ?_, hv'⟩
        rw [recsOf_cons, hNil, hMembers, append_nil, append_nil, append_nil]
      · obtain ⟨front, owner⟩ := g
        rw [concat_eq_append, Group.members, ← append_assoc] at hMembers
        obtain ⟨rfl, hOwner⟩ := append_inj' hMembers rfl
        obtain rfl : owner = o := by simpa using hOwner
        exact ⟨[], u, b, owner, G, rfl, rfl, by simpa using hc⟩

def SlotsAt (slot : Nat → Nat) : (i : Nat) → List Group → Prop
  | _, [] => True
  | i, g :: G => slot i = g.owner ∧ SlotsAt slot (i + 1) G

namespace SlotsAt

variable {slot slot' : Nat → Nat} {i j : Nat} {G G₁ G₂ : List Group}

theorem append : SlotsAt slot i (G₁ ++ G₂) ↔ SlotsAt slot i G₁ ∧ SlotsAt slot (i + G₁.length) G₂ := by
  induction G₁ generalizing i with
  | nil => simp [SlotsAt]
  | cons g G₁ ih =>
    rw [cons_append, SlotsAt, SlotsAt, ih, and_assoc, length_cons, Nat.add_right_comm,
      Nat.add_assoc]

/-- The same slots at another place -/
theorem move (h : SlotsAt slot i G) (hSame : ∀ k, k < G.length → slot' (j + k) = slot (i + k)) :
    SlotsAt slot' j G := by
  induction G generalizing i j with
  | nil => trivial
  | cons g G ih =>
    refine ⟨(hSame 0 (by simp)).trans h.1, ih h.2 fun k hk => ?_⟩
    have := hSame (k + 1) (by simpa using hk)
    rwa [Nat.add_right_comm, Nat.add_right_comm i]

/-- The slots of `G` are others, and those behind it may be at another place. -/
theorem splice {n : Nat} (hFirst : SlotsAt slot 0 G₁) (hLast : SlotsAt slot n G₂)
    (hBelow : ∀ k, k < G₁.length → slot' k = slot k) (hHere : SlotsAt slot' G₁.length G)
    (hAbove : ∀ k, k < G₂.length → slot' (G₁.length + G.length + k) = slot (n + k)) :
    SlotsAt slot' 0 (G₁ ++ G ++ G₂) := by
  rw [append, append, length_append, Nat.zero_add, Nat.zero_add]
  exact ⟨⟨hFirst.move fun k hk => by rw [Nat.zero_add, hBelow k hk], hHere⟩, hLast.move hAbove⟩

theorem getElem? (h : SlotsAt slot i G) {k : Nat} (hk : k < G.length) :
    (G.map Group.owner)[k]? = some (slot (i + k)) := by
  induction G generalizing i k with
  | nil => exact absurd hk (by simp)
  | cons g G ih =>
    cases k with
    | zero => simp [h.1]
    | succ k =>
      have := ih h.2 (by simpa using hk)
      simpa [Nat.add_right_comm, ← Nat.add_assoc] using this

end SlotsAt

variable {β : Type}

/-- The directory of `p` stands for the groups `G`: the records are linked in order, a slot
points to each owner, and the owner alone counts the group. -/
structure Directory (p : Page β) (G : List Group) : Prop where
  chained : Chained p.next (recsOf G)
  nodup : (recsOf G).Nodup
  nDirSlots : p.nDirSlots = G.length
  slots : SlotsAt p.slot 0 G
  owners : ∀ g ∈ G, p.nOwned g.owner = g.size
  owned : ∀ g ∈ G, ∀ r ∈ g.front, p.nOwned r = 0

section Searches

variable {p : Page β} {G₁ G₂ G : List Group} {g : Group} {r : Nat} {a b : List Nat}

theorem findOwnerRecLoop_eq {o fuel : Nat} (h : Walk p.next o b r fuel)
    (hOwned : ∀ r ∈ b, p.nOwned r = 0) (hOwner : p.nOwned o ≠ 0) :
    findOwnerRecLoop p fuel r = some o := by
  induction h with
  | stop => simp [findOwnerRecLoop, hOwner]
  | @step c b _ _ ih =>
    simp only [findOwnerRecLoop, hOwned c (by simp), if_true]
    exact ih fun r hr => hOwned r (mem_cons_of_mem c hr)

theorem findSlotLoop_eq {i j : Nat} (hSlot : p.slot i = r) (hOnly : ∀ k, k ≤ j → p.slot k = r → k = i)
    (hle : i ≤ j) : findSlotLoop p r j = some i := by
  induction j with
  | zero =>
    obtain rfl : i = 0 := le_zero.mp hle
    simp [findSlotLoop, hSlot]
  | succ j ih =>
    by_cases hHere : p.slot (j + 1) = r
    · rw [findSlotLoop, if_pos hHere, hOnly (j + 1) (le_refl _) hHere]
    · have hNe : i ≠ j + 1 := fun h => hHere (h ▸ hSlot)
      simp only [findSlotLoop, hHere, if_false]
      exact ih (fun k hk => hOnly k (by omega)) (by omega)

/-- The walk of `page_rec_get_prev` over `b` stops behind its last record. -/
theorem prevLoop_eq {first prev fuel : Nat} (h : Walk p.next r b first fuel) (hNot : r ∉ b) :
    prevLoop p r fuel prev first = some (b.getLastD prev) := by
  induction h generalizing prev with
  | stop => simp [prevLoop]
  | @step c b _ _ ih =>
    have hNe : c ≠ r := fun h => hNot (h ▸ mem_cons_self)
    simp only [prevLoop, hNe, if_false, getLastD_cons]
    exact ih fun h => hNot (mem_cons_of_mem c h)

theorem owners_sublist (G : List Group) : (G.map Group.owner).Sublist (recsOf G) := by
  induction G with
  | nil => exact Sublist.refl _
  | cons g G ih =>
    rw [map_cons, recsOf_cons, Group.members, append_assoc]
    exact Sublist.trans (ih.cons_cons g.owner) (sublist_append_right ..)

theorem Directory.slot_eq (h : Directory p (G₁ ++ g :: G₂)) : p.slot G₁.length = g.owner := by
  have := (SlotsAt.append.mp h.slots).2.1
  rwa [Nat.zero_add] at this

theorem Directory.slot_inj (h : Directory p G) {i j : Nat} (hi : i < G.length) (hj : j < G.length)
    (hSlot : p.slot i = p.slot j) : i = j := by
  have hNodup : (G.map Group.owner).Nodup := h.nodup.sublist (owners_sublist G)
  have hMap : (G.map Group.owner)[i]? = (G.map Group.owner)[j]? := by
    rw [h.slots.getElem? hi, h.slots.getElem? hj, Nat.zero_add, Nat.zero_add, hSlot]
  exact (getElem?_inj (by simpa using hi) hNodup).mp hMap

section
variable {o : Nat} (h : Directory p (G₁ ++ ⟨a ++ b, o⟩ :: G₂)) (hHead : (b ++ [o]).head? = some r)
  (hSize : b.length < univPageSize)
include h hHead hSize

/-- From any of its members the owner of a group is found. -/
theorem Directory.findOwnerRec : pageRecFindOwnerRec p r = some o := by
  have hGroup : ⟨a ++ b, o⟩ ∈ G₁ ++ ⟨a ++ b, o⟩ :: G₂ := by simp
  have hOwner : p.nOwned o = a.length + b.length + 1 := by simpa [Group.size] using h.owners _ hGroup
  have hChained : Chained p.next (recsOf G₁ ++ a ++ ((b ++ [o]) ++ recsOf G₂)) := by
    simpa [Group.members] using h.chained
  refine findOwnerRecLoop_eq (hChained.right.left.walk hHead hSize) ?_ (by omega)
  intro c hc
  exact h.owned _ hGroup c (mem_append_right a hc)

theorem Directory.findOwnerSlot : pageDirFindOwnerSlot p r = some G₁.length := by
  have hLength : (G₁ ++ ⟨a ++ b, o⟩ :: G₂).length = G₁.length + G₂.length + 1 := by simp; omega
  have hCount := h.nDirSlots
  rw [pageDirFindOwnerSlot, h.findOwnerRec hHead hSize, Option.bind_some]
  refine findSlotLoop_eq h.slot_eq ?_ (by omega)
  intro k hk hSlot
  exact h.slot_inj (by omega) (by omega) (hSlot.trans h.slot_eq.symm)

end

/-- The record before a member of a group, which may be the owner of the group before. -/
theorem Directory.getPrev {o q : Nat} (h : Directory p (G₁ ++ g :: ⟨a ++ b, o⟩ :: G₂))
    (hHead : (b ++ [o]).head? = some r) (hSize : a.length + b.length + 1 < univPageSize)
    (hPrev : (g.owner :: a).getLast? = some q) (hq : q ≠ 0) : pageRecGetPrev p r = some q := by
  have hSlotNo : pageDirFindOwnerSlot p r = some (G₁.length + 1) := by
    have hGroups : Directory p ((G₁ ++ [g]) ++ ⟨a ++ b, o⟩ :: G₂) := by simpa using h
    simpa using hGroups.findOwnerSlot hHead (by omega)
  obtain ⟨tail, hTail⟩ : ∃ tail, b ++ [o] = r :: tail := head?_eq_some_iff.mp hHead
  have hRecs : recsOf (G₁ ++ g :: ⟨a ++ b, o⟩ :: G₂) =
      recsOf G₁ ++ g.front ++ ((g.owner :: a ++ [r]) ++ (tail ++ recsOf G₂)) := by
    simp [Group.members, hTail]
  have hChained : Chained p.next (g.owner :: a ++ [r]) := by
    have := h.chained
    rw [hRecs] at this
    exact this.right.left
  have hNot : r ∉ g.owner :: a := by
    have hNodup := h.nodup
    rw [hRecs] at hNodup
    have := hNodup.of_append_right.of_append_left
    intro hMem
    exact disjoint_of_nodup_append this hMem (by simp)
  have hWalk : prevLoop p r univPageSize 0 g.owner = some ((g.owner :: a).getLastD 0) :=
    prevLoop_eq (hChained.walk rfl (by simp; omega)) hNot
  rw [pageRecGetPrev, hSlotNo]
  simp only [Nat.add_sub_cancel, h.slot_eq, hWalk, getLastD_eq_getLast?, hPrev]
  simp [hq]

end Searches

end MySQL.Innobase.Index
