import MySQL.Library.LinearHash.Place

/-! Splitting a chain. When the table grows by slot `n`, some records of the chain of
`first` get the home `n`. The chain is walked once; each record is kept back until the
link from its slot is known. -/
namespace Library.LinearHash
open Function List

universe u
variable {α : Type u}

/-- Write a record kept back, unless its slot holds it with the right link already. -/
def writeLast (slots : Nat → Slot α) (last : Option (Nat × α)) (used : Bool)
    (next : Option Nat) : Nat → Slot α :=
  match last with
  | some (pos, r) => if used then slots else Function.update slots pos ⟨next, r⟩
  | none => slots

/-- The walk. `low` and `high` are the last record found of either kind with the slot
it goes to; it is `used` when it stays in its slot and nothing of the other kind came
after it. -/
structure Split (α : Type u) where
  slots : Nat → Slot α
  empty : Nat
  low : Option (Nat × α)
  lowUsed : Bool
  high : Option (Nat × α)
  highUsed : Bool

namespace Split

def start (slots : Nat → Slot α) (n : Nat) : Split α := ⟨slots, n, none, false, none, false⟩

def step (upper : α → Bool) (s : Split α) (pos : Nat) : Split α :=
  let r := (s.slots pos).data
  if upper r then
    match s.high with
    | none => { s with empty := pos, high := some (s.empty, r), lowUsed := false }
    | some last =>
      { s with
        slots := writeLast s.slots (some last) s.highUsed (some pos)
        high := some (pos, r)
        highUsed := true
        lowUsed := s.lowUsed && s.highUsed }
  else
    match s.low with
    | none =>
      if s.high.isSome then
        { s with empty := pos, low := some (s.empty, r), highUsed := false }
      else { s with low := some (pos, r), lowUsed := true }
    | some last =>
      { s with
        slots := writeLast s.slots (some last) s.lowUsed (some pos)
        low := some (pos, r)
        lowUsed := true
        highUsed := s.highUsed && s.lowUsed }

def walk (upper : α → Bool) : (fuel : Nat) → Split α → (pos : Nat) → Option (Split α)
  | 0, _, _ => none
  | fuel + 1, s, pos =>
    let s := s.step upper pos
    match (s.slots pos).next with
    | some next => walk upper fuel s next
    | none => some s

def finish (s : Split α) : Nat → Slot α :=
  writeLast (writeLast s.slots s.low s.lowUsed none) s.high s.highUsed none

end Split

/-- Split the chain of `first` when `n` becomes a home. The answer has the slots, the
one that is free now, and whether there are two chains where there was one. -/
def split (home : α → Nat) (upper : α → Bool) (slots : Nat → Slot α) (fuel n first : Nat) :
    Option ((Nat → Slot α) × Nat × Bool) :=
  if first = n then some (slots, n, false)
  else if home (slots first).data ≠ first then some (slots, n, false)
  else
    (Split.walk upper fuel (Split.start slots n) first).map fun s =>
      (s.finish, s.empty, s.low.isSome && s.high.isSome)

/-- The slots `t` are linked from `start` up to the last one, whose record is kept
back; `next` is where the walk goes on. -/
inductive Pending (slots : Nat → Slot α) (start : Nat) (next : Option Nat) :
    Option (Nat × α) → Bool → List Nat → List α → Prop
  | none : Pending slots start next none false [] []
  | last {used : Bool} {front : List Nat} {pos : Nat} {r : α}
      (linked : Seg slots (some start) front (some pos))
      (inPlace : used = true → slots pos = ⟨next, r⟩) :
      Pending slots start next (some (pos, r)) used (front ++ [pos])
        (front.map (fun j => (slots j).data) ++ [r])

namespace Pending
variable {slots slots' : Nat → Slot α} {start pos : Nat} {next next' : Option Nat}
  {last : Option (Nat × α)} {used : Bool} {t : List Nat} {recs : List α}

section
variable (h : Pending slots start next last used t recs)
include h

theorem nil_iff : last = Option.none ↔ t = [] := by
  cases h with
  | none => simp
  | last => simp

theorem isSome_eq : last.isSome = !t.isEmpty := by
  cases h with
  | none => rfl
  | last => simp

theorem congr (hSame : ∀ j ∈ t, slots' j = slots j) :
    Pending slots' start next last used t recs := by
  cases h with
  | none => exact .none
  | @last used front pos r linked inPlace =>
    have hMap : front.map (fun j => (slots j).data) = front.map (fun j => (slots' j).data) :=
      map_congr_left fun j hj => by rw [hSame j (by simp [hj])]
    rw [hMap]
    refine .last (linked.congr fun j hj => hSame j (by simp [hj])) fun hUsed => ?_
    rw [hSame pos (by simp), inPlace hUsed]

/-- The slots of the chain are as before, and the walk went elsewhere. -/
theorem keep (hSame : ∀ j ∈ t, slots' j = slots j) :
    Pending slots' start next' last false t recs := by
  cases h.congr hSame with
  | none => exact .none
  | last linked inPlace => exact .last linked (by simp)

theorem writeLast_of_notMem {j : Nat} (hj : j ∉ t) :
    writeLast slots last used next' j = slots j := by
  cases h with
  | none => rfl
  | @last used front pos r linked inPlace =>
    rw [writeLast]
    split
    · rfl
    · exact update_of_ne (by rintro rfl; simp at hj) ..

/-- With its last link known, the whole chain stands in the slots. -/
theorem writeLast_spec (hNodup : t.Nodup) :
    (t = [] ∨ Seg (writeLast slots last used next) (some start) t next) ∧
      t.map (fun j => (writeLast slots last used next j).data) = recs := by
  cases h with
  | none => exact ⟨.inl rfl, rfl⟩
  | @last used front pos r linked inPlace =>
    have hFront : pos ∉ front := by
      rw [nodup_append] at hNodup
      exact fun hMem => hNodup.2.2 pos hMem pos (by simp) rfl
    have hPos : writeLast slots (some (pos, r)) used next pos = ⟨next, r⟩ := by
      cases used with
      | true => simpa [writeLast] using inPlace rfl
      | false => simp [writeLast]
    have hSame (j : Nat) (hj : j ∈ front) :
        writeLast slots (some (pos, r)) used next j = slots j := by
      rw [writeLast]
      split
      · rfl
      · exact update_of_ne (fun hEq : j = pos => hFront (hEq ▸ hj)) ..
    constructor
    · refine .inr (seg_append.mpr ⟨some pos, linked.congr hSame, rfl, ?_⟩)
      rw [hPos]
      rfl
    · rw [map_append, map_singleton, hPos]
      congr 1
      exact map_congr_left fun j hj => by rw [hSame j hj]

end

/-- The walk comes to a record of this kind. -/
theorem extend (h : Pending slots start (some pos) last used t recs) (hNodup : t.Nodup)
    (hSome : t ≠ []) {r : α} (hPos : slots pos = ⟨next, r⟩) (hNew : pos ∉ t) :
    Pending (writeLast slots last used (some pos)) start next (some (pos, r)) true (t ++ [pos])
      (recs ++ [r]) := by
  obtain ⟨hSeg, hMap⟩ := h.writeLast_spec hNodup
  rw [← hMap]
  refine .last (hSeg.resolve_left hSome) fun _ => ?_
  rw [h.writeLast_of_notMem hNew, hPos]

end Pending

/-- The slots in `visited` were visited, the ones of `rest` come next; `tl` and `th` are
the slots of the two chains so far. -/
structure Splitting (upper : α → Bool) (slots : Nat → Slot α) (first n : Nat)
    (visited rest : List Nat) (s : Split α) (tl th : List Nat) (rl rh : List α) : Prop where
  perm : (s.empty :: (tl ++ th)).Perm (n :: visited)
  low : Pending s.slots first rest.head? s.low s.lowUsed tl rl
  high : Pending s.slots n rest.head? s.high s.highUsed th rh
  one : s.lowUsed = true → s.highUsed = false
  same : ∀ j, j ∉ tl → j ∉ th → s.slots j = slots j
  recs : (rl ++ rh).Perm (visited.map fun j => (slots j).data)
  lowRecs : ∀ r ∈ rl, upper r = false
  highRecs : ∀ r ∈ rh, upper r = true
  noHigh : s.high = none → s.empty = n
  noLow : s.low = none → s.high ≠ none → s.empty = first
  unbegun : s.low = none → s.high = none → visited = []

namespace Splitting
variable {upper : α → Bool} {slots : Nat → Slot α} {first n pos : Nat}
  {visited rest : List Nat} {s : Split α} {tl th : List Nat} {rl rh : List α}

theorem init (upper : α → Bool) (slots : Nat → Slot α) (first n : Nat) (rest : List Nat) :
    Splitting upper slots first n [] rest (Split.start slots n) [] [] [] [] where
  perm := .refl _
  low := .none
  high := .none
  one := by simp [Split.start]
  same := fun _ _ _ => rfl
  recs := .refl _
  lowRecs := by simp
  highRecs := by simp
  noHigh := fun _ => rfl
  noLow := by simp [Split.start]
  unbegun := fun _ _ => rfl

theorem nodup (h : Splitting upper slots first n visited rest s tl th rl rh)
    (hNodup : (n :: (visited ++ rest)).Nodup) :
    (s.empty :: (tl ++ th)).Nodup ∧ ∀ j ∈ s.empty :: (tl ++ th), j ∉ rest := by
  rw [← cons_append, nodup_append] at hNodup
  refine ⟨(h.perm.nodup_iff).mpr hNodup.1, fun j hj hRest => ?_⟩
  exact hNodup.2.2 j (h.perm.mem_iff.mp hj) j hRest rfl

section
variable {r : α} (h : Splitting upper slots first n visited (pos :: rest) s tl th rl rh)
  (hFirst : visited = [] → pos = first) (hPos : slots pos = ⟨rest.head?, r⟩)
include h hFirst hPos

/-- The first record of the upper chain goes to the empty slot. -/
theorem first_high (hUpper : upper r = true) (hHigh : s.high = none) :
    Splitting upper slots first n (visited ++ [pos]) rest
      { s with empty := pos, high := some (s.empty, r), lowUsed := false } tl [s.empty] rl [r] := by
  have hPending := h.high
  rw [hHigh] at hPending
  generalize s.highUsed = used at hPending
  cases hPending
  have hPerm := h.perm
  have hRecs := h.recs
  rw [append_nil] at hPerm hRecs
  refine ⟨?_, h.low.keep fun _ _ => rfl, ?_, by simp, ?_, ?_, h.lowRecs, by simpa using hUpper,
    by simp, fun hLow _ => ?_, by simp⟩
  · rw [perm_iff_count] at hPerm ⊢
    intro j
    have hCount := hPerm j
    simp only [count_cons, count_append] at hCount ⊢
    omega
  · have hSeg : Seg s.slots (some n) [] (some s.empty) := congrArg some (h.noHigh hHigh).symm
    exact .last hSeg (by simp)
  · intro j hLow _
    exact h.same j hLow (by simp)
  · rw [map_append, map_singleton, hPos]
    exact hRecs.append_right [r]
  · exact hFirst (h.unbegun hLow hHigh)

/-- The first record of all stays when it belongs to the lower chain. -/
theorem first_low (hLower : upper r = false) (hLow : s.low = none) (hHigh : s.high = none) :
    Splitting upper slots first n (visited ++ [pos]) rest
      { s with low := some (pos, r), lowUsed := true } [pos] [] [r] [] := by
  obtain rfl := h.unbegun hLow hHigh
  obtain rfl := hFirst rfl
  have hPending := h.high
  rw [hHigh] at hPending
  generalize s.highUsed = used at hPending
  cases hPending
  obtain rfl := h.low.nil_iff.mp hLow
  have hSlots : s.slots pos = ⟨rest.head?, r⟩ := by rw [h.same pos (by simp) (by simp), hPos]
  have hSeg : Seg s.slots (some pos) [] (some pos) := rfl
  refine ⟨?_, .last hSeg fun _ => hSlots, ?_, fun _ => rfl,
    fun j _ _ => h.same j (by simp) (by simp), by simp [hPos], by simpa using hLower, by simp, h.noHigh, by simp, by simp⟩
  · rw [h.noHigh hHigh]
    exact .refl _
  · rw [hHigh]
    exact .none

end

/-- The first record of the lower chain goes to the slot that the first record of all
left. -/
theorem first_low_after (h : Splitting upper slots first n visited (pos :: rest) s tl th rl rh)
    {r : α} (hPos : slots pos = ⟨rest.head?, r⟩) (hLower : upper r = false) (hLow : s.low = none)
    (hHigh : s.high ≠ none) :
    Splitting upper slots first n (visited ++ [pos]) rest
      { s with empty := pos, low := some (s.empty, r), highUsed := false } [s.empty] th [r] rh := by
  have hPending := h.low
  rw [hLow] at hPending
  generalize s.lowUsed = used at hPending
  cases hPending
  have hPerm := h.perm
  have hRecs := h.recs
  have hSeg : Seg s.slots (some first) [] (some s.empty) := congrArg some (h.noLow hLow hHigh).symm
  refine ⟨?_, .last hSeg (by simp), h.high.keep fun _ _ => rfl, by simp, ?_, ?_,
    by simpa using hLower, h.highRecs, fun hNone => absurd hNone hHigh, by simp, by simp⟩
  · rw [perm_iff_count] at hPerm ⊢
    intro j
    have hCount := hPerm j
    simp only [count_cons, count_append, count_nil] at hCount ⊢
    omega
  · intro j _ hjHigh
    exact h.same j (by simp) hjHigh
  · rw [map_append, map_singleton, hPos]
    exact perm_append_comm.trans (hRecs.append_right [r])

section
variable {r : α} (h : Splitting upper slots first n visited (pos :: rest) s tl th rl rh)
  (hNodup : (n :: (visited ++ pos :: rest)).Nodup) (hPos : slots pos = ⟨rest.head?, r⟩)
include h hNodup

theorem apart :
    tl.Nodup ∧ th.Nodup ∧ (∀ j ∈ tl, j ∉ th) ∧ pos ∉ tl ∧ pos ∉ th ∧ s.slots pos = slots pos := by
  obtain ⟨hApart, hNew⟩ := h.nodup hNodup
  have hPosNew : pos ∉ s.empty :: (tl ++ th) := fun hMem => hNew pos hMem mem_cons_self
  simp only [mem_cons, mem_append, not_or] at hPosNew
  obtain ⟨hLow, hHigh, hDisjoint⟩ := nodup_append.mp (nodup_cons.mp hApart).2
  exact ⟨hLow, hHigh, fun j hjLow hjHigh => hDisjoint j hjLow j hjHigh rfl, hPosNew.2.1,
    hPosNew.2.2, h.same pos hPosNew.2.1 hPosNew.2.2⟩

include hPos

theorem next_high (hUpper : upper r = true) {last : Nat × α} (hHigh : s.high = some last) :
    Splitting upper slots first n (visited ++ [pos]) rest
      { s with
        slots := writeLast s.slots (some last) s.highUsed (some pos)
        high := some (pos, r)
        highUsed := true
        lowUsed := s.lowUsed && s.highUsed } tl (th ++ [pos]) rl (rh ++ [r]) := by
  obtain ⟨-, hNodupHigh, hDisjoint, hNewLow, hNewHigh, hSame⟩ := h.apart hNodup
  have hSome : th ≠ [] := by
    rw [ne_eq, ← h.high.nil_iff, hHigh]
    simp
  have hPending := h.high
  rw [hHigh] at hPending
  have hOther (j : Nat) (hj : j ∉ th) :
      writeLast s.slots (some last) s.highUsed (some pos) j = s.slots j :=
    hPending.writeLast_of_notMem hj
  have hUsed : (s.lowUsed && s.highUsed) = false := by
    cases hLow : s.lowUsed with
    | true => simp [h.one hLow]
    | false => rfl
  refine ⟨?_, ?_, hPending.extend hNodupHigh hSome (hSame.trans hPos) hNewHigh, by simp [hUsed], ?_,
    ?_, h.lowRecs, ?_, by simp, fun hNone _ => h.noLow hNone (by simp [hHigh]), by simp⟩
  · rw [← append_assoc]
    exact h.perm.append_right [pos]
  · rw [hUsed]
    exact h.low.keep fun j hj => hOther j (hDisjoint j hj)
  · intro j hjLow hjHigh
    rw [mem_append, not_or] at hjHigh
    exact (hOther j hjHigh.1).trans (h.same j hjLow hjHigh.1)
  · rw [map_append, map_singleton, hPos, ← append_assoc]
    exact h.recs.append_right [r]
  · intro x hx
    rcases mem_append.mp hx with hx | hx
    · exact h.highRecs x hx
    · rw [mem_singleton.mp hx, hUpper]

theorem next_low (hLower : upper r = false) {last : Nat × α} (hLow : s.low = some last) :
    Splitting upper slots first n (visited ++ [pos]) rest
      { s with
        slots := writeLast s.slots (some last) s.lowUsed (some pos)
        low := some (pos, r)
        lowUsed := true
        highUsed := s.highUsed && s.lowUsed } (tl ++ [pos]) th (rl ++ [r]) rh := by
  obtain ⟨hNodupLow, -, hDisjoint, hNewLow, hNewHigh, hSame⟩ := h.apart hNodup
  have hSome : tl ≠ [] := by
    rw [ne_eq, ← h.low.nil_iff, hLow]
    simp
  have hPending := h.low
  rw [hLow] at hPending
  have hOther (j : Nat) (hj : j ∉ tl) :
      writeLast s.slots (some last) s.lowUsed (some pos) j = s.slots j :=
    hPending.writeLast_of_notMem hj
  have hUsed : (s.highUsed && s.lowUsed) = false := by
    cases hUsedLow : s.lowUsed with
    | true => simp [h.one hUsedLow]
    | false => simp
  refine ⟨?_, hPending.extend hNodupLow hSome (hSame.trans hPos) hNewLow, ?_, fun _ => hUsed, ?_,
    ?_, ?_, h.highRecs, h.noHigh, by simp, by simp⟩
  · have hPerm := h.perm
    rw [perm_iff_count] at hPerm ⊢
    intro j
    have hCount := hPerm j
    simp only [count_cons, count_append, count_nil] at hCount ⊢
    omega
  · rw [hUsed]
    exact h.high.keep fun j hj => hOther j fun hIn => hDisjoint j hIn hj
  · intro j hjLow hjHigh
    rw [mem_append, not_or] at hjLow
    exact (hOther j hjLow.1).trans (h.same j hjLow.1 hjHigh)
  · rw [map_append, map_singleton, hPos]
    refine Perm.trans ?_ (h.recs.append_right [r])
    rw [append_assoc, append_assoc]
    exact perm_append_comm.append_left rl
  · intro x hx
    rcases mem_append.mp hx with hx | hx
    · exact h.lowRecs x hx
    · rw [mem_singleton.mp hx, hLower]

/-- One step of the walk. -/
theorem step (hFirst : visited = [] → pos = first) :
    ∃ tl' th' rl' rh', Splitting upper slots first n (visited ++ [pos]) rest (s.step upper pos)
      tl' th' rl' rh' := by
  obtain ⟨-, -, -, -, -, hSame⟩ := h.apart hNodup
  have hData : (s.slots pos).data = r := by rw [hSame, hPos]
  rw [Split.step, hData]
  cases hUpper : upper r with
  | true =>
    cases hHigh : s.high with
    | none => exact ⟨_, _, _, _, h.first_high hFirst hPos hUpper hHigh⟩
    | some last => exact ⟨_, _, _, _, h.next_high hNodup hPos hUpper hHigh⟩
  | false =>
    cases hLow : s.low with
    | none =>
      cases hHigh : s.high with
      | none =>
        have hStep := h.first_low hFirst hPos hUpper hLow hHigh
        rw [hHigh] at hStep
        exact ⟨_, _, _, _, hStep⟩
      | some last =>
        have hStep := h.first_low_after hPos hUpper hLow (by simp [hHigh])
        rw [hHigh] at hStep
        exact ⟨_, _, _, _, hStep⟩
    | some last => exact ⟨_, _, _, _, h.next_low hNodup hPos hUpper hLow⟩

end

section
variable (h : Splitting upper slots first n visited (pos :: rest) s tl th rl rh)
  (hNodup : (n :: (visited ++ pos :: rest)).Nodup)
include h hNodup

/-- A step writes the slot kept back, never the one it visits. -/
theorem step_slots : (s.step upper pos).slots pos = slots pos := by
  obtain ⟨-, -, -, hNewLow, hNewHigh, hSame⟩ := h.apart hNodup
  rw [← hSame, Split.step]
  cases hUpper : upper (s.slots pos).data with
  | true =>
    cases hHigh : s.high with
    | none => rfl
    | some last => exact (hHigh ▸ h.high).writeLast_of_notMem hNewHigh
  | false =>
    cases hLow : s.low with
    | none => cases hHigh : s.high <;> rfl
    | some last => exact (hLow ▸ h.low).writeLast_of_notMem hNewLow

/-- The whole walk, from the chain's first slot on. -/
theorem walk (hFirst : visited = [] → pos = first) (hSeg : Seg slots (some pos) (pos :: rest) none)
    {fuel : Nat} (hFuel : rest.length < fuel) :
    ∃ s' tl' th' rl' rh', s.walk upper fuel pos = some s' ∧
      Splitting upper slots first n (visited ++ pos :: rest) [] s' tl' th' rl' rh' := by
  induction rest generalizing pos visited s tl th rl rh fuel with
  | nil =>
    obtain ⟨fuel, rfl⟩ : ∃ k, fuel = k + 1 := ⟨fuel - 1, by omega⟩
    have hNext : (slots pos).next = none := hSeg.2
    have hPos : slots pos = ⟨none, (slots pos).data⟩ := by rw [← hNext]
    obtain ⟨tl', th', rl', rh', hStep⟩ := h.step hNodup hPos hFirst
    refine ⟨s.step upper pos, tl', th', rl', rh', ?_, hStep⟩
    simp only [Split.walk, h.step_slots hNodup, hNext]
  | cons next rest ih =>
    obtain ⟨fuel, rfl⟩ : ∃ k, fuel = k + 1 := ⟨fuel - 1, by omega⟩
    have hNext : (slots pos).next = some next := hSeg.2.1
    have hPos : slots pos = ⟨some next, (slots pos).data⟩ := by rw [← hNext]
    obtain ⟨tl₁, th₁, rl₁, rh₁, hStep⟩ := h.step hNodup hPos hFirst
    have hRest : Seg slots (some next) (next :: rest) none := hNext ▸ hSeg.2
    have hMoved : visited ++ [pos] ++ next :: rest = visited ++ pos :: next :: rest := by simp
    obtain ⟨s', tl', th', rl', rh', hWalk, hDone⟩ :=
      ih hStep (by rw [hMoved]; exact hNodup) (by simp) hRest (by simpa using hFuel)
    rw [hMoved] at hDone
    refine ⟨s', tl', th', rl', rh', ?_, hDone⟩
    simp only [Split.walk, h.step_slots hNodup, hNext]
    exact hWalk

end

end Splitting

variable {home home' : α → Nat} {upper : α → Bool} {live : Finset Nat} {slots : Nat → Slot α}
  {chains : Nat → List Nat} {n first fuel : Nat}

theorem contents_eq_add {l : List Nat} (hNodup : l.Nodup) (hLive : ∀ j ∈ l, j ∈ live) :
    contents live slots =
      (l.map fun j => (slots j).data : List α) + contents (live.filter (· ∉ l)) slots := by
  have hIn : live.val.filter (· ∈ l) = (l : Multiset Nat) := by
    refine (Multiset.Nodup.ext (live.nodup.filter _) (Multiset.coe_nodup.mpr hNodup)).mpr fun j => ?_
    simp only [Multiset.mem_filter, Finset.mem_val, Multiset.mem_coe]
    exact ⟨And.right, fun hj => ⟨hLive j hj, hj⟩⟩
  rw [contents, ← Multiset.filter_add_not (· ∈ l) live.val, Multiset.map_add, hIn, Multiset.map_coe]
  rfl

/-- Two finished chains `tl` and `th` in the slots of the chain of `first` and slot `n`,
but for slot `e`. -/
theorem Chained.splitChain (h : Chained home live slots chains) (hn : n ∉ live) (hNe : first ≠ n)
    (hHome : ∀ j ∈ live, home' (slots j).data =
      if home (slots j).data = first ∧ upper (slots j).data then n else home (slots j).data)
    {slots' : Nat → Slot α} {e : Nat} {tl th : List Nat}
    (hPerm : (e :: (tl ++ th)).Perm (n :: chains first))
    (hLow : tl = [] ∨ Seg slots' (some first) tl none) (hHigh : th = [] ∨ Seg slots' (some n) th none)
    (hLowRecs : ∀ j ∈ tl, upper (slots' j).data = false)
    (hHighRecs : ∀ j ∈ th, upper (slots' j).data = true)
    (hRecs : ((tl ++ th).map fun j => (slots' j).data).Perm
      ((chains first).map fun j => (slots j).data))
    (hSame : ∀ j, j ∉ tl → j ∉ th → slots' j = slots j) :
    Chained home' ((insert n live).erase e) slots'
        (update (update chains first tl) n th) ∧
      contents ((insert n live).erase e) slots' = contents live slots := by
  have hLive {i j : Nat} (hj : j ∈ chains i) : j ∈ live := (h.sound i j hj).1
  have hNodup : (e :: (tl ++ th)).Nodup :=
    hPerm.nodup_iff.mpr (nodup_cons.mpr ⟨fun hMem => hn (hLive hMem), h.nodup first⟩)
  obtain ⟨heNew, hParts⟩ := nodup_cons.mp hNodup
  have hNew {j : Nat} (hj : j ∈ tl ++ th) : j ∈ (insert n live).erase e := by
    refine Finset.mem_erase.mpr ⟨fun hEq => heNew (hEq ▸ hj), ?_⟩
    rcases mem_cons.mp (hPerm.mem_iff.mp (mem_cons_of_mem e hj)) with rfl | hj
    · exact Finset.mem_insert_self ..
    · exact Finset.mem_insert_of_mem (hLive hj)
  -- the records of the two chains come from the old one
  have hFrom {j : Nat} (hj : j ∈ tl ++ th) :
      home' (slots' j).data = if upper (slots' j).data then n else first := by
    have hMem := hRecs.mem_iff.mp (mem_map_of_mem hj)
    obtain ⟨k, hk, hData⟩ := mem_map.mp hMem
    rw [← hData, hHome k (hLive hk), (h.sound first k hk).2]
    simp
  have hKept {j : Nat} (hj : j ∈ live) (hOut : j ∉ chains first) :
      j ∈ (insert n live).erase e ∧ slots' j = slots j ∧
        home' (slots j).data = home (slots j).data := by
    have hNot : j ∉ e :: (tl ++ th) := fun hMem => by
      rcases mem_cons.mp (hPerm.mem_iff.mp hMem) with rfl | hMem
      · exact hn hj
      · exact hOut hMem
    simp only [mem_cons, mem_append, not_or] at hNot
    refine ⟨Finset.mem_erase.mpr ⟨hNot.1, Finset.mem_insert_of_mem hj⟩,
      hSame j hNot.2.1 hNot.2.2, ?_⟩
    rw [hHome j hj, if_neg]
    rintro ⟨hFirst, -⟩
    exact hOut (hFirst ▸ h.complete j hj)
  have hHigh' : update (update chains first tl) n th n = th :=
    update_self ..
  have hLow' : update (update chains first tl) n th first = tl := by
    rw [update_of_ne hNe, update_self]
  refine ⟨h.rebuild (fun i => i = n ∨ i = first) ?_ ?_ ?_ ?_ ?_, ?_⟩
  · rintro i (rfl | rfl)
    · rwa [hHigh']
    · rwa [hLow']
  · rintro i (rfl | rfl) j hj
    · rw [hHigh'] at hj
      exact ⟨hNew (mem_append_right tl hj), by
        rw [hFrom (mem_append_right tl hj), hHighRecs j hj, if_pos rfl]⟩
    · rw [hLow'] at hj
      exact ⟨hNew (mem_append_left th hj), by
        rw [hFrom (mem_append_left th hj), hLowRecs j hj, if_neg (by simp)]⟩
  · intro i hi
    rw [not_or] at hi
    rw [update_of_ne hi.1, update_of_ne hi.2]
  · intro j hj hOut
    rw [not_or] at hOut
    exact hKept hj fun hMem => hOut.2 (h.sound first j hMem).2
  · intro j hj
    obtain ⟨hje, hj⟩ := Finset.mem_erase.mp hj
    by_cases hIn : j ∈ tl ++ th
    · rcases mem_append.mp hIn with hTl | hTh
      · exact .inl ⟨first, .inr rfl, hLow'.symm ▸ hTl⟩
      · exact .inl ⟨n, .inl rfl, hHigh'.symm ▸ hTh⟩
    · have hOut : j ∉ n :: chains first := fun hMem =>
        (mem_cons.mp (hPerm.mem_iff.mpr hMem)).elim hje hIn
      rw [mem_cons, not_or] at hOut
      have hjLive := (Finset.mem_insert.mp hj).resolve_left hOut.1
      refine .inr ⟨hjLive, ?_⟩
      rintro (hEq | hEq)
      · exact hn (hEq ▸ h.home_mem hjLive)
      · exact hOut.2 (hEq ▸ h.complete j hjLive)
  · have hRest : ((insert n live).erase e).filter (· ∉ tl ++ th) =
        live.filter (· ∉ chains first) := by
      ext j
      have hMem := hPerm.mem_iff (a := j)
      simp only [mem_cons] at hMem
      simp only [Finset.mem_filter, Finset.mem_erase, Finset.mem_insert]
      have hjn : j = n → j ∉ live := fun hEq => hEq ▸ hn
      grind only
    rw [contents_eq_add hParts fun j hj => hNew hj, contents_eq_add (h.nodup first) fun j hj => hLive hj,
      hRest, Multiset.coe_eq_coe.mpr hRecs]
    congr 1
    refine contents_congr fun j hj => ?_
    obtain ⟨hj, hOut⟩ := Finset.mem_filter.mp hj
    rw [(hKept hj hOut).2.1]

/-- The two chains after the walk, with the records kept back written. -/
theorem Splitting.finish {s : Split α} {tl th : List Nat} {rl rh : List α}
    (h : Splitting upper slots first n (chains first) [] s tl th rl rh)
    (hNodup : (n :: chains first).Nodup) :
    (tl = [] ∨ Seg s.finish (some first) tl none) ∧ (th = [] ∨ Seg s.finish (some n) th none) ∧
      tl.map (fun j => (s.finish j).data) = rl ∧ th.map (fun j => (s.finish j).data) = rh ∧
      ∀ j, j ∉ tl → j ∉ th → s.finish j = slots j := by
  have hPerm := h.perm.nodup_iff.mpr hNodup
  obtain ⟨hTl, hTh, hApart⟩ := nodup_append.mp (nodup_cons.mp hPerm).2
  set slots₁ := writeLast s.slots s.low s.lowUsed none
  have hOther₁ {j : Nat} (hj : j ∉ tl) : slots₁ j = s.slots j := h.low.writeLast_of_notMem hj
  have hHigh : Pending slots₁ n none s.high s.highUsed th rh :=
    h.high.congr fun j hj => hOther₁ fun hIn => hApart j hIn j hj rfl
  have hOther₂ {j : Nat} (hj : j ∉ th) : s.finish j = slots₁ j := hHigh.writeLast_of_notMem hj
  have hTlSame {j : Nat} (hj : j ∈ tl) : s.finish j = slots₁ j :=
    hOther₂ fun hIn => hApart j hj j hIn rfl
  obtain ⟨hSegLow, hMapLow⟩ := h.low.writeLast_spec hTl
  obtain ⟨hSegHigh, hMapHigh⟩ := hHigh.writeLast_spec hTh
  refine ⟨hSegLow.imp_right fun hSeg => hSeg.congr fun j hj => hTlSame hj, hSegHigh, ?_, hMapHigh,
    fun j hjLow hjHigh => ?_⟩
  · rw [← hMapLow]
    exact map_congr_left fun j hj => congrArg Slot.data (hTlSame hj)
  · rw [hOther₂ hjHigh, hOther₁ hjLow, h.same j hjLow hjHigh]

theorem split_spec {look : α → Nat} (upper : α → Bool) (h : Chained home live slots chains)
    (hLook : ∀ j ∈ live, look (slots j).data = home (slots j).data) (hn : n ∉ live)
    (hFirst : first ≠ n → first ∈ live)
    (hHome : ∀ j ∈ live, home' (slots j).data =
      if home (slots j).data = first ∧ upper (slots j).data then n else home (slots j).data)
    (hFuel : live.card ≤ fuel) :
    ∃ slots' chains' e both, split look upper slots fuel n first = some (slots', e, both) ∧
      e ∈ insert n live ∧ Chained home' ((insert n live).erase e) slots' chains' ∧
      contents ((insert n live).erase e) slots' = contents live slots ∧
      buckets home' ((insert n live).erase e) slots' = buckets home live slots + both.toNat := by
  by_cases hEmpty : chains first = []
  · have hSkip : split look upper slots fuel n first = some (slots, n, false) := by
      rw [split]
      split
      · rfl
      · rename_i hNe
        have hLive := hFirst hNe
        rw [hLook first hLive, if_pos]
        intro hEq
        have hMem := h.complete first hLive
        rw [hEq, hEmpty] at hMem
        exact not_mem_nil hMem
    have hSame : Chained home' live slots chains := by
      have hEq (j : Nat) (hj : j ∈ live) : home' (slots j).data = home (slots j).data := by
        rw [hHome j hj, if_neg]
        rintro ⟨hAt, -⟩
        have hMem := h.complete j hj
        rw [hAt, hEmpty] at hMem
        exact not_mem_nil hMem
      exact h.congr (fun _ _ => rfl) hEq
    refine ⟨slots, chains, n, false, hSkip, Finset.mem_insert_self .., ?_⟩
    rw [Finset.erase_insert hn]
    exact ⟨hSame, rfl, h.buckets_congr hSame fun _ => Iff.rfl⟩
  · obtain ⟨hLive, hOwn⟩ := h.head hEmpty
    have hNe : first ≠ n := fun hEq => hn (hEq ▸ hLive)
    obtain ⟨rest, hChain, -⟩ := h.chain_eq hEmpty
    have hSeg := (h.linked first).resolve_left hEmpty
    have hNodup : (n :: chains first).Nodup :=
      nodup_cons.mpr ⟨fun hMem => hn (h.sound first n hMem).1, h.nodup first⟩
    have hLength := h.length_le first
    rw [hChain] at hSeg hLength
    have hShort : rest.length < fuel := by
      rw [length_cons] at hLength
      omega
    have hStart := Splitting.init upper slots first n (first :: rest)
    obtain ⟨s, tl, th, rl, rh, hWalk, hDone⟩ := hStart.walk
      (by rw [← hChain]; exact hNodup) (fun _ => rfl) hSeg hShort
    rw [nil_append, ← hChain] at hDone
    obtain ⟨hLow, hHigh, hLowData, hHighData, hSame⟩ := hDone.finish hNodup
    have hRecs : ((tl ++ th).map fun j => (s.finish j).data).Perm
        ((chains first).map fun j => (slots j).data) := by
      rw [map_append, hLowData, hHighData]
      exact hDone.recs
    obtain ⟨hChained, hContents⟩ := h.splitChain hn hNe hHome hDone.perm hLow hHigh
      (fun j hj => hDone.lowRecs _ (hLowData ▸ mem_map_of_mem hj))
      (fun j hj => hDone.highRecs _ (hHighData ▸ mem_map_of_mem hj)) hRecs hSame
    have hSome : tl ++ th ≠ [] := fun hNil => by
      rw [hNil] at hRecs
      exact hEmpty (map_eq_nil_iff.mp hRecs.nil_eq.symm)
    have hBoth : (s.low.isSome && s.high.isSome) = (!tl.isEmpty && !th.isEmpty) := by
      rw [hDone.low.isSome_eq, hDone.high.isSome_eq]
    refine ⟨s.finish, _, s.empty, _, ?_, ?_, hChained, hContents,
      h.buckets_split hChained hNe (h.eq_nil_of_notMem hn) hEmpty hSome⟩
    · rw [split, if_neg hNe, hLook first hLive, if_neg (by simpa using hOwn), hWalk, ← hBoth]
      rfl
    · rcases mem_cons.mp (hDone.perm.mem_iff.mp mem_cons_self) with hEq | hMem
      · exact Finset.mem_insert.mpr (.inl hEq)
      · exact Finset.mem_insert_of_mem (h.sound first _ hMem).1

end Library.LinearHash
