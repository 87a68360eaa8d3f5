import Mathlib

/-! Intrusive first-in first-out queues. Each queue `n` has a cell for its
first element and an address `last` of the cell that ends it; each element
has a `next` cell and an address `prev` of the cell that points at it. One
element record serves all the queues, so an operation on one queue has to
leave the cells of the others alone. -/
namespace Library
open Function List

/-- The cells that hold a pointer to an element: the head of a list, or the `next` of an element. -/
inductive Addr (N D : Type) where
  | data (n : N)
  | next (d : D)
  deriving DecidableEq

/-- Doubly linked lists whose elements point back to the cell that points to them. -/
structure Links (N D : Type) where
  data : N → Option D
  last : N → Addr N D
  next : D → Option D
  prev : D → Addr N D

namespace Links
variable {N D : Type}

def load (L : Links N D) : Addr N D → Option D
  | .data n => L.data n
  | .next d => L.next d

def empty : Links N D where
  data _ := none
  last n := .data n
  next _ := none
  prev d := .next d

section Cells
variable (L : Links N D) (a b : Addr N D) (v : Option D) (d e : D) (m n : N)

/-- `*addr= value`. -/
def store [DecidableEq N] [DecidableEq D] (L : Links N D) : Addr N D → Option D → Links N D
  | .data n, v => { L with data := update L.data n v }
  | .next d, v => { L with next := update L.next d v }

@[simp] theorem load_store [DecidableEq N] [DecidableEq D] :
    (L.store a v).load b = if b = a then v else L.load b := by
  cases a <;> cases b <;> simp [store, load, update_apply]

@[simp] theorem prev_store [DecidableEq N] [DecidableEq D] : (L.store a v).prev = L.prev := by
  cases a <;> rfl

@[simp] theorem last_store [DecidableEq N] [DecidableEq D] : (L.store a v).last = L.last := by
  cases a <;> rfl

def setPrev [DecidableEq D] (L : Links N D) (d : D) (a : Addr N D) : Links N D :=
  { L with prev := update L.prev d a }

@[simp] theorem load_setPrev [DecidableEq D] : (L.setPrev d a).load b = L.load b := by
  cases b <;> rfl

@[simp] theorem prev_setPrev [DecidableEq D] :
    (L.setPrev d a).prev e = if e = d then a else L.prev e := by
  simp [setPrev, update_apply]

@[simp] theorem last_setPrev [DecidableEq D] : (L.setPrev d a).last = L.last := rfl

def setLast [DecidableEq N] (L : Links N D) (n : N) (a : Addr N D) : Links N D :=
  { L with last := update L.last n a }

@[simp] theorem load_setLast [DecidableEq N] : (L.setLast n a).load b = L.load b := by
  cases b <;> rfl

@[simp] theorem prev_setLast [DecidableEq N] : (L.setLast n a).prev = L.prev := rfl

@[simp] theorem last_setLast [DecidableEq N] :
    (L.setLast n a).last m = if m = n then a else L.last m := by
  simp [setLast, update_apply]

end Cells

/-- The `next` cell of an element, seen as a load. -/
theorem next_eq_load (L : Links N D) (d : D) : L.next d = L.load (.next d) := rfl

/-! ### Chains of cells -/

/-- The cell behind the last element, which `last` points to. -/
def endAddr : Addr N D → List D → Addr N D
  | a, [] => a
  | _, d :: ids => endAddr (.next d) ids

/-- The cells that point to the elements of a list. -/
def cellsOf : Addr N D → List D → List (Addr N D)
  | _, [] => []
  | a, d :: ids => a :: cellsOf (.next d) ids

/-- From a cell on, the links go through the elements in order, and back. -/
def Linked (L : Links N D) : Addr N D → List D → Prop
  | _, [] => True
  | a, d :: ids => L.load a = some d ∧ L.prev d = a ∧ L.Linked (.next d) ids

theorem endAddr_append (a : Addr N D) (xs ys : List D) :
    endAddr a (xs ++ ys) = endAddr (endAddr a xs) ys := by
  induction xs generalizing a with
  | nil => rfl
  | cons x xs ih => exact ih (.next x)

theorem endAddr_next (d : D) (ids : List D) :
    ∃ e ∈ d :: ids, endAddr (.next d : Addr N D) ids = .next e := by
  induction ids generalizing d with
  | nil => exact ⟨d, by simp, rfl⟩
  | cons x ids ih =>
    obtain ⟨e, he, h⟩ := ih x
    exact ⟨e, mem_cons_of_mem d he, h⟩

theorem endAddr_cases (a : Addr N D) (ids : List D) :
    endAddr a ids = a ∨ ∃ d ∈ ids, endAddr a ids = .next d := by
  cases ids with
  | nil => exact .inl rfl
  | cons d ids => exact .inr (endAddr_next d ids)

theorem next_ne_endAddr {d : D} {ids : List D} (n : N) (hd : d ∉ ids) :
    Addr.next d ≠ endAddr (.data n) ids := by
  intro hEq
  rcases endAddr_cases (.data n) ids with hc | ⟨x, hx, hc⟩ <;>
    rw [← hEq] at hc <;> cases hc
  exact hd hx

theorem linked_append (L : Links N D) (a : Addr N D) (xs ys : List D) :
    L.Linked a (xs ++ ys) ↔ L.Linked a xs ∧ L.Linked (endAddr a xs) ys := by
  induction xs generalizing a with
  | nil => simp [Linked, endAddr]
  | cons x xs ih => simp [Linked, endAddr, ih, and_assoc]

variable {a : Addr N D} {ids : List D}

theorem cellsOf_next {b : Addr N D} {d : D} (h : b ∈ cellsOf (.next d) ids) :
    ∃ e ∈ d :: ids, b = .next e := by
  induction ids generalizing d with
  | nil => simp [cellsOf] at h
  | cons x ids ih =>
    rcases mem_cons.mp h with rfl | h
    · exact ⟨d, by simp, rfl⟩
    · obtain ⟨e, he, rfl⟩ := ih h
      exact ⟨e, mem_cons_of_mem d he, rfl⟩

theorem cellsOf_cases {b : Addr N D} (h : b ∈ cellsOf a ids) : b = a ∨ ∃ d ∈ ids, b = .next d := by
  cases ids with
  | nil => simp [cellsOf] at h
  | cons d ids => exact (mem_cons.mp h).imp_right cellsOf_next

/-- The cell that ends a chain is none of those passed before. -/
theorem endAddr_notMem_cellsOf (hNodup : ids.Nodup) (hFresh : ∀ d ∈ ids, a ≠ .next d) :
    endAddr a ids ∉ cellsOf a ids := by
  induction ids generalizing a with
  | nil => simp [cellsOf]
  | cons d ids ih =>
    obtain ⟨hd, hNodup⟩ := nodup_cons.mp hNodup
    simp only [cellsOf, endAddr, mem_cons, not_or]
    constructor
    · intro h
      obtain ⟨e, he, h'⟩ := endAddr_next d ids
      exact hFresh e he (h.symm.trans h')
    · apply ih hNodup
      rintro e he ⟨⟩
      exact hd he

variable {L L' : Links N D}

/-- A chain depends only on the cells passed and on the elements' `prev`. -/
theorem Linked.congr (h : L.Linked a ids) (hLoad : ∀ b ∈ cellsOf a ids, L'.load b = L.load b)
    (hPrev : ∀ d ∈ ids, L'.prev d = L.prev d) : L'.Linked a ids := by
  induction ids generalizing a with
  | nil => trivial
  | cons d ids ih =>
    obtain ⟨hFirst, hBack, hRest⟩ := h
    refine ⟨?_, ?_, ih hRest (fun b hb => hLoad b (by simp [cellsOf, hb]))
      (fun e he => hPrev e (by simp [he]))⟩
    · rw [hLoad a (by simp [cellsOf]), hFirst]
    · rw [hPrev d (by simp), hBack]

/-- In a terminated chain the first cell points at the first element. -/
theorem Linked.load_eq_head? (h : L.Linked a ids) (hEnd : L.load (endAddr a ids) = none) :
    L.load a = ids.head? := by
  cases ids with
  | nil => exact hEnd
  | cons d ids => exact h.1

/-! ### Families of queues -/

/-- A list with its head, its links and its `last`. -/
structure Holds (L : Links N D) (n : N) (ids : List D) : Prop where
  linked : L.Linked (.data n) ids
  last : L.last n = endAddr (.data n) ids

/-- The lists share no element and repeat none. -/
structure Separate (q : N → List D) : Prop where
  nodup : ∀ n, (q n).Nodup
  disjoint : ∀ m n d, d ∈ q m → d ∈ q n → m = n

/-- The queues hold `q`, no element twice, and all but `opened` are terminated.
A queue is opened while its elements are moved away or into it. -/
structure Represents (L : Links N D) (opened : Option N) (q : N → List D) : Prop where
  holds : ∀ n, L.Holds n (q n)
  terminated : ∀ n, opened ≠ some n → L.load (L.last n) = none
  separate : Separate q

theorem represents_empty : (empty : Links N D).Represents none (fun _ => []) where
  holds _ := ⟨trivial, rfl⟩
  terminated _ _ := rfl
  separate := ⟨fun _ => nodup_nil, fun _ _ _ h => by simp at h⟩

variable {q : N → List D}

/-- A terminated family is also one whose queue `n` may be left open. -/
theorem Represents.open (h : L.Represents none q) (n : N) : L.Represents (some n) q :=
  ⟨h.holds, fun m _ => h.terminated m (by simp), h.separate⟩

section Separation
variable [DecidableEq N] {q : N → List D} {m n : N} {d : D}

section
variable (h : Separate q)
include h

/-- Changing one queue keeps the family separate when nothing new enters it,
or only elements that were in no queue. -/
theorem Separate.replace {ids : List D} (hNodup : ids.Nodup)
    (hIds : ∀ d ∈ ids, d ∈ q n ∨ ∀ m, d ∉ q m) : Separate (update q n ids) where
  nodup m := by
    rcases eq_or_ne m n with rfl | hm
    · simpa using hNodup
    · simpa [hm] using h.nodup m
  disjoint k m d hk hm := by
    have hOld {k : N} (hk : d ∈ update q n ids k) : d ∈ q k ∨ k = n ∧ ∀ m, d ∉ q m := by
      rcases eq_or_ne k n with rfl | hkn
      · exact (hIds d (by simpa using hk)).imp_right (⟨rfl, ·⟩)
      · exact .inl (by simpa [hkn] using hk)
    rcases hOld hk with hk' | ⟨rfl, hNew⟩ <;> rcases hOld hm with hm' | ⟨rfl, hNew'⟩
    · exact h.disjoint k m d hk' hm'
    · exact absurd hk' (hNew' k)
    · exact absurd hm' (hNew m)
    · rfl

/-- An element of no queue enters queue `n`, at either end. -/
theorem Separate.enter {ids : List D} (hd : ∀ m, d ∉ q m)
    (hIds : ids.Perm (d :: q n)) : Separate (update q n ids) := by
  apply h.replace (hIds.nodup_iff.mpr (nodup_cons.mpr ⟨hd n, h.nodup n⟩))
  intro e he
  rcases mem_cons.mp (hIds.subset he) with rfl | he
  · exact .inr hd
  · exact .inl he

theorem Separate.sublist {ids : List D} (hIds : ids.Sublist (q n)) :
    Separate (update q n ids) :=
  h.replace (hIds.nodup (h.nodup n)) fun _ hd => .inl (hIds.subset hd)

/-- An element taken out of its queue is in no queue. -/
theorem Separate.notMem_erase [DecidableEq D] (hd : d ∈ q n) :
    d ∉ update q n ((q n).erase d) m := by
  rcases eq_or_ne m n with rfl | hm
  · simpa using (h.nodup m).not_mem_erase
  · rw [update_of_ne hm]
    exact fun hd' => hm (h.disjoint _ _ d hd' hd)

/-- Moving elements of one queue behind those of another. -/
theorem Separate.move {src dst : N} {moved left : List D} (hNe : src ≠ dst)
    (hSplit : (moved ++ left).Perm (q src)) :
    Separate (update (update q src left) dst (q dst ++ moved)) := by
  obtain ⟨hMoved, hLeft, hDisjoint⟩ := nodup_append.mp (hSplit.nodup_iff.mpr (h.nodup src))
  have hSrc {d : D} (hd : d ∈ moved) : d ∈ q src := hSplit.subset (mem_append_left _ hd)
  apply (h.replace hLeft fun d hd => .inl (hSplit.subset (mem_append_right _ hd))).replace
  · exact nodup_append.mpr ⟨h.nodup dst, hMoved,
      fun a ha b hb hEq => hNe (h.disjoint _ _ a (hSrc (hEq ▸ hb)) ha)⟩
  · intro d hd
    rcases mem_append.mp hd with hd | hd
    · exact .inl (by rwa [update_of_ne hNe.symm])
    · refine .inr fun m hm => ?_
      rcases eq_or_ne m src with rfl | hms
      · rw [update_self] at hm
        exact hDisjoint d hd d hm rfl
      · rw [update_of_ne hms] at hm
        exact hms (h.disjoint _ _ d hm (hSrc hd))

end

end Separation

/-- The cells that belong to a list. -/
def Owns (n : N) (ids : List D) (a : Addr N D) : Prop :=
  a = .data n ∨ ∃ d ∈ ids, a = .next d

theorem owns_endAddr (n : N) (xs ys : List D) :
    Owns n (xs ++ ys) (endAddr (.data n) xs : Addr N D) := by
  rcases endAddr_cases (.data n) xs with h | ⟨d, hd, h⟩
  · exact .inl h
  · exact .inr ⟨d, by simp [hd], h⟩

variable {n : N}

theorem Owns.disjoint {m : N} (hq : Separate q) (hm : Owns m (q m) a) (hn : Owns n (q n) a) :
    m = n := by
  rcases hm with rfl | ⟨d, hd, rfl⟩ <;> rcases hn with h | ⟨e, he, h⟩ <;> cases h
  · rfl
  · exact hq.disjoint m n d hd he

/-- An operation that leaves the cells of a queue alone leaves the queue alone. -/
theorem Holds.congr (h : L.Holds n ids) (hLoad : ∀ b, Owns n ids b → L'.load b = L.load b)
    (hPrev : ∀ d ∈ ids, L'.prev d = L.prev d) (hLast : L'.last n = L.last n) : L'.Holds n ids where
  linked := h.linked.congr (fun b hb => hLoad b (cellsOf_cases hb)) hPrev
  last := hLast.trans h.last

theorem Holds.owns_last (h : L.Holds n ids) : Owns n ids (L.last n) := by
  rw [h.last]
  simpa using owns_endAddr n ids []

theorem Holds.data_eq_head? (h : L.Holds n ids) (hEnd : L.load (L.last n) = none) :
    L.data n = ids.head? :=
  h.linked.load_eq_head? (h.last ▸ hEnd)

variable {d : D} {xs ys : List D}

/-- The element a queue passes after `d`. -/
theorem Holds.next_eq_head? (h : L.Holds n (xs ++ d :: ys)) (hEnd : L.load (L.last n) = none) :
    L.next d = ys.head? := by
  obtain ⟨-, -, -, hRest⟩ := (linked_append ..).mp h.linked
  rw [h.last, endAddr_append] at hEnd
  exact hRest.load_eq_head? hEnd

theorem Holds.prev_eq (h : L.Holds n (xs ++ d :: ys)) : L.prev d = endAddr (.data n) xs :=
  ((linked_append ..).mp h.linked).2.2.1

/-- A cell of the queue points at `d`. -/
theorem Holds.owns_prev (h : L.Holds n ids) (hd : d ∈ ids) : Owns n ids (L.prev d) := by
  obtain ⟨xs, ys, rfl⟩ := append_of_mem hd
  rw [h.prev_eq]
  exact owns_endAddr n xs (d :: ys)

variable {o : Option N}

/-- An operation on queue `n` leaves the cells of the other queues alone. -/
theorem Represents.replace [DecidableEq N] {o' : Option N} (h : L.Represents o q)
    (hOpen : ∀ m ≠ n, o' ≠ some m → o ≠ some m) (hSeparate : Separate (update q n ids))
    (hHolds : L'.Holds n ids) (hEnd : o' ≠ some n → L'.load (L'.last n) = none)
    (hOther : ∀ m ≠ n, (∀ b, Owns m (q m) b → L'.load b = L.load b) ∧
      (∀ e ∈ q m, L'.prev e = L.prev e) ∧ L'.last m = L.last m) :
    L'.Represents o' (update q n ids) where
  holds m := by
    rcases eq_or_ne m n with rfl | hm
    · rwa [update_self]
    · rw [update_of_ne hm]
      obtain ⟨hLoad, hPrev, hLast⟩ := hOther m hm
      exact (h.holds m).congr hLoad hPrev hLast
  terminated m hm := by
    rcases eq_or_ne m n with rfl | hmn
    · exact hEnd hm
    · obtain ⟨hLoad, -, hLast⟩ := hOther m hmn
      rw [hLast, hLoad _ (h.holds m).owns_last]
      exact h.terminated m (hOpen m hmn hm)
  separate := hSeparate

section
variable {m : N} {b : Addr N D} (h : L.Represents o q)
include h

theorem Represents.ne_last (hm : m ≠ n) (hb : Owns m (q m) b) : b ≠ L.last n :=
  fun hEq => hm (Owns.disjoint h.separate hb (hEq ▸ (h.holds n).owns_last))

theorem Represents.ne_last_of_mem (hb : b ∈ cellsOf (.data n) (q n)) : b ≠ L.last n := by
  rw [(h.holds n).last]
  rintro rfl
  exact endAddr_notMem_cellsOf (h.separate.nodup n) (by simp) hb

theorem Represents.next_ne_last (hd : ∀ m, d ∉ q m) : Addr.next d ≠ L.last n :=
  (h.holds n).last ▸ next_ne_endAddr n (hd n)

end

section Operations
variable [DecidableEq N] [DecidableEq D]

/-- An element is put behind the last one. Its own `next` is not written. -/
def append (L : Links N D) (n : N) (d : D) : Links N D :=
  ((L.store (L.last n) (some d)).setPrev d (L.last n)).setLast n (.next d)

/-- An element is taken out by its back pointer, without a walk. -/
def unlink (L : Links N D) (n : N) (d : D) : Links N D :=
  let stored := L.store (L.prev d) (L.next d)
  match L.next d with
  | some e => stored.setPrev e (L.prev d)
  | none => stored.setLast n (L.prev d)

/-- An element is put before the first one. -/
def pushFront (L : Links N D) (n : N) (d : D) : Links N D :=
  let stored := L.store (.next d) (L.data n)
  let joined :=
    match L.data n with
    | some e => stored.setPrev e (.next d)
    | none => stored.setLast n (.next d)
  (joined.setPrev d (.data n)).store (.data n) (some d)

/-- Hang the elements of queue `src`, of which `first` is the first, behind
those of queue `dst`, and leave `src` without an end. -/
def pour (L : Links N D) (src dst : N) (first : D) : Links N D :=
  let joined := (L.store (L.last dst) (some first)).setPrev first (L.last dst)
  (joined.setLast dst (joined.last src)).setLast src (.data src)

def terminate (L : Links N D) (n : N) : Links N D :=
  L.store (L.last n) none

def clear (L : Links N D) (n : N) : Links N D :=
  (L.setLast n (.data n)).store (.data n) none

section
variable (h : L.Represents o q)
include h

theorem Represents.append (hd : ∀ m, d ∉ q m) (hNext : o ≠ some n → L.next d = none) :
    (L.append n d).Represents o (update q n (q n ++ [d])) := by
  have hNew {m : N} {e : D} (he : e ∈ q m) : e ≠ d := fun hEq => hd m (hEq ▸ he)
  refine h.replace (fun _ _ => id) (h.separate.enter hd (perm_append_singleton ..)) ⟨(linked_append ..).mpr ⟨?_, ?_, ?_, trivial⟩, ?_⟩
    (fun hn => ?_) fun m hm => ⟨fun b hb => ?_, fun e he => ?_, ?_⟩
  · apply (h.holds n).linked.congr
    · intro b hb
      simp [Links.append, h.ne_last_of_mem hb]
    · intro e he
      simp [Links.append, hNew he]
  · simp [Links.append, (h.holds n).last]
  · simp [Links.append, (h.holds n).last]
  · simp [Links.append, endAddr_append, endAddr]
  · simpa [Links.append, h.next_ne_last hd, next_eq_load] using hNext hn
  · simp [Links.append, h.ne_last hm hb]
  · simp [Links.append, hNew he]
  · simp [Links.append, hm]

/-- Appending an element leaves its own `next` cell alone. -/
theorem Represents.next_append (hd : ∀ m, d ∉ q m) : (L.append n d).next d = L.next d := by
  simp [next_eq_load, Links.append, h.next_ne_last hd]

end

@[simp] theorem load_unlink (L : Links N D) (n : N) (d : D) (b : Addr N D) :
    (L.unlink n d).load b = if b = L.prev d then L.next d else L.load b := by
  cases hNext : L.next d <;> simp [unlink, hNext]

@[simp] theorem prev_unlink (L : Links N D) (n : N) (d e : D) :
    (L.unlink n d).prev e = if L.next d = some e then L.prev d else L.prev e := by
  cases hNext : L.next d <;> simp [unlink, hNext, eq_comm]

@[simp] theorem last_unlink (L : Links N D) (m n : N) (d : D) :
    (L.unlink n d).last m = if L.next d = none ∧ m = n then L.prev d else L.last m := by
  cases hNext : L.next d <;> simp [unlink, hNext]

private theorem Holds.unlink {xs ys : List D} (h : L.Holds n (xs ++ d :: ys))
    (hNodup : (xs ++ d :: ys).Nodup) (hEnd : L.load (L.last n) = none) :
    (L.unlink n d).Holds n (xs ++ ys) ∧ (L.unlink n d).load ((L.unlink n d).last n) = none := by
  obtain ⟨hxs, hys, hDisjoint⟩ := nodup_append.mp hNodup
  obtain ⟨-, hys⟩ := nodup_cons.mp hys
  have hNext := h.next_eq_head? hEnd
  have hPrev := h.prev_eq
  obtain ⟨hBefore, -, -, hAfter⟩ := (linked_append ..).mp h.linked
  have hLast : L.last n = endAddr (.next d) ys := by
    rw [h.last, endAddr_append, endAddr]
  have hFront : (L.unlink n d).Linked (.data n) xs := by
    apply hBefore.congr
    · intro b hb
      have hNe : b ≠ L.prev d := by
        rw [hPrev]
        rintro rfl
        exact endAddr_notMem_cellsOf hxs (by simp) hb
      simp [hNe]
    · intro e he
      have hNe : L.next d ≠ some e := by
        rw [hNext]
        intro hHead
        exact hDisjoint e he e (by simp [mem_of_head? hHead]) rfl
      simp [hNe]
  cases ys with
  | nil =>
    refine ⟨⟨by simpa using hFront, ?_⟩, ?_⟩
    · simp [hNext, hPrev]
    · simp [hNext]
  | cons y ys =>
    obtain ⟨hyys, hys⟩ := nodup_cons.mp hys
    -- the freed cell is not one of those behind `y`
    have hNotAfter (e : D) (he : e ∈ y :: ys) : Addr.next e ≠ L.prev d :=
      hPrev ▸ next_ne_endAddr n fun hx => hDisjoint e hx e (mem_cons_of_mem d he) rfl
    refine ⟨⟨(linked_append ..).mpr ⟨hFront, ?_, ?_, ?_⟩, ?_⟩, ?_⟩
    · simp [hPrev, hNext]
    · simp [hPrev, hNext]
    · apply hAfter.2.2.congr
      · intro b hb
        obtain ⟨e, he, rfl⟩ := cellsOf_next hb
        simp [hNotAfter e he]
      · intro e he
        have hNe : y ≠ e := fun hEq => hyys (hEq ▸ he)
        simp [hNext, hNe]
    · simp [hNext, hLast, endAddr_append, endAddr]
    · have hNe : L.last n ≠ L.prev d := by
        obtain ⟨e, he, hc⟩ := endAddr_next y ys
        rw [hLast, endAddr, hc]
        exact hNotAfter e he
      simp [hNext, hNe, hEnd]

theorem Represents.unlink (h : L.Represents o q) (hn : o ≠ some n) (hd : d ∈ q n) :
    (L.unlink n d).Represents o (update q n ((q n).erase d)) := by
  have hOwns := (h.holds n).owns_prev hd
  have hOther {m : N} (hm : m ≠ n) {b : Addr N D} (hb : Owns m (q m) b) : b ≠ L.prev d :=
    fun hEq => hm (Owns.disjoint h.separate hb (hEq ▸ hOwns))
  obtain ⟨xs, ys, hSplit⟩ := append_of_mem hd
  have hNodup := hSplit ▸ h.separate.nodup n
  have hHolds := hSplit ▸ h.holds n
  have hEnd := h.terminated n hn
  have hErase : (q n).erase d = xs ++ ys := by
    have hdxs : d ∉ xs := fun hx => (nodup_append.mp hNodup).2.2 d hx d (by simp) rfl
    rw [hSplit, erase_append_right _ hdxs, erase_cons_head]
  obtain ⟨hHeld, hEnded⟩ := hHolds.unlink hNodup hEnd
  refine h.replace (fun _ _ => id) (h.separate.sublist erase_sublist) (hErase ▸ hHeld) (fun _ => hEnded)
    fun m hm => ⟨fun b hb => ?_, fun e he => ?_, ?_⟩
  · simp [hOther hm hb]
  · have hNe : L.next d ≠ some e := by
      rw [hHolds.next_eq_head? hEnd]
      intro hHead
      apply hm
      apply h.separate.disjoint m n e he
      simp [hSplit, mem_of_head? hHead]
    simp [hNe]
  · simp [hm]

/-- An element linked out still points at its former successor. -/
theorem Represents.next_unlink (h : L.Represents o q) (hd : d ∈ q n) :
    (L.unlink n d).next d = L.next d := by
  have hNe : Addr.next d ≠ L.prev d := by
    obtain ⟨xs, ys, hSplit⟩ := append_of_mem hd
    have hNodup := hSplit ▸ h.separate.nodup n
    rw [(hSplit ▸ h.holds n : L.Holds n _).prev_eq]
    exact next_ne_endAddr n fun hx => (nodup_append.mp hNodup).2.2 d hx d (by simp) rfl
  simp [next_eq_load, hNe]

@[simp] theorem load_pushFront (L : Links N D) (n : N) (d : D) (b : Addr N D) :
    (L.pushFront n d).load b =
      if b = .data n then some d else if b = .next d then L.data n else L.load b := by
  cases hData : L.data n <;> simp [pushFront, hData]

@[simp] theorem prev_pushFront (L : Links N D) (n : N) (d e : D) : (L.pushFront n d).prev e =
      if e = d then .data n else if L.data n = some e then .next d else L.prev e := by
  cases hData : L.data n <;> simp [pushFront, hData, eq_comm]

@[simp] theorem last_pushFront (L : Links N D) (m n : N) (d : D) :
    (L.pushFront n d).last m = if L.data n = none ∧ m = n then .next d else L.last m := by
  cases hData : L.data n <;> simp [pushFront, hData]

private theorem Holds.pushFront {ids : List D} (h : L.Holds n ids) (hNodup : ids.Nodup)
    (hEnd : L.load (L.last n) = none) (hd : d ∉ ids) :
    (L.pushFront n d).Holds n (d :: ids) ∧
      (L.pushFront n d).load ((L.pushFront n d).last n) = none := by
  have hData := h.data_eq_head? hEnd
  cases ids with
  | nil =>
    refine ⟨⟨⟨by simp, by simp, trivial⟩, ?_⟩, ?_⟩
    · simp [hData, endAddr]
    · simp [hData]
  | cons y ys =>
    have hNe {e : D} (he : e ∈ y :: ys) : e ≠ d := fun hEq => hd (hEq ▸ he)
    refine ⟨⟨⟨by simp, by simp, ?_, ?_, ?_⟩, ?_⟩, ?_⟩
    · simp [hData]
    · simp [hData, hNe _]
    · apply h.linked.2.2.congr
      · intro b hb
        obtain ⟨e, he, rfl⟩ := cellsOf_next hb
        simp [hNe he]
      · intro e he
        have hye : y ≠ e := fun hEq => (nodup_cons.mp hNodup).1 (hEq ▸ he)
        simp [hData, hNe (mem_cons_of_mem y he), hye]
    · simp [hData, h.last, endAddr]
    · obtain ⟨e, he, hc⟩ := endAddr_next y ys
      have hLast : L.last n = .next e := by
        rw [h.last, endAddr, hc]
      rw [hLast] at hEnd
      simp [hData, hLast, hNe he, hEnd]

theorem Represents.pushFront (h : L.Represents o q) (hn : o ≠ some n) (hd : ∀ m, d ∉ q m) :
    (L.pushFront n d).Represents o (update q n (d :: q n)) := by
  have hOther {m : N} (hm : m ≠ n) {b : Addr N D} (hb : Owns m (q m) b) :
      b ≠ .data n ∧ b ≠ .next d := by
    rcases hb with rfl | ⟨e, he, rfl⟩
    · simp [hm]
    · have hNe : e ≠ d := fun hEq => hd m (hEq ▸ he)
      simp [hNe]
  have hEnd := h.terminated n hn
  obtain ⟨hHeld, hEnded⟩ := (h.holds n).pushFront (h.separate.nodup n) hEnd (hd n)
  refine h.replace (fun _ _ => id) (h.separate.enter hd .rfl) hHeld (fun _ => hEnded)
    fun m hm => ⟨fun b hb => ?_, fun e he => ?_, ?_⟩
  · simp [hOther hm hb]
  · have hNe : e ≠ d := fun hEq => hd m (hEq ▸ he)
    have hHead : L.data n ≠ some e := by
      rw [(h.holds n).data_eq_head? hEnd]
      intro hHead
      exact hm (h.separate.disjoint m n e he (mem_of_head? hHead))
    simp [hNe, hHead]
  · simp [hm]

theorem Represents.pour {src dst : N} {first : D} {rest : List D} (h : L.Represents none q)
    (hNe : src ≠ dst) (hSrc : q src = first :: rest) :
    (L.pour src dst first).Represents (some src)
      (update (update q src []) dst (q dst ++ q src)) := by
  have hFrom := h.holds src
  have hTo := h.holds dst
  rw [hSrc] at hFrom
  have hNodup : (first :: rest).Nodup := hSrc ▸ h.separate.nodup src
  have hElement {m : N} (hm : m ≠ src) {e : D} (he : e ∈ q m) : e ≠ first :=
    fun hEq => hm (h.separate.disjoint m src e he (by simp [hSrc, hEq]))
  refine ⟨fun m => ?_, fun m hm => ?_, h.separate.move hNe
    (.of_eq (append_nil _))⟩
  · rcases eq_or_ne m dst with rfl | hm
    · rw [update_self, hSrc]
      refine ⟨(linked_append ..).mpr ⟨?_, ?_, ?_, ?_⟩, ?_⟩
      · apply hTo.linked.congr
        · intro b hb
          simp [Links.pour, h.ne_last_of_mem hb]
        · intro e he
          simp [Links.pour, hElement hNe.symm he]
      · simp [Links.pour, hTo.last]
      · simp [Links.pour, hTo.last]
      · apply hFrom.linked.2.2.congr
        · intro b hb
          have hb' : Owns src (q src) b := .inr (hSrc ▸ cellsOf_next hb)
          simp [Links.pour, h.ne_last hNe hb']
        · intro e he
          have hNe' : e ≠ first := fun hEq => (nodup_cons.mp hNodup).1 (hEq ▸ he)
          simp [Links.pour, hNe']
      · simp [Links.pour, hNe.symm, hFrom.last, endAddr_append, endAddr]
    · rw [update_of_ne hm]
      rcases eq_or_ne m src with rfl | hms
      · rw [update_self]
        exact ⟨trivial, by simp [Links.pour, endAddr]⟩
      · rw [update_of_ne hms]
        apply (h.holds m).congr
        · intro b hb
          simp [Links.pour, h.ne_last hm hb]
        · intro e he
          simp [Links.pour, hElement hms he]
        · simp [Links.pour, hm, hms]
  · have hms : m ≠ src := fun hEq => hm (hEq ▸ rfl)
    rcases eq_or_ne m dst with rfl | hmd
    · have hSrcLast := h.ne_last hNe (h.holds src).owns_last
      simpa [Links.pour, hms, hSrcLast] using h.terminated src (by simp)
    · simpa [Links.pour, hms, hmd, h.ne_last hmd (h.holds m).owns_last] using h.terminated m (by simp)

theorem Represents.terminate (h : L.Represents (some n) q) : (L.terminate n).Represents none q := by
  rw [← update_eq_self n q]
  refine h.replace (fun m hm _ => by simpa using hm.symm) (by rw [update_eq_self]; exact h.separate)
    ⟨(h.holds n).linked.congr ?_ ?_, ?_⟩ (fun _ => ?_) fun m hm => ⟨fun b hb => ?_, ?_, ?_⟩
  · intro b hb
    simp [Links.terminate, h.ne_last_of_mem hb]
  · simp [Links.terminate]
  · simpa [Links.terminate] using (h.holds n).last
  · simp [Links.terminate]
  · simp [Links.terminate, h.ne_last hm hb]
  · simp [Links.terminate]
  · simp [Links.terminate]

theorem Represents.clear (h : L.Represents o q) (n : N) :
    (L.clear n).Represents o (update q n []) := by
  refine h.replace (fun _ _ => id) (h.separate.sublist (nil_sublist _))
    ⟨trivial, by simp [Links.clear, endAddr]⟩ (fun _ => ?_) fun m hm => ⟨fun b hb => ?_, ?_, ?_⟩
  · simp [Links.clear]
  · have hNe : b ≠ .data n := by
      rcases hb with rfl | ⟨e, he, rfl⟩ <;> simp [hm]
    simp [Links.clear, hNe]
  · simp [Links.clear]
  · simp [Links.clear, hm]

/-- The `next` cell of an element in no queue may be overwritten. -/
theorem Represents.storeNext (h : L.Represents o q) (hd : ∀ m, d ∉ q m) (v : Option D) :
    (L.store (.next d) v).Represents o q := by
  have hCell {m : N} {b : Addr N D} (hb : Owns m (q m) b) : b ≠ .next d := by
    rintro rfl
    rcases hb with hc | ⟨e, he, hc⟩ <;> cases hc
    exact hd m he
  refine ⟨fun m => ?_, fun m hm => ?_, h.separate⟩
  · apply (h.holds m).congr
    · intro b hb
      simp [hCell hb]
    · simp
    · simp
  · simpa [hCell (h.holds m).owns_last] using h.terminated m hm

def appendLast (L : Links N D) (n : N) (d : D) : Links N D :=
  (((L.store (L.last n) (some d)).setPrev d (L.last n)).store (.next d) none).setLast n (.next d)

theorem appendLast_eq (L : Links N D) (n : N) (d : D) :
    L.appendLast n d = (L.append n d).terminate n := by
  simp [appendLast, append, terminate, store, setPrev, setLast]

theorem Represents.appendLast (h : L.Represents none q) (hd : ∀ m, d ∉ q m) :
    (L.appendLast n d).Represents none (update q n (q n ++ [d])) := by
  rw [appendLast_eq]
  exact ((h.open n).append hd (absurd rfl)).terminate

end Operations

/-! ### Walking a queue -/

/-- The elements from a pointer on, at most as many as the fuel says. -/
def walk (L : Links N D) : Nat → Option D → List D
  | 0, _ => []
  | _ + 1, none => []
  | fuel + 1, some d => d :: L.walk fuel (L.next d)

theorem Holds.walk_suffix (h : L.Holds n (xs ++ ys)) (hEnd : L.load (L.last n) = none) {fuel : Nat}
    (hFuel : ys.length ≤ fuel) : L.walk fuel ys.head? = ys := by
  induction ys generalizing xs fuel with
  | nil => cases fuel <;> rfl
  | cons y ys ih =>
    cases fuel with
    | zero => simp at hFuel
    | succ fuel =>
      have hTail : L.Holds n ((xs ++ [y]) ++ ys) := by simpa using h
      have hRest := ih hTail (by simpa using hFuel)
      simp only [head?_cons, walk, h.next_eq_head? hEnd, hRest]

theorem Represents.data_eq_head? (h : L.Represents none q) (n : N) : L.data n = (q n).head? :=
  (h.holds n).data_eq_head? (h.terminated n (by simp))

theorem Represents.walk_eq (h : L.Represents none q) {fuel : Nat} (hFuel : (q n).length ≤ fuel) :
    L.walk fuel (L.data n) = q n := by
  have hHolds : L.Holds n ([] ++ q n) := h.holds n
  rw [h.data_eq_head?]
  exact hHolds.walk_suffix (h.terminated n (by simp)) hFuel

end Links
end Library
