import MySQL.Library.System
import MySQL.Mysys.TreeCalls

/-! Runs of a tree. The state has the tree, for each key how often it was inserted since
it was last absent, and the addresses that `my_malloc` gave and that are in use. -/
namespace MySQL.Trees

open List Library RedBlack RedBlack.Tree

variable {κ : Type}

structure State (κ : Type) where
  tree : Tree κ
  inserts : κ → Nat
  used : List Nat

/-- One call; an insert has the answer of `my_malloc` in case it is called. -/
inductive Call (κ : Type) where
  | insert (key : κ) (address : Nat)
  | delete (key : κ)

/-- An insert of a key that is absent counts if there is memory, one of a key that is
present unless duplicates are refused. -/
def inserted (compare : κ → κ → BitVec 32) (s : State κ) (key : κ) (address : Nat) : κ → Nat :=
  if (if s.inserts key = 0 then address = 0 else s.tree.noDups = true) then s.inserts
  else fun k => if (compare k key).toInt = 0 then s.inserts k + 1 else s.inserts k

def deleted (compare : κ → κ → BitVec 32) (s : State κ) (key : κ) : κ → Nat :=
  fun k => if (compare k key).toInt = 0 then 0 else s.inserts k

def system (compare : κ → κ → BitVec 32) : System (State κ) (Call κ) where
  step s
    | .insert key address =>
      if address ∈ s.used then none
      else
        (treeInsert compare s.tree key address).map fun (_, tree) =>
          ⟨tree, inserted compare s key address,
            if s.inserts key = 0 ∧ address ≠ 0 then address :: s.used else s.used⟩
    | .delete key =>
      match treeSearch compare s.tree key, treeDelete compare s.tree key with
      | some element, some (_, tree) =>
        some ⟨tree, deleted compare s key, s.used.filter fun p => some p ≠ element⟩
      | _, _ => none

def start (cells : Nat → Cell (Element κ)) (noDups : Bool) : State κ :=
  ⟨initTree cells noDups, fun _ => 0, []⟩

structure State.Valid (compare : κ → κ → BitVec 32) (s : State κ)
    (entries : List (Nat × Element κ)) : Prop where
  has : s.tree.Has entries
  ordered : Ordered compare entries
  used : ∀ p, p ∈ s.used ↔ p ∈ entries.map Prod.fst
  counts : ∀ e ∈ entries, ∀ key, (compare e.2.key key).toInt = 0 →
    0 < s.inserts key ∧ e.2.count = min (s.inserts key) maxCount
  absent : ∀ key, (∀ e ∈ entries, (compare e.2.key key).toInt ≠ 0) → s.inserts key = 0

section
variable {compare : κ → κ → BitVec 32} (hOrder : SignPreorder compare)
include hOrder

/-- An entry that is not equal to a key is not equal to the keys equal to it. -/
theorem ne_of_equal {e key key' : κ} (hNe : (compare e key).toInt ≠ 0)
    (hEqual : (compare e key').toInt = 0) : (compare key' key).toInt ≠ 0 :=
  fun hZero => hNe (hOrder.zero_trans _ _ _ hEqual hZero)

end

theorem nextCount_min (n : Nat) : nextCount (min n maxCount) = min (n + 1) maxCount := by
  have hMax : maxCount = 2 ^ 31 - 1 := rfl
  simp only [nextCount]
  by_cases hFull : n < maxCount
  · rw [if_neg (by omega)]
    omega
  · rw [if_pos (by omega)]
    omega

section
variable {compare : κ → κ → BitVec 32} (hOrder : SignPreorder compare) {s : State κ}
  {left right : List (Nat × Element κ)} {key : κ} {tree : Tree κ} {address : Nat}
include hOrder

/-- The counts after a key was inserted that was absent. -/
theorem State.Valid.insertAbsent (h : s.Valid compare (left ++ right))
    (hBetween : Between (fun k => compare k key) left right) (hAddress : address ≠ 0)
    (hHas : tree.Has (left ++ (address, ⟨1, key⟩) :: right)) :
    State.Valid compare ⟨tree, inserted compare s key address, address :: s.used⟩
      (left ++ (address, ⟨1, key⟩) :: right) := by
  have hAbsent := hBetween.ne
  have hZero : s.inserts key = 0 := h.absent key hAbsent
  have hInserted : inserted compare s key address =
      fun k => if (compare k key).toInt = 0 then s.inserts k + 1 else s.inserts k := by
    simp [inserted, hZero, hAddress]
  refine ⟨hHas, h.ordered.insert hOrder hBetween, fun p => ?_, ?_, ?_⟩
  · rw [mem_cons, h.used p, (perm_middle.map _).mem_iff, map_cons, mem_cons]
  · intro e he key' hEqual
    rw [hInserted]
    simp only
    rcases mem_cons.mp (perm_middle.mem_iff.mp he) with rfl | hOld
    · have hSame : (compare key' key).toInt = 0 := (hOrder.zero_iff _ _).mp hEqual
      have hNone : s.inserts key' = 0 := h.absent key' fun e he hZero' =>
        hAbsent e he (hOrder.zero_trans _ _ _ hZero' hSame)
      simp [hSame, hNone, maxCount]
    · rw [if_neg (ne_of_equal hOrder (hAbsent e hOld) hEqual)]
      exact h.counts e hOld key' hEqual
  · intro key' hNone
    have hNe : (compare key' key).toInt ≠ 0 := by
      rw [Ne, hOrder.zero_iff]
      exact hNone (address, ⟨1, key⟩) (by simp)
    rw [hInserted]
    simp only [hNe, if_false]
    exact h.absent key' fun e he => hNone e (perm_middle.mem_iff.mpr (mem_cons_of_mem _ he))

/-- The counts after a key was inserted that was present. -/
theorem State.Valid.insertPresent {x : Nat × Element κ} (address : Nat)
    (h : s.Valid compare (left ++ x :: right))
    (hBetween : Between (fun k => compare k key) left right)
    (hEqual : (compare x.2.key key).toInt = 0) (hDups : s.tree.noDups = false)
    (hHas : tree.Has (left ++ (x.1, { x.2 with count := nextCount x.2.count }) :: right)) :
    State.Valid compare ⟨tree, inserted compare s key address, s.used⟩
      (left ++ (x.1, { x.2 with count := nextCount x.2.count }) :: right) := by
  set y : Nat × Element κ := (x.1, { x.2 with count := nextCount x.2.count }) with hy
  have hKey : y.2.key = x.2.key := rfl
  have hMem : x ∈ left ++ x :: right := by simp
  have hPos := (h.counts x hMem key hEqual).1
  have hInserted : inserted compare s key address =
      fun k => if (compare k key).toInt = 0 then s.inserts k + 1 else s.inserts k := by
    simp [inserted, hPos.ne', hDups]
  refine ⟨hHas, ?_, fun p => ?_, ?_, ?_⟩
  · have hKeys : (left ++ y :: right).map (fun e => e.2.key) =
        (left ++ x :: right).map fun e => e.2.key := by
      simp [hKey]
    rw [Ordered, hKeys]
    exact h.ordered
  · simp only [h.used p, map_append, map_cons, hy]
  · intro e he key' hEqual'
    rw [hInserted]
    simp only
    rcases mem_cons.mp (perm_middle.mem_iff.mp he) with rfl | hOld
    · have hSame : (compare key' key).toInt = 0 :=
        hOrder.zero_trans _ _ _ ((hOrder.zero_iff _ _).mp hEqual') hEqual
      have hCount := (h.counts x hMem key' hEqual').2
      rw [if_pos hSame]
      exact ⟨Nat.succ_pos _, (congrArg nextCount hCount).trans (nextCount_min _)⟩
    · rw [if_neg (ne_of_equal hOrder (hBetween.ne e hOld) hEqual')]
      exact h.counts e (perm_middle.mem_iff.mpr (mem_cons_of_mem _ hOld)) key' hEqual'
  · intro key' hNone
    have hNe : (compare key' key).toInt ≠ 0 := fun hSame => hNone y (by simp)
      (hOrder.zero_trans _ _ _ hEqual ((hOrder.zero_iff _ _).mp hSame))
    rw [hInserted]
    simp only [hNe, if_false]
    refine h.absent key' fun e he => ?_
    rcases mem_cons.mp (perm_middle.mem_iff.mp he) with rfl | hOld
    · exact hNone y (by simp)
    · exact hNone e (perm_middle.mem_iff.mpr (mem_cons_of_mem _ hOld))

/-- The counts after a key was deleted. -/
theorem State.Valid.delete {x : Nat × Element κ} (h : s.Valid compare (left ++ x :: right))
    (hBetween : Between (fun k => compare k key) left right)
    (hEqual : (compare x.2.key key).toInt = 0) (hHas : tree.Has (left ++ right)) :
    State.Valid compare
      ⟨tree, deleted compare s key, s.used.filter fun p => some p ≠ some x.1⟩ (left ++ right) := by
  refine ⟨hHas, ?_, fun p => ?_, ?_, ?_⟩
  · exact h.ordered.sublist ((Sublist.append_left (sublist_cons_self ..) _).map _)
  · have hNodup := h.has.nodup
    simp only [mem_filter, h.used p, map_append, map_cons, mem_append,
      mem_cons, nodup_append, nodup_cons] at hNodup ⊢
    grind only
  · intro e he key' hEqual'
    simp only [deleted]
    rw [if_neg (ne_of_equal hOrder (hBetween.ne e he) hEqual')]
    exact h.counts e (perm_middle.mem_iff.mpr (mem_cons_of_mem _ he)) key' hEqual'
  · intro key' hNone
    simp only [deleted]
    by_cases hSame : (compare key' key).toInt = 0
    · rw [if_pos hSame]
    · rw [if_neg hSame]
      refine h.absent key' fun e he => ?_
      rcases mem_cons.mp (perm_middle.mem_iff.mp he) with rfl | hOld
      · exact fun hZero => hSame (hOrder.zero_trans _ _ _ ((hOrder.zero_iff _ _).mp hZero) hEqual)
      · exact hNone e hOld

theorem insert_valid {entries : List (Nat × Element κ)} (h : s.Valid compare entries) (key : κ)
    (hFresh : address ∉ s.used) :
    ∃ t entries', (system compare).step s (.insert key address) = some t ∧
      t.Valid compare entries' := by
  have hFresh' : address ∉ entries.map Prod.fst := fun hMem => hFresh ((h.used address).mpr hMem)
  obtain ⟨ctx, u, hLocated⟩ := h.has.located (h.ordered.splits hOrder key)
  rcases hLocated.cases with ⟨rfl, rfl⟩ | ⟨c, x, l, r, rfl, hx, hZero, rfl, hBetween⟩
  · have hAbsent : s.inserts key = 0 := h.absent key hLocated.between.ne
    obtain ⟨hNone, hSome⟩ := treeInsert_absent h.has hLocated hFresh'
    by_cases hAddress : address = 0
    · subst hAddress
      have hSame : inserted compare s key 0 = s.inserts := by simp [inserted, hAbsent]
      refine ⟨s, _, ?_, h⟩
      simp [system, hFresh, hNone rfl, hSame]
    · obtain ⟨t', hInsert, -, hHas⟩ := hSome hAddress
      refine ⟨_, _, ?_, h.insertAbsent hOrder hLocated.between hAddress hHas⟩
      simp [system, hFresh, hInsert, hAbsent, hAddress]
  · have hPos : s.inserts key ≠ 0 := (h.counts x (by simp) key hZero).1.ne'
    obtain ⟨hRefused, hCounted⟩ := treeInsert_present address h.has hx hLocated
    cases hDups : s.tree.noDups with
    | true =>
      have hSame : inserted compare s key address = s.inserts := by simp [inserted, hPos, hDups]
      refine ⟨s, _, ?_, h⟩
      simp [system, hFresh, hRefused hDups, hSame, hPos]
    | false =>
      obtain ⟨t', hInsert, -, hHas⟩ := hCounted hDups
      refine ⟨_, _, ?_, h.insertPresent hOrder address hBetween hZero hDups hHas⟩
      simp [system, hFresh, hInsert, hPos]

theorem delete_valid {entries : List (Nat × Element κ)} (h : s.Valid compare entries) (key : κ) :
    ∃ t entries', (system compare).step s (.delete key) = some t ∧ t.Valid compare entries' := by
  obtain ⟨ctx, u, hLocated⟩ := h.has.located (h.ordered.splits hOrder key)
  rcases hLocated.cases with ⟨rfl, rfl⟩ | ⟨c, x, l, r, rfl, hx, hZero, rfl, hBetween⟩
  · have hSearch : treeSearch compare s.tree key = some none := by
      simp [treeSearch, hLocated.descend_eq, addr]
    have hSame : deleted compare s key = s.inserts := by
      funext k
      refine ite_eq_right_iff.mpr fun hEqual => (h.absent k fun e he hk => ?_).symm
      exact hLocated.between.ne e he (hOrder.zero_trans _ _ _ hk hEqual)
    refine ⟨s, _, ?_, h⟩
    simp [system, hSearch, treeDelete_absent hLocated, hSame]
  · have hSearch : treeSearch compare s.tree key = some (some x.1) := by
      simp [treeSearch, hLocated.descend_eq, addr, hx]
    obtain ⟨t', hDelete, hHas⟩ := treeDelete_present h.has hx hLocated
    refine ⟨_, _, ?_, h.delete hOrder hBetween hZero hHas⟩
    simp [system, hSearch, hDelete]

theorem valid_of_reachable {cells : Nat → Cell (Element κ)} {noDups : Bool}
    (run : (system compare).Reachable (start cells noDups) s) :
    ∃ entries, s.Valid compare entries := by
  refine run.invariant (fun s => ∃ entries, s.Valid compare entries) ⟨[], ?_⟩ ?_
  · refine ⟨⟨⟨.nil, ⟨rfl, trivial, by simp [addrs, entries], by simp [addrs, entries], ?_⟩, rfl,
      ⟨0, .nil⟩, rfl⟩, rfl⟩, Pairwise.nil, by simp [start], by simp, fun _ _ => rfl⟩
    simp [start, initTree, Links.colour]
  · rintro a call b ⟨entries, ha⟩ - hStep
    have hNext : ∃ t entries', (system compare).step a call = some t ∧ t.Valid compare entries' := by
      cases call with
      | insert key address =>
        refine insert_valid hOrder ha key fun hMem => ?_
        simp [system, hMem] at hStep
      | delete key => exact delete_valid hOrder ha key
    obtain ⟨t, entries', hEq, ht⟩ := hNext
    rw [hStep] at hEq
    exact ⟨entries', Option.some.inj hEq ▸ ht⟩

/-- In every run the memory holds a red-black search tree with pairwise inequivalent keys.
Its size and its counts are right, `tree_search` finds exactly the keys that were inserted
and not deleted since, and every further call returns. -/
theorem searchTree_of_reachable {cells : Nat → Cell (Element κ)} {noDups : Bool}
    (run : (system compare).Reachable (start cells noDups) s) :
    (∃ tr, Linked s.tree.links tr ∧ Ordered compare tr.entries ∧ (∃ n : Nat, Balanced tr n ∧
        testRbTree s.tree.links (s.tree.elementsInTree + 1) s.tree.links.root = some (n : Int)) ∧
      s.tree.links.colour s.tree.links.root = .black ∧
      s.tree.elementsInTree = tr.entries.length ∧
      (∀ e ∈ tr.entries, e.2.count = min (s.inserts e.2.key) maxCount) ∧
      ∀ key, (s.inserts key = 0 ∧ treeSearch compare s.tree key = some none ∧
          ∀ e ∈ tr.entries, (compare e.2.key key).toInt ≠ 0) ∨
        0 < s.inserts key ∧ ∃ e ∈ tr.entries,
          treeSearch compare s.tree key = some (some e.1) ∧ (compare e.2.key key).toInt = 0) ∧
    (∀ key address, address ∉ s.used → ((system compare).step s (.insert key address)).isSome) ∧
    ∀ key, ((system compare).step s (.delete key)).isSome := by
  obtain ⟨entries, h⟩ := valid_of_reachable hOrder run
  refine ⟨?_, fun key address hFresh => ?_, fun key => ?_⟩
  · obtain ⟨tr, hLinked, rfl, ⟨n, hBalanced⟩, hBlack⟩ := h.has.holds
    refine ⟨tr, hLinked, h.ordered, ⟨n, hBalanced, ?_⟩, ?_, h.has.size, fun e he => ?_,
      fun key => ?_⟩
    · rw [hLinked.root, h.has.size]
      exact testRbTree_spec (show Linked s.tree.links (plug [] tr) from hLinked) hBalanced (Nat.lt_succ_self _)
    · rw [hLinked.root]
      exact (Linked.colour (show Linked s.tree.links (plug [] tr) from hLinked)).trans hBlack
    · exact (h.counts e he e.2.key (hOrder.self _)).2
    · rcases treeSearch_spec h.has (h.ordered.splits hOrder key) with
        ⟨hSearch, hNone⟩ | ⟨x, hx, hSearch, hZero⟩
      · exact .inl ⟨h.absent key hNone, hSearch, hNone⟩
      · exact .inr ⟨(h.counts x hx key hZero).1, x, hx, hSearch, hZero⟩
  · obtain ⟨t, -, hStep, -⟩ := insert_valid hOrder h key hFresh
    rw [hStep]
    rfl
  · obtain ⟨t, -, hStep, -⟩ := delete_valid hOrder h key
    rw [hStep]
    rfl

end

theorem searchTree_insert_insert_delete :
    let compare (a b : Fin 3) : BitVec 32 := BitVec.ofInt 32 ((a : Int) - (b : Int))
    ∃ s, (system compare).exec (start (fun _ => ⟨0, 0, .red, ⟨0, 0⟩⟩) false)
        [.insert 1 10, .insert 0 20, .insert 2 30, .insert 0 40, .delete 1] = some s ∧
      ∃ tr, Linked s.tree.links tr ∧ Ordered compare tr.entries := by
  intro compare
  have hOrder : SignPreorder compare := ⟨by decide, by decide⟩
  apply System.exists_exec (by decide)
  intro s hExec
  obtain ⟨⟨tr, hLinked, hOrdered, -⟩, -⟩ :=
    searchTree_of_reachable hOrder (System.reachable_of_exec hExec)
  exact ⟨tr, hLinked, hOrdered⟩

def maxTreeHeight : Nat := 64

theorem locs_length {ctx : List (Frame (Nat × Element κ))} : (locs ctx).length = ctx.length + 1 := by
  induction ctx with
  | nil => rfl
  | cons f rest ih => simpa [locs] using ih

theorem Vacated.fits {c : Colour} {ctx : List (Frame (Nat × Element κ))}
    {t : RedBlack.Tree (Nat × Element κ)} (h : Vacated c ctx t) : ∃ n, Fits ctx n := by
  cases c with
  | red =>
    obtain ⟨n, hFits, -⟩ := h
    exact ⟨n, hFits⟩
  | black =>
    obtain ⟨n, hFits, -⟩ := h
    exact ⟨n + 1, hFits⟩

theorem locs_length_lt {ctx : List (Frame (Nat × Element κ))} {n : Nat} (h : Fits ctx n)
    (hSize : around ctx + 1 < 2 ^ 32) : (locs ctx).length < maxTreeHeight := by
  have hLog := Nat.log_lt_of_lt_pow (show around ctx + 1 ≠ 0 by omega) hSize
  have hLength := h.length_le_log
  rw [locs_length, maxTreeHeight]
  omega

/-- In every tree with less than `2 ^ 32 - 1` elements the pointers that an insert or a delete
collects leave room in `tree->parents`. The last cell is for the one that `rb_delete_fixup` may add. -/
theorem parents_fit_of_reachable {compare : κ → κ → BitVec 32} (hOrder : SignPreorder compare)
    {cells : Nat → Cell (Element κ)} {noDups : Bool} {s : State κ}
    (run : (system compare).Reachable (start cells noDups) s)
    (hSize : s.tree.elementsInTree + 1 < 2 ^ 32) (key : κ) :
    ∃ element parents, descend (fun k => compare k key) s.tree.links (s.tree.elementsInTree + 1)
        s.tree.links.root [.root] = some (element, parents) ∧ parents.length < maxTreeHeight ∧
      (element ≠ 0 → ∃ m colour parents', unlinkElement s.tree.links s.tree.elementsInTree element
        parents = some (m, colour, parents') ∧ parents'.length < maxTreeHeight) := by
  obtain ⟨entries, h⟩ := valid_of_reachable hOrder run
  obtain ⟨ctx, u, hLocated⟩ := h.has.located (h.ordered.splits hOrder key)
  have hEntries := h.has.size
  rw [← hLocated.entries_eq, entries_plug] at hEntries
  simp only [length_append] at hEntries
  obtain ⟨n, hFits, -⟩ := hLocated.placed
  refine ⟨_, _, hLocated.descend_eq, locs_length_lt hFits (by rw [around]; omega), ?_⟩
  rcases hLocated.cases with ⟨rfl, -⟩ | ⟨c, x, l, r, rfl, -⟩
  · exact fun hNonzero => absurd rfl hNonzero
  · intro _
    simp only [Tree.entries, length_append, length_cons] at hEntries
    have hFuel : r.entries.length ≤ s.tree.elementsInTree := by omega
    obtain ⟨m, removed, ctx', t', hUnlink, hUnlinked⟩ := unlinkElement_spec hLocated.linked hFuel
    obtain ⟨n', hFits'⟩ := (hUnlinked.vacated hLocated.placed).fits
    have hAfter := congrArg List.length hUnlinked.entries_eq
    rw [entries_plug] at hAfter
    simp only [length_append] at hAfter
    exact ⟨m, removed, _, hUnlink, locs_length_lt hFits' (by rw [around]; omega)⟩

theorem parents_fit_insert_insert_delete :
    let compare (a b : Fin 3) : BitVec 32 := BitVec.ofInt 32 ((a : Int) - (b : Int))
    ∃ s, (system compare).exec (start (fun _ => ⟨0, 0, .red, ⟨0, 0⟩⟩) false)
        [.insert 1 10, .insert 0 20, .insert 2 30, .delete 0] = some s ∧
      ∃ element parents, descend (fun k => compare k 1) s.tree.links (s.tree.elementsInTree + 1)
        s.tree.links.root [.root] = some (element, parents) ∧ parents.length < maxTreeHeight := by
  intro compare
  have hOrder : SignPreorder compare := ⟨by decide, by decide⟩
  have hTwo : ((system compare).exec (start (fun _ => ⟨0, 0, .red, ⟨0, 0⟩⟩) false)
      [.insert 1 10, .insert 0 20, .insert 2 30, .delete 0]).map (·.tree.elementsInTree) = some 2 := by
    decide
  apply System.exists_exec (by decide)
  intro s hExec
  rw [hExec, Option.map_some, Option.some.injEq] at hTwo
  obtain ⟨element, parents, hDescend, hLength, -⟩ :=
    parents_fit_of_reachable hOrder (System.reachable_of_exec hExec) (by rw [hTwo]; decide) 1
  exact ⟨element, parents, hDescend, hLength⟩

end MySQL.Trees
