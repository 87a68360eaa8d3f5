import MySQL.Mysys.TreeSearch

/-! What each call does to the entries of a tree. -/
namespace MySQL.Trees

open Library RedBlack RedBlack.Tree

variable {κ : Type}

/-- The tree holds these entries in order, and counts them. -/
structure Tree.Has (t : Tree κ) (entries : List (Nat × Element κ)) : Prop where
  holds : Holds t.links entries
  size : t.elementsInTree = entries.length

/-- The way down for a key ends at the node that has it, or at the place where it belongs. -/
structure Located (cmp : κ → BitVec 32) (t : Tree κ) (entries : List (Nat × Element κ))
    (ctx : List (Frame (Nat × Element κ))) (u : RedBlack.Tree (Nat × Element κ)) : Prop where
  linked : Linked t.links (plug ctx u)
  placed : Placed ctx u
  entries_eq : (plug ctx u).entries = entries
  descend_eq : descend cmp t.links (t.elementsInTree + 1) t.links.root [.root] =
    some (u.addr, locs ctx)
  between : Between cmp (before ctx) (after ctx)
  equal : ∀ c x l r, u = .node c x l r →
    (cmp x.2.key).toInt = 0 ∧ Between cmp l.entries r.entries

section
variable {t : Tree κ} {entries : List (Nat × Element κ)} {cmp : κ → BitVec 32}

theorem Tree.Has.nodup (h : t.Has entries) : (entries.map Prod.fst).Nodup := by
  obtain ⟨tr, hLinked, rfl, -⟩ := h.holds
  exact hLinked.nodup

theorem Tree.Has.located (h : t.Has entries) (hSplits : Splits cmp entries) :
    ∃ ctx u, Located cmp t entries ctx u := by
  obtain ⟨tr, hLinked, rfl, ⟨n, hBalanced⟩, hBlack⟩ := h.holds
  have hFuel : tr.entries.length < t.elementsInTree + 1 := by
    rw [h.size]
    omega
  obtain ⟨ctx, u, hPlug, hDescend, hBetween, hEqual⟩ := descend_spec
    (show Linked t.links (plug [] tr) from hLinked) hSplits ⟨by simp [before], by simp [after]⟩ hFuel
  rw [plug] at hPlug
  have hPlaced : Placed ctx u := Balanced.placed (hPlug ▸ hBalanced) (hPlug ▸ hBlack)
  rw [← hPlug] at hLinked
  refine ⟨ctx, u, hLinked, hPlaced, by rw [hPlug], ?_, hBetween, hEqual⟩
  rw [hLinked.root, hPlug]
  exact hDescend

variable {ctx : List (Frame (Nat × Element κ))}

/-- Cases on the answer of a search. -/
theorem Located.cases {u : RedBlack.Tree (Nat × Element κ)} (h : Located cmp t entries ctx u) :
    (u = .nil ∧ entries = before ctx ++ after ctx) ∨
      ∃ c x l r, u = .node c x l r ∧ x.1 ≠ 0 ∧ (cmp x.2.key).toInt = 0 ∧
        entries = (before ctx ++ l.entries) ++ x :: (r.entries ++ after ctx) ∧
        Between cmp (before ctx ++ l.entries) (r.entries ++ after ctx) := by
  cases u with
  | nil =>
    refine .inl ⟨rfl, ?_⟩
    rw [← h.entries_eq, entries_plug, Tree.entries, List.append_nil]
  | node c x l r =>
    obtain ⟨hZero, hBetween⟩ := h.equal c x l r rfl
    refine .inr ⟨c, x, l, r, rfl, ?_, hZero, ?_, ?_, ?_⟩
    · intro hEq
      have hNil := h.linked.addr_eq_zero.mp hEq
      cases hNil
    · rw [← h.entries_eq, entries_plug]
      simp [Tree.entries]
    · intro e he
      exact (List.mem_append.mp he).elim (h.between.left e) (hBetween.left e)
    · intro e he
      exact (List.mem_append.mp he).elim (hBetween.right e) (h.between.right e)

variable {compare : κ → κ → BitVec 32} {key : κ}

theorem treeSearch_spec (h : t.Has entries) (hSplits : Splits (fun k => compare k key) entries) :
    (treeSearch compare t key = some none ∧ ∀ e ∈ entries, (compare e.2.key key).toInt ≠ 0) ∨
      ∃ x ∈ entries, treeSearch compare t key = some (some x.1) ∧
        (compare x.2.key key).toInt = 0 := by
  obtain ⟨ctx, u, hLocated⟩ := h.located hSplits
  rcases hLocated.cases with ⟨rfl, hEntries⟩ | ⟨c, x, l, r, rfl, hx, hZero, hEntries, hBetween⟩
  · refine .inl ⟨by simp [treeSearch, hLocated.descend_eq, addr], fun e he => ?_⟩
    rw [hEntries, List.mem_append] at he
    rcases he with he | he
    · exact (hLocated.between.left e he).ne
    · exact (hLocated.between.right e he).ne'
  · refine .inr ⟨x, by simp [hEntries], ?_, hZero⟩
    simp [treeSearch, hLocated.descend_eq, addr, hx]

/-- A new element takes the empty place. -/
theorem Located.insertAt {address : Nat} (h : Located cmp t entries ctx .nil)
    (hAddress : address ≠ 0) (hFresh : address ∉ entries.map Prod.fst) (cell : Colour)
    (e : Element κ) : Linked ((t.links.set (locOf ctx) address).setCell address ⟨0, 0, cell, e⟩)
      (plug ctx (.node cell (address, e) .nil .nil)) := by
  obtain ⟨-, -, hNodup, hPos, -⟩ := linked_plug.mp h.linked
  have hCtx : address ∉ ctxAddrs ctx := by
    rw [← h.entries_eq] at hFresh
    exact fun hMem => hFresh ((perm_addrs_plug ctx .nil).mem_iff.mpr (List.mem_append_right _ hMem))
  refine h.linked.replace rfl (fun j hj => ?_) ⟨?_, trivial, trivial⟩ ?_ ?_
  · refine Links.setCell_cells_of_ne _ (fun hEq : j = address => hj ?_) _
    simp [addrs, Tree.entries, hEq]
  · exact Links.setCell_cells_self ..
  · simpa [addrs, Tree.entries, hCtx] using hNodup
  · simpa [addrs, Tree.entries] using hAddress.symm

/-- `tree_insert` of a key that is not in the tree. -/
theorem treeInsert_absent {address : Nat} (h : t.Has entries)
    (hLocated : Located (fun k => compare k key) t entries ctx .nil)
    (hFresh : address ∉ entries.map Prod.fst) :
    (address = 0 → treeInsert compare t key address = some (none, t)) ∧
      (address ≠ 0 → ∃ t', treeInsert compare t key address = some (some address, t') ∧
        t'.noDups = t.noDups ∧ t'.Has (before ctx ++ (address, ⟨1, key⟩) :: after ctx)) := by
  constructor
  · intro hZero
    simp [treeInsert, hLocated.descend_eq, addr, hZero]
  · intro hAddress
    obtain ⟨above, hLocs⟩ := locs_eq ctx
    obtain ⟨n, hFits, hNil, -, -⟩ := hLocated.placed
    obtain rfl : n = 0 := by
      cases hNil
      rfl
    have hLinked := hLocated.insertAt hAddress hFresh
      ((t.links.set (locOf ctx) address).cells address).colour ⟨1, key⟩
    obtain ⟨m', hInsert, hHolds⟩ := rbInsert_spec hLinked hFits
    have hEntries := entries_plug ctx (.node
      ((t.links.set (locOf ctx) address).cells address).colour (address, ⟨1, key⟩) .nil .nil)
    rw [hEntries] at hHolds
    refine ⟨{ t with links := m', elementsInTree := t.elementsInTree + 1 }, ?_, rfl, ?_, ?_⟩
    · rw [hLocs] at hInsert
      simp [treeInsert, hLocated.descend_eq, addr, hAddress, hLocs, hInsert]
    · simpa [Tree.entries] using hHolds
    · have hSize := h.size
      rw [← hLocated.entries_eq, entries_plug] at hSize
      simp only [Tree.entries, List.append_nil, List.length_append] at hSize
      simp only [hSize, List.length_append, List.length_cons]
      omega

variable {c : Colour} {x : Nat × Element κ} {l r : RedBlack.Tree (Nat × Element κ)}

/-- A node's entry does not matter for the balance. -/
theorem holds_entry {m : Links (Element κ)} {y : Nat × Element κ}
    (hPlaced : Placed ctx (.node c x l r)) (hLinked : Linked m (plug ctx (.node c y l r))) :
    Holds m (plug ctx (.node c y l r)).entries := by
  obtain ⟨n, hFits, hNode, hRed, hRoot⟩ := hPlaced
  have hNode' : Balanced (.node c y l r) n := by
    cases hNode with
    | black hl hr => exact .black hl hr
    | red hl hr hlc hrc => exact .red hl hr hlc hrc
  obtain ⟨k, hBalanced, hBlack⟩ := hNode'.plug hFits hRed hRoot
  exact ⟨_, hLinked, rfl, ⟨k, hBalanced⟩, hBlack⟩

/-- `tree_insert` of a key that is in the tree. -/
theorem treeInsert_present (address : Nat) (h : t.Has entries) (hx : x.1 ≠ 0)
    (hLocated : Located (fun k => compare k key) t entries ctx (.node c x l r)) :
    (t.noDups = true → treeInsert compare t key address = some (none, t)) ∧
      (t.noDups = false → ∃ t', treeInsert compare t key address = some (some x.1, t') ∧
        t'.noDups = t.noDups ∧
        t'.Has ((before ctx ++ l.entries) ++ (x.1, { x.2 with count := nextCount x.2.count }) ::
          (r.entries ++ after ctx))) := by
  constructor
  · intro hNoDups
    simp [treeInsert, hLocated.descend_eq, addr, hx, hNoDups]
  · intro hDups
    obtain ⟨-, hCell, -⟩ := hLocated.linked.node
    set e := { x.2 with count := nextCount x.2.count } with he
    have hHolds := holds_entry hLocated.placed (hLocated.linked.setCell _ e)
    have hSize := h.size
    rw [← hLocated.entries_eq] at hSize
    rw [entries_plug, Tree.entries] at hHolds hSize
    refine ⟨{ t with links := t.links.setCell x.1 { t.links.cells x.1 with data := e } }, ?_, rfl,
      by simpa [hCell] using hHolds, by simpa using hSize⟩
    simp [treeInsert, hLocated.descend_eq, addr, hx, hDups, hCell, he]

theorem treeDelete_absent (hLocated : Located (fun k => compare k key) t entries ctx .nil) :
    treeDelete compare t key = some (true, t) := by
  simp [treeDelete, hLocated.descend_eq, addr]

/-- `tree_delete` of a key that is in the tree. -/
theorem treeDelete_present (h : t.Has entries) (hx : x.1 ≠ 0)
    (hLocated : Located (fun k => compare k key) t entries ctx (.node c x l r)) :
    ∃ t', treeDelete compare t key = some (false, t') ∧
      t'.Has ((before ctx ++ l.entries) ++ (r.entries ++ after ctx)) := by
  have hSize := h.size
  rw [← hLocated.entries_eq, entries_plug, Tree.entries] at hSize
  simp only [List.length_append, List.length_cons] at hSize
  have hFuel : r.entries.length ≤ t.elementsInTree := by omega
  obtain ⟨m', removed, ctx', t', hUnlink, hUnlinked⟩ := unlinkElement_spec hLocated.linked hFuel
  have hVacated := hUnlinked.vacated hLocated.placed
  have hEntries : (plug ctx' t').entries = (before ctx ++ l.entries) ++ (r.entries ++ after ctx) := by
    rw [hUnlinked.entries_eq]
    simp
  have hFixed : ∃ m'', (if removed = .black then rbDeleteFixup m' (locs ctx') else some m') =
      some m'' ∧ Holds m'' (plug ctx' t').entries := by
    cases removed with
    | red =>
      obtain ⟨n, hFits, ht, hBlack⟩ := hVacated
      obtain ⟨k, hBalanced, hRoot⟩ := ht.plug hFits (by simp [hBlack]) fun _ => hBlack
      exact ⟨m', rfl, _, hUnlinked.linked, rfl, ⟨k, hBalanced⟩, hRoot⟩
    | black =>
      obtain ⟨n, hFits, ht⟩ := hVacated
      exact rbDeleteFixup_spec hUnlinked.linked hFits ht
  obtain ⟨m'', hFixup, hHolds⟩ := hFixed
  refine ⟨{ t with links := m'', elementsInTree := t.elementsInTree - 1 }, ?_, hEntries ▸ hHolds, ?_⟩
  · simp only [treeDelete, hLocated.descend_eq, addr, hx, if_false, hUnlink, hFixup]
    rfl
  · simp only [hSize, List.length_append]
    omega

end

/-- The keys ascend, and no two compare equal. -/
def Ordered (compare : κ → κ → BitVec 32) (entries : List (Nat × Element κ)) : Prop :=
  (entries.map fun e => e.2.key).Pairwise fun a b => (compare a b).toInt < 0

theorem Between.ne {cmp : κ → BitVec 32} {left right : List (Nat × Element κ)}
    (h : Between cmp left right) : ∀ e ∈ left ++ right, (cmp e.2.key).toInt ≠ 0 := by
  intro e he
  rcases List.mem_append.mp he with he | he
  · exact (h.left e he).ne
  · exact (h.right e he).ne'

section
variable {compare : κ → κ → BitVec 32} (hOrder : SignPreorder compare)
  {entries : List (Nat × Element κ)}
include hOrder

theorem Ordered.splits (h : Ordered compare entries) (key : κ) :
    Splits (fun k => compare k key) entries := by
  refine List.Pairwise.imp (fun {a b} hLess hNonneg => ?_) (List.pairwise_map.mp h)
  by_contra hNot
  exact absurd (hOrder.neg_trans _ _ key hLess (not_lt.mp hNot)) (not_lt.mpr hNonneg)

theorem Ordered.insert {left right : List (Nat × Element κ)} {e : Nat × Element κ}
    (h : Ordered compare (left ++ right))
    (hBetween : Between (fun k => compare k e.2.key) left right) :
    Ordered compare (left ++ e :: right) := by
  obtain ⟨hLeft, hRight, hApart⟩ := List.pairwise_append.mp (List.pairwise_map.mp h)
  refine List.pairwise_map.mpr (List.pairwise_append.mpr ⟨hLeft, List.pairwise_cons.mpr ⟨fun b hb => ?_, hRight⟩, ?_⟩)
  · exact (hOrder.neg_iff _ _).mpr (hBetween.right b hb)
  · intro a ha b hb
    rcases List.mem_cons.mp hb with rfl | hb
    · exact hBetween.left a ha
    · exact hApart a ha b hb

end

/-- `test_rb_tree` gives the number of black nodes on every way down. -/
theorem testRbTree_spec {m : Links (Element κ)} {ctx : List (Frame (Nat × Element κ))}
    {t : RedBlack.Tree (Nat × Element κ)} {n fuel : Nat} (h : Linked m (plug ctx t))
    (hBalanced : Balanced t n) (hFuel : t.entries.length < fuel) :
    testRbTree m fuel t.addr = some n := by
  induction fuel generalizing ctx t n with
  | zero => omega
  | succ fuel ih =>
    cases t with
    | nil =>
      cases hBalanced
      rfl
    | node c x l r =>
      obtain ⟨hNonzero, hCell, hLeft, hRight⟩ := h.node
      rw [Tree.entries, List.length_append, List.length_cons] at hFuel
      rw [testRbTree, addr, if_neg hNonzero, hCell]
      cases hBalanced with
      | black hl hr =>
        rw [if_neg (by simp)]
        simp only [ih hLeft hl (by omega), ih hRight hr (by omega)]
        simp
      | red hl hr hlc hrc =>
        have hlBlack : m.colour l.addr = .black := hLeft.colour.trans hlc
        have hrBlack : m.colour r.addr = .black := hRight.colour.trans hrc
        rw [if_neg (by simp [hlBlack, hrBlack])]
        simp only [ih hLeft hl (by omega), ih hRight hr (by omega)]
        simp

/-! `tree_walk`, in both directions. -/

open List

variable {κ σ : Type}

/-- `TREE_WALK` -/
inductive Visit where
  | leftRootRight
  | rightRootLeft

/-- What the elements from left to right are in the order of the visit -/
def Visit.order {α : Type} : Visit → List α → List α
  | .leftRootRight, elements => elements
  | .rightRootLeft, elements => elements.reverse

/-- The side that is visited first, and the other one -/
def Visit.sides {α : Type} : Visit → (left right : α) → α × α
  | .leftRootRight, left, right => (left, right)
  | .rightRootLeft, left, right => (right, left)

/-- The calls of an action on one element after the other, up to the first that answers with an error.
The action gets the key, the count and the argument and may change what the argument addresses. -/
def callAction (action : κ → Nat → σ → Int × σ) : List (Element κ) → σ → Int × σ
  | [], argument => (0, argument)
  | element :: rest, argument =>
    match action element.key element.count argument with
    | (error, argument) => if error = 0 then callAction action rest argument else (error, argument)

/-- The walk below an element; it ends with the first error, which is the answer. -/
def walkElements (visit : Visit) (action : κ → Nat → σ → Int × σ) (m : Links (Element κ)) :
    (fuel element : Nat) → σ → Option (Int × σ)
  | 0, _, _ => none
  | fuel + 1, element, argument =>
    if element = 0 then some (0, argument)
    else
      let cell := m.cells element
      match walkElements visit action m fuel (visit.sides cell.left cell.right).1 argument with
      | none => none
      | some (error, argument) =>
        if error ≠ 0 then some (error, argument)
        else
          match action cell.data.key cell.data.count argument with
          | (error, argument) =>
            if error ≠ 0 then some (error, argument)
            else walkElements visit action m fuel (visit.sides cell.left cell.right).2 argument

/-- `tree_walk_left_root_right`, which ends at the first error. -/
def walkLeftRootRight (action : κ → Nat → σ → Int × σ) (m : Links (Element κ)) (fuel element : Nat) (argument : σ) :
    Option (Int × σ) :=
  walkElements .leftRootRight action m fuel element argument

/-- `tree_walk_right_root_left`. -/
def walkRightRootLeft (action : κ → Nat → σ → Int × σ) (m : Links (Element κ)) (fuel element : Nat) (argument : σ) :
    Option (Int × σ) :=
  walkElements .rightRootLeft action m fuel element argument

def treeWalk (t : Tree κ) (action : κ → Nat → σ → Int × σ) (argument : σ) (visit : Visit) : Option (Int × σ) :=
  match visit with
  | .leftRootRight => walkLeftRootRight action t.links (t.elementsInTree + 1) t.links.root argument
  | .rightRootLeft => walkRightRootLeft action t.links (t.elementsInTree + 1) t.links.root argument

section
variable (action : κ → Nat → σ → Int × σ)

theorem callAction_append (front back : List (Element κ)) (argument : σ) :
    callAction action (front ++ back) argument =
      if (callAction action front argument).1 = 0 then callAction action back (callAction action front argument).2
      else callAction action front argument := by
  induction front generalizing argument with
  | nil => rfl
  | cons element front ih =>
    rw [cons_append, callAction, callAction]
    dsimp only
    split_ifs with hAction
    · rw [ih, if_pos ‹_›]
    · rw [ih, if_neg ‹_›]
    · rfl

/-- The walk below a node is the walk on one side, the action and the walk on the other side. -/
theorem order_entries (visit : Visit) (c : Colour) (x : Nat × Element κ) (l r : RedBlack.Tree (Nat × Element κ)) :
    visit.order ((RedBlack.Tree.node c x l r).entries.map Prod.snd) =
      visit.order ((visit.sides l r).1.entries.map Prod.snd) ++
        x.2 :: visit.order ((visit.sides l r).2.entries.map Prod.snd) := by
  cases visit with
  | leftRootRight => simp [Visit.order, Visit.sides, RedBlack.Tree.entries]
  | rightRootLeft => simp [Visit.order, Visit.sides, RedBlack.Tree.entries]

theorem walkElements_spec (visit : Visit) {m : Links (Element κ)} {ctx : List (Frame (Nat × Element κ))}
    {t : RedBlack.Tree (Nat × Element κ)} {fuel : Nat} (h : Linked m (plug ctx t))
    (hFuel : t.entries.length < fuel) (argument : σ) :
    walkElements visit action m fuel t.addr argument =
      some (callAction action (visit.order (t.entries.map Prod.snd)) argument) := by
  induction fuel generalizing ctx t argument with
  | zero => omega
  | succ fuel ih =>
    cases t with
    | nil => cases visit <;> rfl
    | node c x l r =>
      obtain ⟨hNonzero, hCell, hLeft, hRight⟩ := h.node
      rw [Tree.entries, length_append, length_cons] at hFuel
      have hSides (argument : σ) :
          walkElements visit action m fuel (visit.sides l.addr r.addr).1 argument =
              some (callAction action (visit.order ((visit.sides l r).1.entries.map Prod.snd)) argument) ∧
            walkElements visit action m fuel (visit.sides l.addr r.addr).2 argument =
              some (callAction action (visit.order ((visit.sides l r).2.entries.map Prod.snd)) argument) := by
        cases visit with
        | leftRootRight => exact ⟨ih hLeft (by omega) argument, ih hRight (by omega) argument⟩
        | rightRootLeft => exact ⟨ih hRight (by omega) argument, ih hLeft (by omega) argument⟩
      rw [walkElements, addr, if_neg hNonzero, hCell, order_entries, callAction_append]
      dsimp only
      rw [(hSides argument).1]
      dsimp only
      by_cases hFirst : (callAction action (visit.order ((visit.sides l r).1.entries.map Prod.snd)) argument).1 = 0
      · rw [if_neg (not_not.mpr hFirst), if_pos hFirst, callAction, (hSides _).2]
        simp only [ne_eq, ite_not]
        split_ifs <;> rfl
      · rw [if_pos hFirst, if_neg hFirst]

theorem treeWalk_spec {t : Tree κ} {entries : List (Nat × Element κ)} (h : t.Has entries) (argument : σ)
    (visit : Visit) :
    treeWalk t action argument visit = some (callAction action (visit.order (entries.map Prod.snd)) argument) := by
  obtain ⟨⟨tr, hLinked, rfl, -, -⟩, hSize⟩ := h
  have hLinked' : Linked t.links (plug [] tr) := hLinked
  unfold treeWalk
  rw [hLinked.root]
  cases visit with
  | leftRootRight => exact walkElements_spec action .leftRootRight hLinked' (by omega) argument
  | rightRootLeft => exact walkElements_spec action .rightRootLeft hLinked' (by omega) argument

end

end MySQL.Trees
