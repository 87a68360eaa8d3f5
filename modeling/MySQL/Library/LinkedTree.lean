import MySQL.Library.RedBlack

/-! Red-black trees in memory. A cell has the addresses of its children; address 0 is
the leaf that all trees share. -/
namespace Library.RedBlack
open Function List

universe u
variable {δ : Type u}

structure Cell (δ : Type u) where
  left : Nat
  right : Nat
  colour : Colour
  data : δ

namespace Cell

def child (cell : Cell δ) : Side → Nat
  | .left => cell.left
  | .right => cell.right

def setChild (cell : Cell δ) (s : Side) (p : Nat) : Cell δ :=
  match s with
  | .left => { cell with left := p }
  | .right => { cell with right := p }

end Cell

/-- The places that hold a pointer to a node: the root, or one side of a node. -/
inductive Loc where
  | root
  | child (s : Side) (p : Nat)

/-- A tree in memory. Address 0 is the null element. -/
structure Links (δ : Type u) where
  root : Nat
  cells : Nat → Cell δ

namespace Links

def get (m : Links δ) : Loc → Nat
  | .root => m.root
  | .child s p => (m.cells p).child s

def set (m : Links δ) (loc : Loc) (q : Nat) : Links δ :=
  match loc with
  | .root => { m with root := q }
  | .child s p => { m with cells := Function.update m.cells p ((m.cells p).setChild s q) }

def setCell (m : Links δ) (p : Nat) (cell : Cell δ) : Links δ :=
  { m with cells := Function.update m.cells p cell }

def colour (m : Links δ) (p : Nat) : Colour := (m.cells p).colour

def setColour (m : Links δ) (p : Nat) (c : Colour) : Links δ :=
  m.setCell p { m.cells p with colour := c }

section
variable (m : Links δ)
include m

@[simp] theorem setCell_cells_self (p : Nat) (cell : Cell δ) : (m.setCell p cell).cells p = cell :=
  update_self ..

theorem setCell_cells_of_ne {p j : Nat} (h : j ≠ p) (cell : Cell δ) :
    (m.setCell p cell).cells j = m.cells j :=
  update_of_ne h ..

/-- Writing what is there changes nothing. -/
theorem set_get (loc : Loc) : m.set loc (m.get loc) = m := by
  cases loc with
  | root => rfl
  | child s p =>
    have hCell : (m.cells p).setChild s ((m.cells p).child s) = m.cells p := by cases s <;> rfl
    rw [get, set, hCell, update_eq_self]

@[simp] theorem set_child_cells_self (s : Side) (p q : Nat) :
    (m.set (.child s p) q).cells p = (m.cells p).setChild s q :=
  update_self ..

theorem set_child_cells_of_ne (s : Side) {p j : Nat} (h : j ≠ p) (q : Nat) :
    (m.set (.child s p) q).cells j = m.cells j :=
  update_of_ne h ..

@[simp] theorem setColour_cells_self (p : Nat) (c : Colour) :
    (m.setColour p c).cells p = { m.cells p with colour := c } :=
  update_self ..

theorem setColour_cells_of_ne {p j : Nat} (h : j ≠ p) (c : Colour) :
    (m.setColour p c).cells j = m.cells j :=
  update_of_ne h ..

end

/-- The child of `leaf` away from side `s` takes its place, and `leaf` becomes its child
on side `s`. -/
def rotate (s : Side) (m : Links δ) (parent : Loc) (leaf : Nat) : Links δ :=
  let y := (m.cells leaf).child s.other
  let m := m.set (.child s.other leaf) ((m.cells y).child s)
  let m := m.set parent y
  m.set (.child s y) leaf

end Links

/-- The address of the root of a tree. -/
def Tree.addr : Tree (Nat × δ) → Nat
  | .nil => 0
  | .node _ x _ _ => x.1

@[simp] theorem Tree.addr_nodeOn (s : Side) (c : Colour) (x : Nat × δ) (near far : Tree (Nat × δ)) :
    (Tree.nodeOn s c x near far).addr = x.1 := by
  cases s <;> rfl

def Tree.addrs (t : Tree (Nat × δ)) : List Nat := t.entries.map Prod.fst

/-- The nodes of a tree are in their cells. -/
def Stored (cells : Nat → Cell δ) : Tree (Nat × δ) → Prop
  | .nil => True
  | .node c x l r =>
    cells x.1 = ⟨l.addr, r.addr, c, x.2⟩ ∧ Stored cells l ∧ Stored cells r

/-- The memory holds the tree, with every node in a cell of its own and a black leaf. -/
structure Linked (m : Links δ) (t : Tree (Nat × δ)) : Prop where
  root : m.root = t.addr
  stored : Stored m.cells t
  nodup : t.addrs.Nodup
  pos : 0 ∉ t.addrs
  leaf : m.colour 0 = .black

/-- The place at which the hole of a context is. -/
def locOf : List (Frame (Nat × δ)) → Loc
  | [] => .root
  | f :: _ => .child f.side f.entry.1

/-- The places on the way from the hole up to the root. -/
def locs : List (Frame (Nat × δ)) → List Loc
  | [] => [.root]
  | f :: rest => .child f.side f.entry.1 :: locs rest

theorem locs_append (inner outer : List (Frame (Nat × δ))) :
    locs (inner ++ outer) = inner.map (fun f => .child f.side f.entry.1) ++ locs outer := by
  induction inner with
  | nil => rfl
  | cons f rest ih => rw [cons_append, locs, ih, map_cons, cons_append]

theorem locs_eq (ctx : List (Frame (Nat × δ))) : ∃ rest, locs ctx = locOf ctx :: rest := by
  cases ctx with
  | nil => exact ⟨[], rfl⟩
  | cons f rest => exact ⟨locs rest, rfl⟩

section
variable {cells cells' : Nat → Cell δ} {t near far : Tree (Nat × δ)} {s : Side} {c : Colour}
  {x : Nat × δ}

theorem perm_addrs_nodeOn :
    (Tree.nodeOn s c x near far).addrs.Perm (x.1 :: (near.addrs ++ far.addrs)) := by
  cases s with
  | left =>
    simp only [Tree.nodeOn, Tree.addrs, Tree.entries, map_append, map_cons]
    exact perm_middle
  | right =>
    simp only [Tree.nodeOn, Tree.addrs, Tree.entries, map_append, map_cons]
    exact perm_middle.trans (perm_append_comm.cons _)

def cellOn (s : Side) (near far : Nat) (c : Colour) (d : δ) : Cell δ :=
  match s with
  | .left => ⟨near, far, c, d⟩
  | .right => ⟨far, near, c, d⟩

section
variable (s : Side) (near far : Nat) (c : Colour) (d : δ)

@[simp] theorem cellOn_child :
    (cellOn s near far c d).child s = near := by
  cases s <;> rfl

@[simp] theorem cellOn_child_other :
    (cellOn s near far c d).child s.other = far := by
  cases s <;> rfl

@[simp] theorem cellOn_colour :
    (cellOn s near far c d).colour = c := by
  cases s <;> rfl

end

@[simp] theorem cellOn_setChild (s : Side) (near far q : Nat) (c : Colour) (d : δ) :
    (cellOn s near far c d).setChild s q = cellOn s q far c d := by
  cases s <;> rfl

@[simp] theorem cellOn_setChild_other (s : Side) (near far q : Nat) (c : Colour) (d : δ) :
    (cellOn s near far c d).setChild s.other q = cellOn s near q c d := by
  cases s <;> rfl

theorem stored_nodeOn : Stored cells (Tree.nodeOn s c x near far) ↔
    cells x.1 = cellOn s near.addr far.addr c x.2 ∧ Stored cells near ∧ Stored cells far := by
  cases s
  · exact Iff.rfl
  · exact and_congr_right' and_comm

theorem Stored.congr (h : Stored cells t) (hSame : ∀ j ∈ t.addrs, cells' j = cells j) :
    Stored cells' t := by
  induction t with
  | nil => trivial
  | node c x l r ihl ihr =>
    obtain ⟨hCell, hl, hr⟩ := h
    simp only [Tree.addrs, Tree.entries, map_append, map_cons, mem_append, mem_cons] at hSame
    refine ⟨?_, ihl hl fun j hj => hSame j (.inl hj),
      ihr hr fun j hj => hSame j (.inr (.inr hj))⟩
    rw [hSame x.1 (.inr (.inl rfl)), hCell]

end

def ctxAddrs : List (Frame (Nat × δ)) → List Nat
  | [] => []
  | f :: rest => f.entry.1 :: (f.sibling.addrs ++ ctxAddrs rest)

section
variable {m m' : Links δ} {ctx rest : List (Frame (Nat × δ))} {t : Tree (Nat × δ)}

theorem perm_addrs_plug (ctx : List (Frame (Nat × δ))) (t : Tree (Nat × δ)) :
    (plug ctx t).addrs.Perm (t.addrs ++ ctxAddrs ctx) := by
  induction ctx generalizing t with
  | nil => simp [plug, ctxAddrs]
  | cons f rest ih =>
    refine (ih _).trans ((perm_addrs_nodeOn.append_right _).trans ?_)
    rw [cons_append, append_assoc]
    exact perm_middle.symm

/-- The nodes around a hole are in their cells, and the hole holds a pointer. -/
def StoredAround (m : Links δ) : List (Frame (Nat × δ)) → Nat → Prop
  | [], p => m.root = p
  | f :: rest, p =>
    m.cells f.entry.1 = cellOn f.side p f.sibling.addr f.colour f.entry.2 ∧
      Stored m.cells f.sibling ∧ StoredAround m rest f.entry.1

/-- The memory holds a tree when it holds the part in the hole and the part around it. -/
theorem linked_plug : Linked m (plug ctx t) ↔
    Stored m.cells t ∧ StoredAround m ctx t.addr ∧ (t.addrs ++ ctxAddrs ctx).Nodup ∧
      0 ∉ t.addrs ++ ctxAddrs ctx ∧ m.colour 0 = .black := by
  have hPerm := perm_addrs_plug ctx t
  have hIff : m.root = (plug ctx t).addr ∧ Stored m.cells (plug ctx t) ↔
      Stored m.cells t ∧ StoredAround m ctx t.addr := by
    clear hPerm
    induction ctx generalizing t with
    | nil => exact and_comm
    | cons f rest ih =>
      rw [plug, ih, stored_nodeOn, StoredAround, Tree.addr_nodeOn]
      grind only
  rw [← hPerm.nodup_iff, ← hPerm.mem_iff, ← and_assoc, ← hIff]
  exact ⟨fun h => ⟨⟨h.root, h.stored⟩, h.nodup, h.pos, h.leaf⟩,
    fun h => ⟨h.1.1, h.1.2, h.2.1, h.2.2.1, h.2.2.2⟩⟩

section
variable {p : Nat} (h : StoredAround m ctx p)
include h

theorem StoredAround.congr (hRoot : m'.root = m.root)
    (hSame : ∀ j ∈ ctxAddrs ctx, m'.cells j = m.cells j) : StoredAround m' ctx p := by
  induction ctx generalizing p with
  | nil => exact hRoot.trans h
  | cons f rest ih =>
    obtain ⟨hCell, hSibling, hRest⟩ := h
    simp only [ctxAddrs, mem_cons, mem_append] at hSame
    refine ⟨?_, hSibling.congr fun j hj => hSame j (.inr (.inl hj)),
      ih hRest fun j hj => hSame j (.inr (.inr hj))⟩
    rw [hSame _ (.inl rfl), hCell]

theorem StoredAround.get : m.get (locOf ctx) = p := by
  cases ctx with
  | nil => exact h
  | cons f rest =>
    obtain ⟨hCell, -, -⟩ := h
    rw [locOf, Links.get, hCell, cellOn_child]

/-- Change the pointer to the hole. -/
theorem StoredAround.set {q : Nat} (hNodup : (ctxAddrs ctx).Nodup) :
    StoredAround (m.set (locOf ctx) q) ctx q := by
  cases ctx with
  | nil => rfl
  | cons f rest =>
    obtain ⟨hCell, hSibling, hRest⟩ := h
    simp only [ctxAddrs, nodup_cons, mem_append, not_or] at hNodup
    have hSame (j : Nat) (hj : j ≠ f.entry.1) : (m.set (locOf (f :: rest)) q).cells j = m.cells j :=
      update_of_ne hj ..
    refine ⟨?_, hSibling.congr fun j hj => hSame j ?_, hRest.congr rfl fun j hj => hSame j ?_⟩
    · rw [locOf, Links.set_child_cells_self, hCell, cellOn_setChild]
    · exact fun hEq => hNodup.1.1 (hEq ▸ hj)
    · exact fun hEq => hNodup.1.2 (hEq ▸ hj)

end

theorem set_locOf_cells {j : Nat} (hj : j ∉ ctxAddrs ctx) (q : Nat) :
    (m.set (locOf ctx) q).cells j = m.cells j := by
  cases ctx with
  | nil => rfl
  | cons f rest =>
    exact Links.set_child_cells_of_ne m f.side (fun hEq => hj (by simp [ctxAddrs, hEq])) q

end

section
variable {m : Links δ} {ctx : List (Frame (Nat × δ))} {s : Side} {c c₁ c₂ : Colour}
  {x y : Nat × δ} {near far a b d t : Tree (Nat × δ)}

/-- The cell of the node in the hole, and the pointer to it. -/
theorem Linked.cell (h : Linked m (plug ctx (Tree.nodeOn s c x near far))) :
    m.cells x.1 = cellOn s near.addr far.addr c x.2 :=
  (stored_nodeOn.mp (linked_plug.mp h).1).1

theorem Linked.get (h : Linked m (plug ctx t)) : m.get (locOf ctx) = t.addr :=
  (linked_plug.mp h).2.1.get

theorem Linked.rotate (h : Linked m (plug ctx (Tree.nodeOn s c₁ x a (Tree.nodeOn s c₂ y b d)))) :
    Linked (m.rotate s (locOf ctx) x.1)
      (plug ctx (Tree.nodeOn s c₂ y (Tree.nodeOn s c₁ x a b) d)) := by
  obtain ⟨hStored, hAround, hNodup, hPos, hLeaf⟩ := linked_plug.mp h
  obtain ⟨hCellX, hA, hStoredY⟩ := stored_nodeOn.mp hStored
  obtain ⟨hCellY, hB, hD⟩ := stored_nodeOn.mp hStoredY
  have hPerm : (Tree.nodeOn s c₂ y (Tree.nodeOn s c₁ x a b) d).addrs =
      (Tree.nodeOn s c₁ x a (Tree.nodeOn s c₂ y b d)).addrs :=
    congrArg (map Prod.fst) (Tree.entries_rotate s c₂ c₁ c₁ c₂ x y a b d)
  have hApart : (x.1 :: (a.addrs ++ (y.1 :: (b.addrs ++ d.addrs))) ++ ctxAddrs ctx).Nodup :=
    (((perm_addrs_nodeOn.trans ((perm_addrs_nodeOn.append_left _).cons _)).append_right
      _).nodup_iff).mp hNodup
  simp only [cons_append, append_assoc, nodup_cons, nodup_append,
    mem_append, mem_cons, not_or] at hApart
  obtain ⟨⟨hxa, hxy, hxb, hxd, hxCtx⟩, -, ⟨⟨hyb, hyd, hyCtx⟩, -, ⟨-, -, hdCtx⟩, hbOther⟩,
    haOther⟩ := hApart
  have hRotate : m.rotate s (locOf ctx) x.1 =
      ((m.set (.child s.other x.1) b.addr).set (locOf ctx) y.1).set (.child s y.1) x.1 := by
    simp only [Links.rotate, hCellX, hCellY, cellOn_child_other, Tree.addr_nodeOn, cellOn_child]
  rw [hRotate]
  set m₁ := m.set (.child s.other x.1) b.addr with hm₁
  have hSame₁ (j : Nat) (hj : j ≠ x.1) : m₁.cells j = m.cells j :=
    m.set_child_cells_of_ne s.other hj b.addr
  have hSame (j : Nat) (hjx : j ≠ x.1) (hjy : j ≠ y.1) (hj : j ∉ ctxAddrs ctx) :
      ((m₁.set (locOf ctx) y.1).set (.child s y.1) x.1).cells j = m.cells j := by
    rw [Links.set_child_cells_of_ne _ _ hjy, set_locOf_cells hj, hSame₁ j hjx]
  have hAround₁ : StoredAround m₁ ctx x.1 := by
    rw [Tree.addr_nodeOn] at hAround
    exact hAround.congr rfl fun j hj => hSame₁ j fun hEq => hxCtx (hEq ▸ hj)
  have hLeafPos : 0 ≠ x.1 ∧ 0 ≠ y.1 ∧ 0 ∉ ctxAddrs ctx := by
    simp only [mem_append, perm_addrs_nodeOn.mem_iff, mem_cons, not_or] at hPos
    exact ⟨hPos.1.1, hPos.1.2.2.1, hPos.2⟩
  refine linked_plug.mpr ⟨stored_nodeOn.mpr ⟨?_, stored_nodeOn.mpr ⟨?_, ?_, ?_⟩, ?_⟩, ?_,
    hPerm ▸ hNodup, hPerm ▸ hPos, ?_⟩
  · rw [Links.set_child_cells_self, set_locOf_cells hyCtx, hSame₁ _ (Ne.symm hxy), hCellY,
      cellOn_setChild, Tree.addr_nodeOn]
  · rw [Links.set_child_cells_of_ne _ _ hxy, set_locOf_cells hxCtx, Links.set_child_cells_self,
      hCellX, cellOn_setChild_other]
  · exact hA.congr fun j hj => hSame j (by grind only) (by grind only) (by grind only)
  · exact hB.congr fun j hj => hSame j (by grind only) (by grind only) (by grind only)
  · exact hD.congr fun j hj => hSame j (by grind only) (by grind only) (by grind only)
  · rw [Tree.addr_nodeOn]
    refine (hAround₁.set ?_).congr rfl fun j hj => ?_
    · exact (nodup_append.mp hNodup).2.1
    · exact Links.set_child_cells_of_ne _ _ (fun hEq : j = y.1 => hyCtx (hEq ▸ hj)) _
  · rw [Links.colour, hSame 0 hLeafPos.1 hLeafPos.2.1 hLeafPos.2.2]
    exact hLeaf

/-- Put another tree into the hole. -/
theorem Linked.replace {m' : Links δ} {u : Tree (Nat × δ)} (h : Linked m (plug ctx t))
    (hRoot : m'.root = (m.set (locOf ctx) u.addr).root)
    (hSame : ∀ j ∉ u.addrs, m'.cells j = (m.set (locOf ctx) u.addr).cells j)
    (hStored : Stored m'.cells u) (hNodup : (u.addrs ++ ctxAddrs ctx).Nodup) (hPos : 0 ∉ u.addrs) :
    Linked m' (plug ctx u) := by
  obtain ⟨-, hAround, -, hPosOld, hLeaf⟩ := linked_plug.mp h
  have hPosCtx : 0 ∉ ctxAddrs ctx := fun hMem => hPosOld (mem_append_right _ hMem)
  obtain ⟨-, hCtx, hApart⟩ := nodup_append.mp hNodup
  refine linked_plug.mpr ⟨hStored, (hAround.set hCtx).congr hRoot fun j hj => hSame j ?_, hNodup,
    ?_, ?_⟩
  · exact fun hMem => hApart j hMem j hj rfl
  · rw [mem_append]
    exact not_or.mpr ⟨hPos, hPosCtx⟩
  · rw [Links.colour, hSame 0 hPos, set_locOf_cells hPosCtx]
    exact hLeaf

section
variable {l r : Tree (Nat × δ)} (h : Linked m (plug ctx (.node c x l r)))
include h

/-- Another entry takes the place of the one in the hole. -/
theorem Linked.replaceEntry {m' : Links δ} {c' : Colour}
    (hy : y.1 ∉ 0 :: (l.addrs ++ r.addrs ++ ctxAddrs ctx))
    (hRoot : m'.root = (m.set (locOf ctx) y.1).root)
    (hSame : ∀ j ≠ y.1, m'.cells j = (m.set (locOf ctx) y.1).cells j)
    (hCell : m'.cells y.1 = ⟨l.addr, r.addr, c', y.2⟩) : Linked m' (plug ctx (.node c' y l r)) := by
  obtain ⟨⟨-, hl, hr⟩, -, hNodup, hPos, -⟩ := linked_plug.mp h
  have hSplit (c : Colour) (z : Nat × δ) : ((Tree.node c z l r).addrs ++ ctxAddrs ctx).Perm
      (z.1 :: (l.addrs ++ r.addrs ++ ctxAddrs ctx)) :=
    (perm_addrs_nodeOn (s := .left)).append_right _
  rw [(hSplit c x).nodup_iff, nodup_cons] at hNodup
  rw [(hSplit c x).mem_iff] at hPos
  rw [mem_cons, not_or] at hy
  have hStored (u : Tree (Nat × δ)) (hu : Stored m.cells u)
      (hSub : ∀ j ∈ u.addrs, j ∈ l.addrs ++ r.addrs) : Stored m'.cells u := by
    refine hu.congr fun j hj => ?_
    have hMem := hSub j hj
    rw [hSame j fun hEq : j = y.1 => hy.2 (mem_append_left _ (hEq ▸ hMem))]
    exact set_locOf_cells (fun hCtx => (nodup_append.mp hNodup.2).2.2 j hMem j hCtx rfl) _
  refine h.replace hRoot (fun j hj => hSame j fun hEq => hj ?_) ⟨hCell, ?_, ?_⟩ ?_ fun hMem => ?_
  · simp [Tree.addrs, Tree.entries, hEq]
  · exact hStored l hl fun j hj => mem_append_left _ hj
  · exact hStored r hr fun j hj => mem_append_right _ hj
  · exact (hSplit c' y).nodup_iff.mpr (nodup_cons.mpr ⟨hy.2, hNodup.2⟩)
  · have hAll := (hSplit c' y).mem_iff.mp (mem_append_left _ hMem)
    rcases mem_cons.mp hAll with hEq | hRest
    · exact hy.1 hEq.symm
    · exact hPos (mem_cons_of_mem _ hRest)

/-- Change the colour and the data of the node in the hole. -/
theorem Linked.setCell (c' : Colour) (d : δ) :
    Linked (m.setCell x.1 { m.cells x.1 with colour := c', data := d }) (plug ctx (.node c' (x.1, d) l r)) := by
  obtain ⟨⟨hCell, -, -⟩, -, hNodup, hPos, -⟩ := linked_plug.mp h
  have hPerm : ((Tree.node c x l r).addrs ++ ctxAddrs ctx).Perm
      (x.1 :: (l.addrs ++ r.addrs ++ ctxAddrs ctx)) :=
    (perm_addrs_nodeOn (s := .left)).append_right _
  have hSet : m.set (locOf ctx) x.1 = m := by
    have hGet : m.get (locOf ctx) = x.1 := (linked_plug.mp h).2.1.get
    exact hGet ▸ m.set_get _
  refine h.replaceEntry (fun hMem => ?_) ?_ (fun j hj => ?_) ?_
  · rcases mem_cons.mp hMem with hZero | hRest
    · exact hPos (hPerm.mem_iff.mpr (by simp [← hZero]))
    · exact (nodup_cons.mp (hPerm.nodup_iff.mp hNodup)).1 hRest
  · rw [hSet]
    rfl
  · rw [hSet]
    exact Links.setCell_cells_of_ne _ hj _
  · rw [Links.setCell_cells_self, hCell]

end

theorem Linked.setColour (h : Linked m (plug ctx (Tree.nodeOn s c x near far))) (c' : Colour) :
    Linked (m.setColour x.1 c') (plug ctx (Tree.nodeOn s c' x near far)) := by
  have hEntry : (x.1, (m.cells x.1).data) = x := by
    rw [h.cell]
    cases s <;> rfl
  rw [← hEntry]
  cases s with
  | left => exact h.setCell c' _
  | right => exact h.setCell c' _

/-- The colour read at the address of a tree. -/
theorem Linked.colour_of_stored (hStored : Stored m.cells t) (hLeaf : m.colour 0 = .black) :
    m.colour t.addr = t.colour := by
  cases t with
  | nil => exact hLeaf
  | node c x l r => rw [Tree.addr, Links.colour, hStored.1]; rfl

theorem Linked.colour (h : Linked m (plug ctx t)) : m.colour t.addr = t.colour :=
  Linked.colour_of_stored (linked_plug.mp h).1 h.leaf

theorem addr_mem_addrs (h : t ≠ .nil) : t.addr ∈ t.addrs := by
  cases t with
  | nil => exact absurd rfl h
  | node c x l r => simp [Tree.addr, Tree.addrs, Tree.entries]

theorem Linked.addr_eq_zero (h : Linked m (plug ctx t)) : t.addr = 0 ↔ t = .nil := by
  refine ⟨fun hZero => ?_, fun hNil => by rw [hNil]; rfl⟩
  by_contra hSome
  obtain ⟨-, -, -, hPos, -⟩ := linked_plug.mp h
  exact hPos (mem_append_left _ (hZero ▸ addr_mem_addrs hSome))

/-- A node in the hole: it is no leaf, its cell holds its children, and they are linked below it. -/
theorem Linked.node (h : Linked m (plug ctx (.node c x a b))) :
    x.1 ≠ 0 ∧ m.cells x.1 = ⟨a.addr, b.addr, c, x.2⟩ ∧
      Linked m (plug (⟨.left, c, x, b⟩ :: ctx) a) ∧ Linked m (plug (⟨.right, c, x, a⟩ :: ctx) b) := by
  have hCell := Linked.cell (show Linked m (plug ctx (Tree.nodeOn .left c x a b)) from h)
  refine ⟨fun hZero => ?_, hCell, h, h⟩
  cases h.addr_eq_zero.mp hZero

theorem Linked.blackenLeaf (h : Linked m t) : Linked (m.setColour 0 .black) t := by
  have hSame (j : Nat) (hj : j ∈ t.addrs) : (m.setColour 0 .black).cells j = m.cells j :=
    m.setColour_cells_of_ne (fun hEq : j = 0 => h.pos (hEq ▸ hj)) .black
  exact ⟨h.root, h.stored.congr hSame, h.nodup, h.pos, by simp [Links.colour]⟩

/-- The children of a node have different addresses, unless both are leaves. -/
theorem Linked.addr_ne (h : Linked m (plug ctx (Tree.nodeOn s c x near far)))
    (hSome : near ≠ .nil ∨ far ≠ .nil) : near.addr ≠ far.addr := by
  obtain ⟨-, -, hNodup, hPos, -⟩ := linked_plug.mp h
  have hApart := (perm_addrs_nodeOn.append_right _).nodup_iff.mp hNodup
  simp only [cons_append, append_assoc, nodup_cons, nodup_append] at hApart
  simp only [mem_append, perm_addrs_nodeOn.mem_iff, mem_cons, not_or] at hPos
  intro hEq
  by_cases hNear : near = .nil
  · have hFar := addr_mem_addrs (hSome.resolve_left (by simp [hNear]))
    rw [← hEq, hNear] at hFar
    exact hPos.1.2.2 hFar
  · have hMem := addr_mem_addrs hNear
    by_cases hFarNil : far = .nil
    · rw [hEq, hFarNil] at hMem
      exact hPos.1.2.1 hMem
    · exact hApart.2.2.2 _ hMem _ (mem_append_left _ (addr_mem_addrs hFarNil)) hEq

variable {f : Frame (Nat × δ)} {rest : List (Frame (Nat × δ))}

/-- The root is around every hole that is not the whole tree. -/
theorem addr_plug_mem : (plug (f :: rest) t).addr ∈ ctxAddrs (f :: rest) := by
  induction rest generalizing f t with
  | nil => simp [plug, ctxAddrs]
  | cons g rest ih =>
    exact mem_cons_of_mem _ (mem_append_right _ ih)

theorem Linked.root_ne (h : Linked m (plug (f :: rest) t)) : t.addr ≠ m.root := by
  obtain ⟨-, -, hNodup, hPos, -⟩ := linked_plug.mp h
  rw [h.root]
  intro hEq
  have hMem : t.addr ∈ ctxAddrs (f :: rest) := hEq ▸ addr_plug_mem
  cases t with
  | nil => exact hPos (mem_append_right _ hMem)
  | node c x l r =>
    exact (nodup_append.mp hNodup).2.2 _ (addr_mem_addrs (by simp)) _ hMem rfl

/-- The node above the hole: the pointer to it, its cell and the colour of its other
child. -/
theorem Linked.above (h : Linked m (plug (f :: rest) t)) : m.get (locOf rest) = f.entry.1 ∧
      m.cells f.entry.1 = cellOn f.side t.addr f.sibling.addr f.colour f.entry.2 ∧
      m.colour f.sibling.addr = f.sibling.colour := by
  obtain ⟨-, ⟨hCell, hSibling, hRest⟩, -, -, hLeaf⟩ := linked_plug.mp h
  exact ⟨hRest.get, hCell, Linked.colour_of_stored hSibling hLeaf⟩

end

end Library.RedBlack
