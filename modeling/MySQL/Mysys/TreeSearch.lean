import MySQL.Mysys.TreeDelete

/-! The ways down a tree: the search for a key, and taking an element out. -/
namespace MySQL.Trees

open Library RedBlack RedBlack.Tree

variable {κ : Type} {m : Links (Element κ)} {ctx : List (Frame (Nat × Element κ))}
  {x : Nat × Element κ} {c : Colour} {t l r : RedBlack.Tree (Nat × Element κ)} {n fuel : Nat}

/-- Along the entries the answers of `cmp` are negative, then zero at most once, then
positive. -/
def Splits (cmp : κ → BitVec 32) (entries : List (Nat × Element κ)) : Prop :=
  entries.Pairwise fun a b => 0 ≤ (cmp a.2.key).toInt → 0 < (cmp b.2.key).toInt

structure Between (cmp : κ → BitVec 32) (left right : List (Nat × Element κ)) : Prop where
  left : ∀ e ∈ left, (cmp e.2.key).toInt < 0
  right : ∀ e ∈ right, 0 < (cmp e.2.key).toInt

theorem Splits.around {cmp : κ → BitVec 32} {left right : List (Nat × Element κ)}
    (h : Splits cmp (left ++ x :: right)) :
    ((cmp x.2.key).toInt ≤ 0 → ∀ e ∈ left, (cmp e.2.key).toInt < 0) ∧
      (0 ≤ (cmp x.2.key).toInt → ∀ e ∈ right, 0 < (cmp e.2.key).toInt) := by
  obtain ⟨-, hRight, hLeft⟩ := List.pairwise_append.mp h
  refine ⟨fun hx e he => ?_, fun hx e he => (List.pairwise_cons.mp hRight).1 e he hx⟩
  have hPos := hLeft e he x (by simp)
  omega

/-- The search goes down to the one entry that compares equal, or to the leaf where it
would stand. -/
theorem descend_spec {cmp : κ → BitVec 32} (h : Linked m (plug ctx t))
    (hSplits : Splits cmp t.entries) (hBetween : Between cmp (before ctx) (after ctx))
    (hFuel : t.entries.length < fuel) :
    ∃ ctx' t', plug ctx' t' = plug ctx t ∧
      descend cmp m fuel t.addr (locs ctx) = some (t'.addr, locs ctx') ∧
      Between cmp (before ctx') (after ctx') ∧
      ∀ c x l r, t' = .node c x l r →
        (cmp x.2.key).toInt = 0 ∧ Between cmp l.entries r.entries := by
  induction fuel generalizing ctx t with
  | zero => omega
  | succ fuel ih =>
    cases t with
    | nil => exact ⟨ctx, .nil, rfl, if_pos rfl, hBetween, by simp⟩
    | node c x l r =>
      obtain ⟨hNonzero, hCell, -⟩ := h.node
      obtain ⟨hLeft, hRight⟩ := hSplits.around
      obtain ⟨hSplitsL, hSplitsR, -⟩ := List.pairwise_append.mp hSplits
      rw [entries, List.length_append, List.length_cons] at hFuel
      rw [descend, Tree.addr, if_neg hNonzero, hCell]
      rcases lt_trichotomy (cmp x.2.key).toInt 0 with hNeg | hZero | hPos
      · -- go right: `x` and its left part are before the key
        have hDown : Between cmp (before (⟨.right, c, x, l⟩ :: ctx))
            (after (⟨.right, c, x, l⟩ :: ctx)) := by
          refine ⟨fun e he => ?_, hBetween.right⟩
          simp only [before, List.mem_append, List.mem_singleton] at he
          rcases he with (he | he) | rfl
          · exact hBetween.left e he
          · exact hLeft hNeg.le e he
          · exact hNeg
        simp only [hNeg, hNeg.ne, if_true, if_false, Cell.child]
        exact ih (show Linked m (plug (⟨.right, c, x, l⟩ :: ctx) r) from h)
          (List.pairwise_cons.mp hSplitsR).2 hDown (by omega)
      · simp only [hZero, if_true]
        refine ⟨ctx, .node c x l r, rfl, rfl, hBetween, ?_⟩
        rintro _ _ _ _ ⟨⟩
        exact ⟨hZero, hLeft hZero.le, hRight hZero.ge⟩
      · have hDown : Between cmp (before (⟨.left, c, x, r⟩ :: ctx))
            (after (⟨.left, c, x, r⟩ :: ctx)) := by
          refine ⟨hBetween.left, fun e he => ?_⟩
          simp only [after, List.mem_cons, List.mem_append] at he
          rcases he with rfl | he | he
          · exact hPos
          · exact hRight hPos.le e he
          · exact hBetween.right e he
        simp only [hPos.ne', not_lt_of_gt hPos, if_false, Cell.child]
        exact ih (show Linked m (plug (⟨.left, c, x, r⟩ :: ctx) l) from h) hSplitsL hDown (by omega)

/-- `leftmost` goes down to the first entry. -/
theorem leftmost_spec (h : Linked m (plug ctx (.node c x l r)))
    (hFuel : l.entries.length < fuel) (parents : List Loc) :
    ∃ frames c' y yr, RedBlack.Tree.node c x l r = plug frames (.node c' y .nil yr) ∧
      before frames = [] ∧ leftmost m fuel x.1 parents =
        some (y.1, frames.map (fun f => Loc.child f.side f.entry.1) ++ parents) := by
  induction fuel generalizing ctx c x l r parents with
  | zero => omega
  | succ fuel ih =>
    obtain ⟨-, hCell, hDown, -⟩ := h.node
    rw [leftmost, hCell]
    cases l with
    | nil => exact ⟨[], c, x, r, rfl, rfl, if_pos rfl⟩
    | node c₁ x₁ l₁ r₁ =>
      have hNonzero := hDown.node.1
      rw [entries, List.length_append, List.length_cons] at hFuel
      obtain ⟨frames, c', y, yr, hForm, hBefore, hLeft⟩ :=
        ih hDown (by omega) (.child .left x.1 :: parents)
      refine ⟨frames ++ [⟨.left, c, x, r⟩], c', y, yr, ?_, ?_, ?_⟩
      · rw [plug_append, ← hForm]
        rfl
      · rw [before_append, hBefore]
        rfl
      · simp only [Tree.addr, hNonzero, if_false, hLeft]
        simp

def Vacated (c : Colour) (ctx : List (Frame (Nat × Element κ)))
    (t : RedBlack.Tree (Nat × Element κ)) : Prop :=
  match c with
  | .red => ∃ n, Fits ctx n ∧ Balanced t n ∧ t.colour = .black
  | .black => ∃ n, Fits ctx (n + 1) ∧ Deficient t n

theorem Balanced.deficient (h : Balanced t n) : Deficient t n := by
  cases h with
  | nil => exact .nil
  | black hl hr => exact .black hl hr
  | red hl hr _ _ => exact .black hl hr

/-- Taking out a node with one child. -/
theorem vacated {s : Side} (h : Placed ctx (nodeOn s c x .nil t)) : Vacated c ctx t := by
  obtain ⟨k, hFits, hNode, -, -⟩ := h
  cases c with
  | red =>
    obtain ⟨-, ht, -, hBlack⟩ := hNode.of_redOn
    exact ⟨k, hFits, ht, hBlack⟩
  | black =>
    obtain ⟨k, rfl, -, hChild⟩ := hNode.of_blackOn
    exact ⟨k, hFits, Balanced.deficient hChild⟩

theorem Vacated.setEntry {inner outer : List (Frame (Nat × Element κ))}
    {f : Frame (Nat × Element κ)} (h : Vacated c (inner ++ f :: outer) t) (y : Nat × Element κ) :
    Vacated c (inner ++ { f with entry := y } :: outer) t := by
  cases c with
  | red =>
    obtain ⟨k, hFits, ht⟩ := h
    exact ⟨k, hFits.setEntry y, ht⟩
  | black =>
    obtain ⟨k, hFits, ht⟩ := h
    exact ⟨k, hFits.setEntry y, ht⟩

structure Unlinked (ctx : List (Frame (Nat × Element κ))) (c : Colour) (x : Nat × Element κ)
    (l r : RedBlack.Tree (Nat × Element κ)) (m' : Links (Element κ)) (removed : Colour)
    (ctx' : List (Frame (Nat × Element κ))) (t' : RedBlack.Tree (Nat × Element κ)) : Prop where
  linked : Linked m' (plug ctx' t')
  entries_eq : (plug ctx' t').entries = before ctx ++ (l.entries ++ r.entries) ++ after ctx
  vacated : Placed ctx (.node c x l r) → Vacated removed ctx' t'

/-- The one child takes the place of the element. -/
theorem unlinked_child {s : Side} (h : Linked m (plug ctx (nodeOn s c x .nil t)))
    (hNode : nodeOn s c x .nil t = .node c x l r) (hEntries : t.entries = l.entries ++ r.entries) :
    Unlinked ctx c x l r (m.set (locOf ctx) t.addr) c ctx t := by
  obtain ⟨hStored, -, hNodup, hPos, -⟩ := linked_plug.mp h
  obtain ⟨-, -, ht⟩ := stored_nodeOn.mp hStored
  have hPerm : (nodeOn s c x .nil t).addrs.Perm (x.1 :: t.addrs) := perm_addrs_nodeOn
  have hApart := ((hPerm.append_right _).nodup_iff.mp hNodup)
  rw [List.cons_append, List.nodup_cons] at hApart
  have hDisjoint := (List.nodup_append.mp hApart.2).2.2
  refine ⟨h.replace rfl (fun _ _ => rfl) (ht.congr fun j hj => ?_) hApart.2 fun hMem => ?_, ?_, ?_⟩
  · exact set_locOf_cells (fun hCtx => hDisjoint j hj j hCtx rfl) _
  · exact hPos (List.mem_append_left _ (hPerm.mem_iff.mpr (List.mem_cons_of_mem _ hMem)))
  · rw [entries_plug, hEntries]
  · rw [← hNode]
    exact Trees.vacated

/-- The element has two children: its successor takes its place. -/
theorem unlinked_successor {frames : List (Frame (Nat × Element κ))} {c' : Colour}
    {y : Nat × Element κ} {yr : RedBlack.Tree (Nat × Element κ)}
    (h : Linked m (plug ctx (.node c x l r))) (hr : r = plug frames (.node c' y .nil yr))
    (hFirst : before frames = []) :
    let m₁ := m.set (locOf (frames ++ ⟨.right, c, x, l⟩ :: ctx)) yr.addr
    let m₂ := m₁.set (locOf ctx) y.1
    Unlinked ctx c x l r (m₂.setCell y.1 { m₂.cells y.1 with
        left := (m₂.cells x.1).left, right := (m₂.cells x.1).right,
        colour := (m₂.cells x.1).colour })
      c' (frames ++ ⟨.right, c, y, l⟩ :: ctx) yr := by
  intro m₁ m₂
  have hEntries : r.entries = y :: (plug frames yr).entries := by
    rw [hr, entries_plug, entries_plug, hFirst]
    rfl
  have hAddrs : r.addrs = y.1 :: (plug frames yr).addrs := congrArg _ hEntries
  have hForm (z : Nat × Element κ) (u : RedBlack.Tree (Nat × Element κ)) :
      plug (frames ++ ⟨.right, c, z, l⟩ :: ctx) u = plug ctx (.node c z l (plug frames u)) :=
    plug_append frames _ u
  have hInner : Linked m (plug (frames ++ ⟨.right, c, x, l⟩ :: ctx) (nodeOn .left c' y .nil yr)) := by
    rw [hForm]
    exact hr ▸ h
  -- the successor out of its place, the element still there
  have hCut : Unlinked _ c' y .nil yr m₁ c' _ yr := unlinked_child hInner rfl rfl
  have hLinked : Linked m₁ (plug ctx (.node c x l (plug frames yr))) := by
    rw [← hForm]
    exact hCut.linked
  obtain ⟨⟨hCell, -, -⟩, -, -, -, -⟩ := linked_plug.mp hLinked
  obtain ⟨-, -, hNodup, hPos, -⟩ := linked_plug.mp h
  obtain ⟨⟨hCellY, -, -⟩, -, hNodupY, -, -⟩ := linked_plug.mp hInner
  simp only [addrs, entries, List.map_append, List.map_cons] at hNodup hPos
  rw [← addrs, ← addrs, hAddrs] at hNodup hPos
  have hyCtx : y.1 ∉ ctxAddrs (frames ++ ⟨.right, c, x, l⟩ :: ctx) := fun hMem =>
    (List.nodup_append.mp hNodupY).2.2 y.1 (by simp [addrs, entries, nodeOn]) y.1 hMem rfl
  simp only [List.append_assoc, List.cons_append, List.nodup_append, List.nodup_cons,
    List.mem_append, List.mem_cons, not_or] at hNodup hPos
  have hy : y.1 ∉ 0 :: (l.addrs ++ (plug frames yr).addrs ++ ctxAddrs ctx) := by
    simp only [List.mem_append, List.mem_cons, not_or]
    grind only
  have hxCtx : x.1 ∉ ctxAddrs ctx := hNodup.2.1.1.2.2
  have hyOuter : y.1 ∉ ctxAddrs ctx := fun hMem =>
    hy (List.mem_cons_of_mem _ (List.mem_append_right _ hMem))
  have hCellX : m₂.cells x.1 = ⟨l.addr, (plug frames yr).addr, c, x.2⟩ :=
    (set_locOf_cells hxCtx _).trans hCell
  have hData : (m₂.cells y.1).data = y.2 := by
    have hOld : m₂.cells y.1 = m.cells y.1 :=
      (set_locOf_cells hyOuter _).trans (set_locOf_cells hyCtx _)
    rw [hOld, hCellY]
  refine ⟨?_, ?_, fun hPlaced => ?_⟩
  · rw [hForm]
    refine hLinked.replaceEntry hy rfl (fun j hj => Links.setCell_cells_of_ne _ hj _) ?_
    rw [Links.setCell_cells_self, hCellX, ← hData]
  · rw [hForm, entries_plug, entries, hEntries]
  · obtain ⟨n, hFits, hNode, hRed, hRoot⟩ := hPlaced
    obtain ⟨k, hBalanced, hBlack⟩ := hNode.plug hFits hRed hRoot
    have hPlug : plug ctx (.node c x l r) =
        plug (frames ++ ⟨.right, c, x, l⟩ :: ctx) (nodeOn .left c' y .nil yr) := by
      rw [hForm, hr]
      rfl
    rw [hPlug] at hBalanced hBlack
    exact (Trees.vacated (hBalanced.placed hBlack)).setEntry y

theorem unlinkElement_spec (h : Linked m (plug ctx (.node c x l r)))
    (hFuel : r.entries.length ≤ fuel) :
    ∃ m' removed ctx' t', unlinkElement m fuel x.1 (locs ctx) = some (m', removed, locs ctx') ∧
      Unlinked ctx c x l r m' removed ctx' t' := by
  obtain ⟨-, hCell, hl, hrLinked⟩ := h.node
  have hLeftZero : l.addr = 0 ↔ l = .nil := hl.addr_eq_zero
  have hRightZero : r.addr = 0 ↔ r = .nil := hrLinked.addr_eq_zero
  obtain ⟨above, hLocs⟩ := locs_eq ctx
  rw [hLocs]
  simp only [unlinkElement, hCell]
  by_cases hLeft : l = .nil
  · subst hLeft
    exact ⟨_, _, ctx, r, by rw [Tree.addr, if_pos rfl, hLocs], unlinked_child (s := .left) h rfl rfl⟩
  by_cases hRight : r = .nil
  · subst hRight
    exact ⟨_, _, ctx, l, by rw [if_neg (mt hLeftZero.mp hLeft), Tree.addr, if_pos rfl, hLocs],
      unlinked_child (s := .right) h rfl (by simp [entries])⟩
  obtain ⟨c₁, x₁, l₁, r₁, hNode⟩ := exists_nodeOn .left hRight
  rw [if_neg (mt hLeftZero.mp hLeft), if_neg (mt hRightZero.mp hRight)]
  have hFuel' : l₁.entries.length < fuel := by
    rw [hNode, nodeOn, entries, List.length_append, List.length_cons] at hFuel
    omega
  obtain ⟨frames, c', y, yr, hForm, hFirst, hLeftmost⟩ :=
    leftmost_spec (hNode ▸ hrLinked) hFuel' []
  have hr : r = plug frames (.node c' y .nil yr) := hNode.trans hForm
  have hSuccessor := unlinked_successor h hr hFirst
  have hInner : Linked m (plug (frames ++ ⟨.right, c, x, l⟩ :: ctx) (nodeOn .left c' y .nil yr)) := by
    rw [plug_append]
    exact hr ▸ h
  have hCellY : m.cells y.1 = ⟨0, yr.addr, c', y.2⟩ := hInner.cell
  refine ⟨_, _, frames ++ ⟨.right, c, y, l⟩ :: ctx, yr, ?_, hSuccessor⟩
  have hAddr : r.addr = x₁.1 := by rw [hNode, addr_nodeOn]
  rw [List.append_nil] at hLeftmost
  simp only [hAddr, hLeftmost, hCellY, Links.colour]
  rw [locs_append, locs, hLocs]
  cases frames <;> rfl

end MySQL.Trees
