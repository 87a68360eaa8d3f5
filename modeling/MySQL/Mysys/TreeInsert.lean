import MySQL.Mysys.Tree

/-! `rb_insert` turns a tree with a red node that may stand under a red node into a
red-black tree with the same entries. -/
namespace MySQL.Trees

open Library RedBlack RedBlack.Tree

variable {κ : Type} {m : Links (Element κ)} {ctx : List (Frame (Nat × Element κ))} {s : Side}
  {c : Colour} {x : Nat × Element κ} {near far : RedBlack.Tree (Nat × Element κ)} {n fuel : Nat}

theorem rotateTo_eq (s : Side) : rotateTo s = (Links.rotate s : Links (Element κ) → _) := by
  cases s <;> rfl

theorem sideOf_eq (h : Linked m (plug ctx (nodeOn s c x near far)))
    (hSome : near ≠ .nil ∨ far ≠ .nil) : sideOf m x.1 near.addr = s := by
  have hNe := h.addr_ne hSome
  rw [sideOf, h.cell]
  cases s with
  | left => exact if_pos rfl
  | right => exact if_neg hNe

variable {f : Frame (Nat × Element κ)} {t : RedBlack.Tree (Nat × Element κ)}

/-- The sibling as the tree in the hole. -/
theorem plug_sibling (g : RedBlack.Tree (Nat × Element κ)) : plug ({ f with sibling := g } :: ctx) t =
      plug (⟨f.side.other, f.colour, f.entry, t⟩ :: ctx) g := by
  simp only [plug, nodeOn_other]

/-- Give the root of a tree that is not a leaf another colour. -/
theorem setColour_sibling (h : Linked m (plug (f :: ctx) t)) (c' : Colour)
    (hSibling : f.sibling = nodeOn s c x near far) :
    Linked (m.setColour x.1 c') (plug ({ f with sibling := nodeOn s c' x near far } :: ctx) t) := by
  have hOld : plug (f :: ctx) t = plug (⟨f.side.other, f.colour, f.entry, t⟩ :: ctx)
      (nodeOn s c x near far) := by
    rw [← hSibling]
    exact plug_sibling f.sibling
  rw [plug_sibling]
  rw [hOld] at h
  exact h.setColour c'

def NearlyBalanced (t : RedBlack.Tree (Nat × Element κ)) : Prop := ∃ k, Balanced t.blacken k

theorem NearlyBalanced.plug (h : Fits ctx n) (ht : Balanced t n) (hBlack : t.colour = .black) :
    NearlyBalanced (plug ctx t) := by
  obtain ⟨k, hPlug, -⟩ := ht.plug h (by simp [hBlack]) fun _ => hBlack
  exact hPlug.blacken

def Rebalanced (m : Links (Element κ)) (entries : List (Nat × Element κ)) : Prop :=
  ∃ t, Linked m t ∧ t.entries = entries ∧ NearlyBalanced t

/-- Give the innermost node around the hole another colour. -/
theorem setColour_frame (h : Linked m (plug (f :: ctx) t)) (c' : Colour) :
    Linked (m.setColour f.entry.1 c') (plug ({ f with colour := c' } :: ctx) t) :=
  Linked.setColour (h) c'

variable {g : Frame (Nat × Element κ)}

/-- Give the next node around the hole another colour. -/
theorem setColour_frame₂ (h : Linked m (plug (f :: g :: ctx) t)) (c' : Colour) :
    Linked (m.setColour g.entry.1 c') (plug (f :: { g with colour := c' } :: ctx) t) :=
  setColour_frame (show Linked m (plug (g :: ctx) (nodeOn f.side f.colour f.entry t f.sibling)) from h)
    c'

theorem entries_frames_colour (f g : Frame (Nat × Element κ)) (c c' : Colour)
    (t : RedBlack.Tree (Nat × Element κ)) :
    (plug ({ f with colour := c } :: { g with colour := c' } :: ctx) t).entries =
      (plug (f :: g :: ctx) t).entries :=
  entries_plug_congr _ (entries_nodeOn_congr (entries_nodeOn_congr rfl rfl) rfl)

/-- The parent is red and the uncle black, and the node hangs on the outer side. -/
theorem rebalanced_outer (h : Linked m (plug (f :: g :: ctx) t)) (hSide : f.side = g.side)
    (ht : Balanced t n) (hf : Balanced f.sibling n) (hfBlack : f.sibling.colour = .black)
    (hg : Balanced g.sibling n) (hgBlack : g.sibling.colour = .black) (hCtx : Fits ctx (n + 1)) :
    Rebalanced
      (((m.setColour f.entry.1 .black).setColour g.entry.1 .red).rotate g.side.other (locOf ctx)
        g.entry.1)
      (plug (f :: g :: ctx) t).entries := by
  have hColoured := setColour_frame₂ (setColour_frame h .black) .red
  have hForm : plug ({ f with colour := .black } :: { g with colour := .red } :: ctx) t =
      plug ctx (nodeOn g.side.other .red g.entry g.sibling
        (nodeOn g.side.other .black f.entry f.sibling t)) := by
    simp only [plug, nodeOn_other, hSide]
  rw [← entries_frames_colour f g .black .red, hForm]
  rw [hForm] at hColoured
  refine ⟨_, hColoured.rotate, ?_, ?_⟩
  · exact entries_plug_congr _ (entries_rotate ..)
  · refine NearlyBalanced.plug hCtx ?_ (by simp)
    exact .blackOn _ (.redOn _ hg hf hgBlack hfBlack) ht

/-- The parent is red and the uncle black, and the node hangs on the inner side: a rotation
makes the parent the outer child of the node. -/
theorem rebalanced_inner (h : Linked m (plug (f :: g :: ctx) (nodeOn g.side .red x near far)))
    (hSide : f.side = g.side.other) (hColour : f.colour = .red) (hNear : Balanced near n)
    (hNearBlack : near.colour = .black) (hFar : Balanced far n) (hFarBlack : far.colour = .black)
    (hf : Balanced f.sibling n) (hfBlack : f.sibling.colour = .black) (hg : Balanced g.sibling n)
    (hgBlack : g.sibling.colour = .black) (hCtx : Fits ctx (n + 1)) : Rebalanced
      ((((m.rotate g.side (locOf (g :: ctx)) f.entry.1).setColour x.1 .black).setColour g.entry.1
        .red).rotate g.side.other (locOf ctx) g.entry.1)
      (plug (f :: g :: ctx) (nodeOn g.side .red x near far)).entries := by
  have hForm : plug (f :: g :: ctx) (nodeOn g.side .red x near far) =
      plug (g :: ctx) (nodeOn g.side .red f.entry f.sibling (nodeOn g.side .red x near far)) := by
    rw [plug, hSide, hColour, nodeOn_other]
  rw [hForm] at h ⊢
  have hRotated := h.rotate
  have hEntries : (plug (g :: ctx) (nodeOn g.side .red x
      (nodeOn g.side .red f.entry f.sibling near) far)).entries = _ :=
    entries_plug_congr _ (entries_rotate g.side .red .red .red .red f.entry x f.sibling near far)
  -- now `x` is the parent, and its near child the red node on the outer side
  have hOuter := rebalanced_outer (f := ⟨g.side, .red, x, far⟩) hRotated rfl
    (.redOn g.side hf hNear hfBlack hNearBlack) hFar hFarBlack hg hgBlack hCtx
  exact hEntries ▸ hOuter

/-- The parent and the uncle are red: both become black, and the grandparent red. -/
theorem recolour (h : Linked m (plug (f :: g :: ctx) t)) (hUncle : g.sibling.colour = .red)
    (ht : Balanced t n) (hf : Balanced f.sibling n) (hg : Balanced g.sibling n) :
    ∃ near far, Linked (((m.setColour f.entry.1 .black).setColour g.sibling.addr .black).setColour
        g.entry.1 .red) (plug ctx (nodeOn g.side .red g.entry near far)) ∧
      (plug ctx (nodeOn g.side .red g.entry near far)).entries = (plug (f :: g :: ctx) t).entries ∧
      Balanced near (n + 1) ∧ near.colour = .black ∧ Balanced far (n + 1) ∧ far.colour = .black := by
  obtain ⟨y, yl, yr, hy⟩ := exists_nodeOn_of_red .left hUncle
  have hPar : Linked (m.setColour f.entry.1 .black)
      (plug (g :: ctx) (nodeOn f.side .black f.entry t f.sibling)) :=
    setColour_frame h .black
  have hBoth := setColour_sibling hPar .black hy
  have hAll := setColour_frame hBoth .red
  obtain ⟨hyl, hyr, -, -⟩ := (hy ▸ hg).of_redOn
  have hAddr : g.sibling.addr = y.1 := by rw [hy, addr_nodeOn]
  rw [hAddr]
  refine ⟨nodeOn f.side .black f.entry t f.sibling, nodeOn .left .black y yl yr, hAll, ?_,
    .blackOn f.side ht hf, by simp, .blackOn .left hyl hyr, by simp⟩
  refine entries_plug_congr _ (entries_nodeOn_congr (entries_nodeOn_congr rfl rfl) ?_)
  rw [hy]
  exact entries_nodeOn_congr rfl rfl

/-- The loop stops under a black node. -/
theorem rbInsertLoop_black (fuel : Nat) (h : Linked m (plug (f :: ctx) t))
    (hColour : f.colour = .black) :
    rbInsertLoop (fuel + 1) m (locs (f :: ctx)) t.addr = some m := by
  obtain ⟨hPar, hCell, -⟩ := h.above
  obtain ⟨above, hLocs⟩ := locs_eq ctx
  have hBlack : m.colour f.entry.1 = .black := by rw [Links.colour, hCell, cellOn_colour, hColour]
  rw [locs, hLocs, rbInsertLoop, if_neg h.root_ne]
  simp only [hPar, hBlack, if_true]

/-- One round of the loop under a red node. -/
theorem rbInsertLoop_red (fuel : Nat) (h : Linked m (plug (f :: g :: ctx) t))
    (hColour : f.colour = .red) (ht : t ≠ .nil) :
    rbInsertLoop (fuel + 1) m (locs (f :: g :: ctx)) t.addr =
      if g.sibling.colour = .red then
        rbInsertLoop fuel
          (((m.setColour f.entry.1 .black).setColour g.sibling.addr .black).setColour g.entry.1 .red)
          (locs ctx) g.entry.1
      else if f.side = g.side then
        some (((m.setColour f.entry.1 .black).setColour g.entry.1 .red).rotate g.side.other
          (locOf ctx) g.entry.1)
      else
        some ((((m.rotate g.side (locOf (g :: ctx)) f.entry.1).setColour t.addr .black).setColour
          g.entry.1 .red).rotate g.side.other (locOf ctx) g.entry.1) := by
  have hUp : Linked m (plug (g :: ctx) (nodeOn f.side f.colour f.entry t f.sibling)) := h
  obtain ⟨hPar, hCell, -⟩ := h.above
  obtain ⟨hPar₂, hCell₂, hUncle⟩ := hUp.above
  obtain ⟨above, hLocs⟩ := locs_eq ctx
  have hRed : m.colour f.entry.1 ≠ .black := by
    rw [Links.colour, hCell, cellOn_colour, hColour]
    simp
  have hNe : t.addr ≠ f.sibling.addr := Linked.addr_ne hUp (.inl ht)
  have hSide : sideOf m g.entry.1 f.entry.1 = g.side := by
    have hEq := sideOf_eq (show Linked m (plug ctx (nodeOn g.side g.colour g.entry
      (nodeOn f.side f.colour f.entry t f.sibling) g.sibling)) from h) (.inl (by
        cases f.side <;> simp [nodeOn]))
    rwa [addr_nodeOn] at hEq
  have hChild : (t.addr = (m.cells f.entry.1).child g.side.other) ↔ f.side ≠ g.side := by
    rw [hCell]
    cases f.side <;> cases g.side <;> simp [cellOn, Cell.child, Side.other, hNe]
  have hLoc : locOf (g :: ctx) = .child g.side g.entry.1 := rfl
  rw [locs, locs, hLocs, rbInsertLoop, if_neg h.root_ne]
  simp only [← hLoc, hPar, hPar₂, hRed, if_false, hSide, rotateTo_eq]
  rw [hCell₂, cellOn_child_other, hUncle]
  split
  · rfl
  · by_cases hSame : f.side = g.side
    · rw [if_neg (by rw [hChild]; simpa using hSame), if_pos hSame]
    · rw [if_pos (hChild.mpr hSame), if_neg hSame]

theorem rbInsertLoop_spec (h : Linked m (plug ctx (nodeOn s .red x near far)))
    (hFits : Fits ctx n) (hNear : Balanced near n) (hNearBlack : near.colour = .black)
    (hFar : Balanced far n) (hFarBlack : far.colour = .black) (hFuel : ctx.length < fuel) :
    ∃ m', rbInsertLoop fuel m (locs ctx) x.1 = some m' ∧
      Rebalanced m' (plug ctx (nodeOn s .red x near far)).entries := by
  induction fuel generalizing m ctx s x near far n with
  | zero => omega
  | succ fuel ih =>
    have hx : Balanced (nodeOn s .red x near far) n :=
      .redOn s hNear hFar hNearBlack hFarBlack
    cases hFits with
    | root n =>
      have hRoot : x.1 = m.root := by rw [h.root, plug, addr_nodeOn]
      exact ⟨m, if_pos hRoot, _, h, rfl, hx.blacken⟩
    | @black f rest n hColour hSibling hRest =>
      have hLoop := rbInsertLoop_black fuel h hColour
      rw [addr_nodeOn] at hLoop
      obtain ⟨k, hPlug, -⟩ := hx.plug (.black hColour hSibling hRest) (fun _ => hColour) (by simp)
      exact ⟨m, hLoop, _, h, rfl, hPlug.blacken⟩
    | @red f rest n hColour hSibling hSiblingBlack hRest hRestBlack hSome =>
      obtain ⟨g, above, rfl⟩ := List.exists_cons_of_ne_nil hSome
      cases hRest with
      | red hRed => exact absurd (hRed.symm.trans hRestBlack) (by simp)
      | black hBlack hUncle hAbove =>
        have hLoop := rbInsertLoop_red fuel h hColour (by cases s <;> simp [nodeOn])
        rw [addr_nodeOn] at hLoop
        rw [hLoop]
        cases hUncleColour : g.sibling.colour with
        | red =>
          obtain ⟨near', far', hLinked, hEntries, hNear', hNearBlack', hFar', hFarBlack'⟩ :=
            recolour h hUncleColour hx hSibling hUncle
          rw [if_pos rfl, ← hEntries]
          exact ih hLinked hAbove hNear' hNearBlack' hFar' hFarBlack' (by
            simp only [List.length_cons] at hFuel
            omega)
        | black =>
          rw [if_neg (by simp)]
          by_cases hSide : f.side = g.side
          · rw [if_pos hSide]
            exact ⟨_, rfl, rebalanced_outer h hSide hx hSibling hSiblingBlack hUncle
              hUncleColour hAbove⟩
          · rw [if_neg hSide]
            have hOther : f.side = g.side.other := by
              cases hf : f.side <;> cases hg : g.side <;> simp_all [Side.other]
            by_cases hs : s = g.side
            · subst hs
              exact ⟨_, rfl, rebalanced_inner h hOther hColour hNear hNearBlack hFar
                hFarBlack hSibling hSiblingBlack hUncle hUncleColour hAbove⟩
            · have hSwap : nodeOn s .red x near far = nodeOn g.side .red x far near := by
                cases s <;> cases hg : g.side <;> simp_all [nodeOn]
              rw [hSwap] at h ⊢
              exact ⟨_, rfl, rebalanced_inner h hOther hColour hFar hFarBlack hNear
                hNearBlack hSibling hSiblingBlack hUncle hUncleColour hAbove⟩

theorem length_locs (ctx : List (Frame (Nat × Element κ))) : (locs ctx).length = ctx.length + 1 := by
  induction ctx with
  | nil => rfl
  | cons f rest ih => rw [locs, List.length_cons, ih, List.length_cons]

def Holds (m : Links (Element κ)) (entries : List (Nat × Element κ)) : Prop :=
  ∃ t, Linked m t ∧ t.entries = entries ∧ (∃ k, Balanced t k) ∧ t.colour = .black

/-- Making the root black completes the rebalancing. -/
theorem Rebalanced.blackenRoot {entries : List (Nat × Element κ)} (h : Rebalanced m entries)
    (hSome : entries ≠ []) : Holds (m.setColour m.root .black) entries := by
  obtain ⟨t, hLinked, hEntries, hBalanced⟩ := h
  cases t with
  | nil => exact absurd hEntries.symm hSome
  | node c y l r =>
    have hRoot : m.root = y.1 := hLinked.root
    have hBlack : Linked (m.setColour y.1 .black) (plug [] (nodeOn .left .black y l r)) :=
      Linked.setColour (hLinked) .black
    exact ⟨.node .black y l r, hRoot ▸ hBlack, hEntries, hBalanced, rfl⟩

/-- `rb_insert` on a new node without children. -/
theorem rbInsert_spec (h : Linked m (plug ctx (.node c x .nil .nil))) (hFits : Fits ctx 0) :
    ∃ m', rbInsert m (locs ctx) x.1 = some m' ∧
      Holds m' (plug ctx (.node c x .nil .nil)).entries := by
  have hRed : Linked (m.setColour x.1 .red) (plug ctx (nodeOn .left .red x .nil .nil)) :=
    Linked.setColour (h) .red
  have hFuel : ctx.length < (locs ctx).length + 1 := by
    rw [length_locs]
    omega
  obtain ⟨m', hLoop, hRebalanced⟩ := rbInsertLoop_spec hRed hFits .nil rfl .nil rfl hFuel
  have hEntries : (plug ctx (nodeOn .left .red x .nil .nil)).entries =
      (plug ctx (.node c x .nil .nil)).entries :=
    entries_plug_congr _ (entries_nodeOn_colour .left .red c x .nil .nil)
  rw [hEntries] at hRebalanced
  refine ⟨m'.setColour m'.root .black, by rw [rbInsert, hLoop]; rfl,
    hRebalanced.blackenRoot fun hNil => ?_⟩
  simp [entries_plug, entries] at hNil

end MySQL.Trees
