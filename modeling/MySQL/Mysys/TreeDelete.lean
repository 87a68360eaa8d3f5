import MySQL.Mysys.TreeInsert

/-! `rb_delete_fixup` turns a tree that lacks one black node on the way to a hole into a
red-black tree with the same entries. -/
namespace MySQL.Trees

open Library RedBlack RedBlack.Tree

variable {κ : Type} {m : Links (Element κ)} {ctx : List (Frame (Nat × Element κ))}
  {f : Frame (Nat × Element κ)} {w : Nat × Element κ}
  {t a b : RedBlack.Tree (Nat × Element κ)} {n fuel : Nat}

section
variable (h : Linked m (plug (f :: ctx) t))
include h

/-- The red sibling takes the place of the parent, and its near child is the sibling then. -/
theorem redSibling_spec (hw : f.sibling = nodeOn f.side .red w a b) :
    ∃ m', redSibling f.side m (locOf ctx) f.entry.1 w.1 = (m', .child f.side w.1, a.addr) ∧
      Linked m' (plug (⟨f.side, .red, f.entry, a⟩ :: ⟨f.side, .black, w, b⟩ :: ctx) t) ∧
      (plug (⟨f.side, .red, f.entry, a⟩ :: ⟨f.side, .black, w, b⟩ :: ctx) t).entries =
        (plug (f :: ctx) t).entries := by
  have hColoured := setColour_frame (setColour_sibling h .black hw) .red
  have hRotated : Linked _ (plug (⟨f.side, .red, f.entry, a⟩ :: ⟨f.side, .black, w, b⟩ :: ctx) t) :=
    Linked.rotate (show Linked _ (plug ctx (nodeOn f.side .red f.entry t
      (nodeOn f.side .black w a b))) from hColoured)
  refine ⟨_, ?_, hRotated, ?_⟩
  · obtain ⟨-, hCell, -⟩ := hRotated.above
    simp only [redSibling, rotateTo_eq]
    rw [hCell, cellOn_child_other]
  · refine entries_plug_congr ctx ?_
    rw [entries_rotate f.side .black .red .red .black, hw]
    exact entries_nodeOn_congr rfl (entries_nodeOn_congr rfl rfl)

/-- What `blackSibling` reads. -/
theorem blackSibling_colours (hw : f.sibling = nodeOn f.side .black w a b) :
    m.cells w.1 = cellOn f.side a.addr b.addr .black w.2 ∧ m.colour a.addr = a.colour ∧
      m.colour b.addr = b.colour := by
  obtain ⟨-, ⟨-, hSibling, -⟩, -, -, hLeaf⟩ := linked_plug.mp h
  rw [hw] at hSibling
  obtain ⟨hCell, ha, hb⟩ := stored_nodeOn.mp hSibling
  exact ⟨hCell, Linked.colour_of_stored ha hLeaf, Linked.colour_of_stored hb hLeaf⟩

/-- Both children of the black sibling are black: it becomes red. -/
theorem blackSibling_black (hw : f.sibling = nodeOn f.side .black w a b) (ha : a.colour = .black)
    (hb : b.colour = .black) :
    blackSibling f.side m (locOf ctx) f.entry.1 w.1 = (m.setColour w.1 .red, false) ∧
      Linked (m.setColour w.1 .red)
        (plug ctx (nodeOn f.side f.colour f.entry t (nodeOn f.side .red w a b))) := by
  obtain ⟨hCell, hColourA, hColourB⟩ := blackSibling_colours h hw
  refine ⟨?_, setColour_sibling h .red hw⟩
  rw [blackSibling, if_pos]
  rw [hCell]
  cases f.side <;> simp [cellOn, hColourA, hColourB, ha, hb]

/-- The far child of the sibling is red: one rotation completes the tree. -/
theorem closeGap_spec {c : Colour} (hw : f.sibling = nodeOn f.side c w a b) {y : Nat × Element κ}
    {d e : RedBlack.Tree (Nat × Element κ)} (hb : b = nodeOn f.side .red y d e) :
    Linked (closeGap f.side m (locOf ctx) f.entry.1 w.1)
        (plug ctx (nodeOn f.side f.colour w (nodeOn f.side .black f.entry t a)
          (nodeOn f.side .black y d e))) := by
  obtain ⟨-, hCell, -⟩ := h.above
  have hColour : m.colour f.entry.1 = f.colour := by rw [Links.colour, hCell, cellOn_colour]
  have hSibling := setColour_sibling h f.colour hw
  have hBoth : Linked _ (plug (⟨f.side, .black, f.entry, nodeOn f.side f.colour w a b⟩ :: ctx) t) :=
    setColour_frame hSibling .black
  -- the sibling as the node around its far child
  have hHole : plug (⟨f.side, .black, f.entry, nodeOn f.side f.colour w a b⟩ :: ctx) t =
      plug (⟨f.side.other, f.colour, w, a⟩ :: ⟨f.side.other, .black, f.entry, t⟩ :: ctx) b := by
    simp only [plug, nodeOn_other]
  rw [hHole, hb] at hBoth
  have hFar := hBoth.setColour .black
  obtain ⟨-, hCellW, -⟩ := hBoth.above
  have hForm : plug (⟨f.side.other, f.colour, w, a⟩ :: ⟨f.side.other, .black, f.entry, t⟩ :: ctx)
      (nodeOn f.side .black y d e) = plug ctx (nodeOn f.side .black f.entry t
        (nodeOn f.side f.colour w a (nodeOn f.side .black y d e))) := by
    simp only [plug, nodeOn_other]
  rw [hForm] at hFar
  have hRotated := hFar.rotate
  simp only [closeGap, rotateTo_eq]
  rw [hColour]
  simp only at hCellW
  rw [hCellW, cellOn_child, addr_nodeOn]
  exact hRotated

/-- The near child of the black sibling is red: a rotation puts it in the sibling's place. -/
theorem rotate_sibling {c : Colour} (hw : f.sibling = nodeOn f.side c w a b) {y : Nat × Element κ}
    {d e : RedBlack.Tree (Nat × Element κ)} (ha : a = nodeOn f.side .red y d e) :
    Linked (((m.setColour y.1 .black).setColour w.1 .red).rotate f.side.other
        (.child f.side.other f.entry.1) w.1)
      (plug ({ f with sibling := nodeOn f.side .black y d (nodeOn f.side .red w e b) } :: ctx) t) := by
  have hOld : plug (f :: ctx) t =
      plug (⟨f.side, c, w, b⟩ :: ⟨f.side.other, f.colour, f.entry, t⟩ :: ctx)
        (nodeOn f.side .red y d e) := by
    rw [← ha]
    exact (congrArg (fun g => plug (⟨f.side, f.colour, f.entry, g⟩ :: ctx) t) hw).trans (plug_sibling _)
  rw [hOld] at h
  have hColoured := setColour_frame (h.setColour .black) .red
  have hForm : plug (⟨f.side, .red, w, b⟩ :: ⟨f.side.other, f.colour, f.entry, t⟩ :: ctx)
      (nodeOn f.side .black y d e) = plug (⟨f.side.other, f.colour, f.entry, t⟩ :: ctx)
          (nodeOn f.side.other .red w b (nodeOn f.side.other .black y e d)) := by
    simp only [plug, nodeOn_other]
  have hRotated := (hForm ▸ hColoured).rotate
  rw [plug_sibling]
  simpa only [nodeOn_other, locOf] using hRotated

/-- A child of the black sibling is red: the tree is complete, with a black node more on
the side of the hole. -/
theorem blackSibling_red (hw : f.sibling = nodeOn f.side .black w a b) (ht : Balanced t n)
    (ha : Balanced a n) (hb : Balanced b n) (hRed : ¬(a.colour = .black ∧ b.colour = .black)) :
    ∃ m' x near far, blackSibling f.side m (locOf ctx) f.entry.1 w.1 = (m', true) ∧
      Linked m' (plug ctx (nodeOn f.side f.colour x near far)) ∧
      (nodeOn f.side f.colour x near far).entries =
        (nodeOn f.side f.colour f.entry t f.sibling).entries ∧
      Balanced near (n + 1) ∧ near.colour = .black ∧ Balanced far (n + 1) ∧ far.colour = .black := by
  obtain ⟨hCell, hColourA, hColourB⟩ := blackSibling_colours h hw
  have hFirst :
      ¬(m.colour (m.cells w.1).left = .black ∧ m.colour (m.cells w.1).right = .black) := by
    rw [hCell]
    cases f.side with
    | left => simpa [cellOn, hColourA, hColourB] using hRed
    | right => simpa [cellOn, hColourA, hColourB, and_comm] using hRed
  cases hColour : b.colour with
  | red =>
    obtain ⟨y, d, e, hy⟩ := exists_nodeOn_of_red f.side hColour
    obtain ⟨hd, he, -, -⟩ := (hy ▸ hb).of_redOn
    refine ⟨_, w, _, _, ?_, closeGap_spec h hw hy, ?_, .blackOn _ ht ha, by simp,
      .blackOn _ hd he, by simp⟩
    · rw [blackSibling, if_neg hFirst, hCell, cellOn_child_other, hColourB, hColour,
        if_neg (by simp)]
    · rw [entries_rotate f.side f.colour .black f.colour .black, hw, hy]
      exact entries_nodeOn_congr rfl (entries_nodeOn_congr rfl (entries_nodeOn_congr rfl rfl))
  | black =>
    have hNear : a.colour = .red := by
      cases hc : a.colour with
      | red => rfl
      | black => exact absurd ⟨hc, hColour⟩ hRed
    obtain ⟨y, d, e, hy⟩ := exists_nodeOn_of_red f.side hNear
    obtain ⟨hd, he, -, -⟩ := (hy ▸ ha).of_redOn
    have hRotated := rotate_sibling h hw hy
    refine ⟨_, y, _, _, ?_, closeGap_spec hRotated rfl rfl, ?_, .blackOn _ ht hd, by simp,
      .blackOn _ he hb, by simp⟩
    · obtain ⟨-, hCellF, -⟩ := hRotated.above
      have hAddr : a.addr = y.1 := by rw [hy, addr_nodeOn]
      rw [blackSibling, if_neg hFirst, hCell, cellOn_child_other, hColourB, hColour,
        if_pos rfl, cellOn_child, hAddr, rotateTo_eq]
      simp only [hCellF, cellOn_child_other, addr_nodeOn]
    · rw [hw, hy]
      cases f.side <;> simp [nodeOn, entries]

end

/-- The tree lacks a black node: a black tree has `n` of them, a red one `n + 1` once it is
black. -/
def Deficient (t : RedBlack.Tree (Nat × Element κ)) (n : Nat) : Prop :=
  match t.colour with
  | .black => Balanced t n
  | .red => Balanced t.blacken (n + 1)

/-- Making the tree in the hole black completes the tree. -/
theorem holds_blacken (h : Linked m (plug ctx t)) (hFits : Fits ctx n) (ht : Balanced t.blacken n) :
    Holds (m.setColour t.addr .black) (plug ctx t).entries := by
  obtain ⟨k, hPlug, hBlack⟩ := ht.plug hFits (by cases t <;> simp [blacken, colour])
    fun _ => by cases t <;> rfl
  refine ⟨plug ctx t.blacken, ?_, entries_plug_congr _ (entries_blacken t), ⟨k, hPlug⟩, hBlack⟩
  cases t with
  | nil => exact h.blackenLeaf
  | node c x l r =>
    exact Linked.setColour (show Linked m (plug ctx (nodeOn .left c x l r)) from h) .black

/-- A complete tree in the place of the hole and the node above it. -/
theorem holds_complete {x : Nat × Element κ} {near far : RedBlack.Tree (Nat × Element κ)}
    (h : Linked m (plug ctx (nodeOn f.side f.colour x near far))) (hFits : Fits (f :: ctx) n)
    (hNear : Balanced near n) (hNearBlack : near.colour = .black) (hFar : Balanced far n)
    (hFarBlack : far.colour = .black) :
    Holds (m.setColour m.root .black) (plug ctx (nodeOn f.side f.colour x near far)).entries := by
  have hFits' : Fits (⟨f.side, f.colour, x, far⟩ :: ctx) n := by
    cases hFits with
    | black hColour _ hRest => exact .black hColour hFar hRest
    | red hColour _ _ hRest hRestBlack hSome =>
      exact .red hColour hFar hFarBlack hRest hRestBlack hSome
  obtain ⟨k, hPlug, hBlack⟩ := hNear.plug hFits' (by simp [hNearBlack]) (by simp)
  refine Rebalanced.blackenRoot ⟨_, h, rfl, hPlug.blacken⟩ fun hNil => ?_
  simp [entries_plug, entries_nodeOn_ne_nil] at hNil

/-- The loop stops at the root and at a red node. -/
theorem rbDeleteLoop_stop (fuel : Nat) (h : Linked m (plug ctx t)) (hFits : Fits ctx (n + 1))
    (ht : Deficient t n) (hStop : ctx = [] ∨ t.colour = .red) (parents : List Loc) :
    rbDeleteLoop (fuel + 1) m parents t.addr = some (m, t.addr) ∧
      Holds (m.setColour t.addr .black) (plug ctx t).entries := by
  constructor
  · refine if_pos (hStop.imp ?_ ?_)
    · rintro rfl
      exact h.root.symm
    · exact fun hRed => h.colour.trans hRed
  · cases hColour : t.colour with
    | red =>
      rw [Deficient, hColour] at ht
      exact holds_blacken h hFits ht
    | black =>
      rw [Deficient, hColour] at ht
      have hNil : ctx = [] := hStop.resolve_right (by simp [hColour])
      subst hNil
      obtain ⟨k, hk⟩ := ht.blacken
      exact holds_blacken h (.root k) hk

/-- One round of the loop. -/
theorem rbDeleteLoop_round (fuel : Nat) (h : Linked m (plug (f :: ctx) t))
    (ht : t.colour = .black) (hSibling : f.sibling ≠ .nil) :
    rbDeleteLoop (fuel + 1) m (locs (f :: ctx)) t.addr =
      if f.sibling.colour = .red then
        let (m, parent₀, w) := redSibling f.side m (locOf ctx) f.entry.1 f.sibling.addr
        match blackSibling f.side m parent₀ f.entry.1 w with
        | (m, true) => some (m, m.root)
        | (m, false) => rbDeleteLoop fuel m (parent₀ :: locs ctx) f.entry.1
      else
        match blackSibling f.side m (locOf ctx) f.entry.1 f.sibling.addr with
        | (m, true) => some (m, m.root)
        | (m, false) => rbDeleteLoop fuel m (locs ctx) f.entry.1 := by
  obtain ⟨hPar, hCell, hColour⟩ := h.above
  obtain ⟨rest, hLocs⟩ := locs_eq ctx
  have hSide : sideOf m f.entry.1 t.addr = f.side :=
    sideOf_eq (h)
      (.inr hSibling)
  have hGo : ¬(t.addr = m.root ∨ m.colour t.addr = .red) := by
    rw [h.colour, ht]
    simpa using h.root_ne
  rw [locs, hLocs, rbDeleteLoop, if_neg hGo]
  apply Eq.trans
  · simp only [hPar, hSide, hCell, cellOn_child_other, hColour]
    rfl
  · rfl

/-- The sibling has become red, with two black children: the node above, which lacks a black
node, is the new focus. -/
theorem deficient_recoloured (ht : Balanced t n) (ha : Balanced a n) (haBlack : a.colour = .black)
    (hb : Balanced b n) (hbBlack : b.colour = .black) (hFits : Fits (f :: ctx) (n + 1)) :
    ∃ k, Fits ctx (k + 1) ∧
      Deficient (nodeOn f.side f.colour f.entry t (nodeOn f.side .red w a b)) k := by
  have hw : Balanced (nodeOn f.side .red w a b) n := .redOn f.side ha hb haBlack hbBlack
  cases hFits with
  | black hColour _ hRest =>
    refine ⟨n + 1, hRest, ?_⟩
    rw [Deficient, colour_nodeOn, hColour]
    exact .blackOn f.side ht hw
  | red hColour _ _ hRest _ _ =>
    refine ⟨n, hRest, ?_⟩
    rw [Deficient, colour_nodeOn, hColour, blacken_nodeOn]
    exact .blackOn f.side ht hw

/-- What a black sibling leads to: the tree is complete, or the node above lacks a black
node. -/
theorem blackSibling_spec (h : Linked m (plug (f :: ctx) t)) (hFits : Fits (f :: ctx) (n + 1))
    (ht : Balanced t n) (hBlack : f.sibling.colour = .black) :
    (∃ m', blackSibling f.side m (locOf ctx) f.entry.1 f.sibling.addr = (m', true) ∧
      Holds (m'.setColour m'.root .black) (plug (f :: ctx) t).entries) ∨
    ∃ m' t' k, blackSibling f.side m (locOf ctx) f.entry.1 f.sibling.addr = (m', false) ∧
      Linked m' (plug ctx t') ∧ t'.addr = f.entry.1 ∧ t'.colour = f.colour ∧
      (plug ctx t').entries = (plug (f :: ctx) t).entries ∧ Fits ctx (k + 1) ∧
      Deficient t' k := by
  have hSibling : Balanced f.sibling (n + 1) := by cases hFits <;> assumption
  obtain ⟨c, w, a, b, hw⟩ := exists_nodeOn f.side hSibling.ne_nil
  obtain rfl : c = .black := by rw [← hBlack, hw, colour_nodeOn]
  obtain ⟨_, ⟨⟩, ha, hb⟩ := (hw ▸ hSibling).of_blackOn
  have hAddr : f.sibling.addr = w.1 := by rw [hw, addr_nodeOn]
  rw [hAddr]
  by_cases hChildren : a.colour = .black ∧ b.colour = .black
  · obtain ⟨hStep, hLinked⟩ := blackSibling_black h hw hChildren.1 hChildren.2
    obtain ⟨k, hRest, hDeficient⟩ :=
      deficient_recoloured ht ha hChildren.1 hb hChildren.2 hFits
    refine .inr ⟨_, _, k, hStep, hLinked, addr_nodeOn .., colour_nodeOn .., ?_, hRest, hDeficient⟩
    refine entries_plug_congr ctx (entries_nodeOn_congr rfl ?_)
    rw [hw]
    exact entries_nodeOn_congr rfl rfl
  · obtain ⟨m', x, near, far, hStep, hLinked, hEntries, hNear, hNearBlack, hFar, hFarBlack⟩ :=
      blackSibling_red h hw ht ha hb hChildren
    have hHolds := holds_complete hLinked hFits hNear hNearBlack hFar hFarBlack
    rw [entries_plug_congr _ hEntries] at hHolds
    exact .inl ⟨m', hStep, hHolds⟩

/-- The part around the hole after `redSibling`. -/
theorem fits_redSibling (hFits : Fits (f :: ctx) (n + 1))
    (hw : f.sibling = nodeOn f.side .red w a b) :
    a.colour = .black ∧
      Fits (⟨f.side, .red, f.entry, a⟩ :: ⟨f.side, .black, w, b⟩ :: ctx) (n + 1) := by
  cases hFits with
  | black _ hSibling hRest =>
    obtain ⟨ha, hb, haBlack, -⟩ := (hw ▸ hSibling).of_redOn
    exact ⟨haBlack, .red rfl ha haBlack (.black rfl hb hRest) rfl (by simp)⟩
  | red _ _ hSiblingBlack => simp [hw] at hSiblingBlack

section
variable (h : Linked m (plug ctx t)) (hFits : Fits ctx (n + 1)) (ht : Deficient t n)
include h hFits ht

theorem rbDeleteLoop_spec (hFuel : ctx.length < fuel) :
    ∃ m' x, rbDeleteLoop fuel m (locs ctx) t.addr = some (m', x) ∧
      Holds (m'.setColour x .black) (plug ctx t).entries := by
  induction fuel generalizing m ctx t n with
  | zero => omega
  | succ fuel ih =>
    by_cases hStop : ctx = [] ∨ t.colour = .red
    · obtain ⟨hLoop, hHolds⟩ := rbDeleteLoop_stop fuel h hFits ht hStop _
      exact ⟨m, _, hLoop, hHolds⟩
    obtain ⟨hSome, hNotRed⟩ := not_or.mp hStop
    obtain ⟨f, rest, rfl⟩ := List.exists_cons_of_ne_nil hSome
    have hBlack : t.colour = .black := by cases hc : t.colour <;> simp_all
    have htBalanced : Balanced t n := by rwa [Deficient, hBlack] at ht
    have hSibling : f.sibling ≠ .nil := by cases hFits <;> exact Balanced.ne_nil (by assumption)
    rw [List.length_cons] at hFuel
    rw [rbDeleteLoop_round fuel h hBlack hSibling]
    cases hColour : f.sibling.colour with
    | black =>
      rw [if_neg (by simp)]
      obtain ⟨m', hStep, hHolds⟩ | ⟨m', t', k, hStep, hLinked, hAddr, -, hEntries, hRest, hDef⟩ :=
        blackSibling_spec h hFits htBalanced hColour
      · exact ⟨m', m'.root, by rw [hStep], hHolds⟩
      · rw [hStep, ← hAddr, ← hEntries]
        exact ih hLinked hRest hDef (by omega)
    | red =>
      obtain ⟨w, a, b, hw⟩ := exists_nodeOn_of_red f.side hColour
      obtain ⟨haBlack, hFits'⟩ := fits_redSibling hFits hw
      obtain ⟨m₁, hRed, hLinked₁, hEntries₁⟩ := redSibling_spec h hw
      have hAddr : f.sibling.addr = w.1 := by rw [hw, addr_nodeOn]
      rw [if_pos rfl, hAddr, hRed, ← hEntries₁]
      obtain ⟨m', hStep, hHolds⟩ |
        ⟨m', t', k, hStep, hLinked, hAddr', hColour', hEntries, hRest, hDef⟩ :=
        blackSibling_spec hLinked₁ hFits' htBalanced haBlack
      · exact ⟨m', m'.root, by simp only [locOf] at hStep; simp only [hStep], hHolds⟩
      · -- the node above the hole is red now, and the loop stops at it
        obtain ⟨fuel, rfl⟩ : ∃ k, fuel = k + 1 := ⟨fuel - 1, by omega⟩
        obtain ⟨hLoop, hHolds'⟩ := rbDeleteLoop_stop fuel hLinked hRest hDef (.inr hColour')
          (.child f.side w.1 :: locs rest)
        refine ⟨m', t'.addr, ?_, hEntries ▸ hHolds'⟩
        simp only [locOf] at hStep
        simp only [hStep]
        rw [← hAddr', hLoop]

theorem rbDeleteFixup_spec :
    ∃ m', rbDeleteFixup m (locs ctx) = some m' ∧ Holds m' (plug ctx t).entries := by
  obtain ⟨rest, hLocs⟩ := locs_eq ctx
  have hFuel : ctx.length < (locs ctx).length + 1 := by
    rw [length_locs]
    omega
  obtain ⟨m', x, hLoop, hHolds⟩ := rbDeleteLoop_spec h hFits ht hFuel
  refine ⟨m'.setColour x .black, ?_, hHolds⟩
  rw [hLocs] at hLoop ⊢
  rw [rbDeleteFixup, h.get, hLoop]
  rfl

end

end MySQL.Trees
