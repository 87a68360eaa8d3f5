import Mathlib

/-! Red-black trees and trees with a hole. A node is built from the child on a given side
and the other one, so that what holds on one side is not stated again for the other. -/
namespace Library.RedBlack

universe u
variable {ε : Type u}

inductive Side where
  | left
  | right
  deriving DecidableEq

def Side.other : Side → Side
  | .left => .right
  | .right => .left

inductive Colour where
  | red
  | black
  deriving DecidableEq

inductive Tree (ε : Type u) where
  | nil
  | node (colour : Colour) (entry : ε) (left right : Tree ε)

namespace Tree

/-- A node with child `near` on side `s` and child `far` on the other side. -/
def nodeOn (s : Side) (c : Colour) (x : ε) (near far : Tree ε) : Tree ε :=
  match s with
  | .left => node c x near far
  | .right => node c x far near

section
variable (s : Side) (c : Colour) (x : ε) (near far : Tree ε)

theorem nodeOn_other :
    nodeOn s.other c x near far = nodeOn s c x far near := by
  cases s <;> rfl

def colour : Tree ε → Colour
  | nil => .black
  | node c _ _ _ => c

@[simp] theorem colour_nodeOn :
    (nodeOn s c x near far).colour = c := by
  cases s <;> rfl

/-- The entries in order. -/
def entries : Tree ε → List ε
  | nil => []
  | node _ x l r => l.entries ++ x :: r.entries

def blacken : Tree ε → Tree ε
  | nil => nil
  | node _ x l r => node .black x l r

theorem blacken_nodeOn :
    (nodeOn s c x near far).blacken = nodeOn s .black x near far := by
  cases s <;> rfl

end

@[simp] theorem entries_blacken (t : Tree ε) : t.blacken.entries = t.entries := by
  cases t <;> rfl

theorem entries_nodeOn_colour (s : Side) (c c' : Colour) (x : ε) (near far : Tree ε) :
    (nodeOn s c x near far).entries = (nodeOn s c' x near far).entries := by
  cases s <;> rfl

theorem entries_rotate (s : Side) (c₁ c₂ c₃ c₄ : Colour) (x y : ε) (a b d : Tree ε) :
    (nodeOn s c₁ y (nodeOn s c₂ x a b) d).entries =
      (nodeOn s c₃ x a (nodeOn s c₄ y b d)).entries := by
  cases s <;> simp [nodeOn, entries]

theorem entries_nodeOn_congr {s : Side} {c c' : Colour} {x : ε} {near near' far far' : Tree ε}
    (hNear : near.entries = near'.entries) (hFar : far.entries = far'.entries) :
    (nodeOn s c x near far).entries = (nodeOn s c' x near' far').entries := by
  cases s <;> simp [nodeOn, entries, hNear, hFar]

theorem entries_nodeOn_ne_nil {s : Side} {c : Colour} {x : ε} {near far : Tree ε} :
    (nodeOn s c x near far).entries ≠ [] := by
  cases s <;> simp [nodeOn, entries]

theorem exists_nodeOn (s : Side) {t : Tree ε} (h : t ≠ nil) :
    ∃ c x near far, t = nodeOn s c x near far := by
  cases t with
  | nil => exact absurd rfl h
  | node c x l r =>
    cases s with
    | left => exact ⟨c, x, l, r, rfl⟩
    | right => exact ⟨c, x, r, l, rfl⟩

theorem exists_nodeOn_of_red (s : Side) {t : Tree ε} (h : t.colour = .red) :
    ∃ x near far, t = nodeOn s .red x near far := by
  obtain ⟨c, x, near, far, rfl⟩ := exists_nodeOn s (t := t) (by rintro rfl; cases h)
  rw [colour_nodeOn] at h
  exact ⟨x, near, far, by rw [h]⟩

end Tree

open Library.RedBlack.Tree

/-- No red node has a red child, and every path down has `n` black nodes. -/
inductive Balanced : Tree ε → Nat → Prop
  | nil : Balanced .nil 0
  | black {x : ε} {l r : Tree ε} {n : Nat} (hl : Balanced l n) (hr : Balanced r n) :
      Balanced (.node .black x l r) (n + 1)
  | red {x : ε} {l r : Tree ε} {n : Nat} (hl : Balanced l n) (hr : Balanced r n)
      (hlc : l.colour = .black) (hrc : r.colour = .black) : Balanced (.node .red x l r) n

namespace Balanced
variable {s : Side} {x : ε} {near far t : Tree ε} {n : Nat}

theorem blackOn (s : Side) (hNear : Balanced near n) (hFar : Balanced far n) :
    Balanced (nodeOn s .black x near far) (n + 1) := by
  cases s with
  | left => exact .black hNear hFar
  | right => exact .black hFar hNear

theorem redOn (s : Side) (hNear : Balanced near n) (hFar : Balanced far n)
    (hNearBlack : near.colour = .black) (hFarBlack : far.colour = .black) :
    Balanced (nodeOn s .red x near far) n := by
  cases s with
  | left => exact .red hNear hFar hNearBlack hFarBlack
  | right => exact .red hFar hNear hFarBlack hNearBlack

theorem of_redOn (h : Balanced (nodeOn s .red x near far) n) :
    Balanced near n ∧ Balanced far n ∧ near.colour = .black ∧ far.colour = .black := by
  cases s with
  | left =>
    cases h with
    | red hl hr hlc hrc => exact ⟨hl, hr, hlc, hrc⟩
  | right =>
    cases h with
    | red hl hr hlc hrc => exact ⟨hr, hl, hrc, hlc⟩

theorem of_blackOn (h : Balanced (nodeOn s .black x near far) n) :
    ∃ k, n = k + 1 ∧ Balanced near k ∧ Balanced far k := by
  cases s with
  | left =>
    cases h with
    | black hl hr => exact ⟨_, rfl, hl, hr⟩
  | right =>
    cases h with
    | black hl hr => exact ⟨_, rfl, hr, hl⟩

theorem ne_nil (h : Balanced t (n + 1)) : t ≠ .nil := by
  rintro rfl
  cases h

theorem blacken (h : Balanced t n) : ∃ m, Balanced t.blacken m := by
  cases h with
  | nil => exact ⟨0, .nil⟩
  | black hl hr => exact ⟨_, .black hl hr⟩
  | red hl hr _ _ => exact ⟨_, .black hl hr⟩

end Balanced

/-- One step on the way down: the side, and what hangs on the other. -/
structure Frame (ε : Type u) where
  side : Side
  colour : Colour
  entry : ε
  sibling : Tree ε

/-- The tree with a subtree put into the hole of a context. -/
def plug : List (Frame ε) → Tree ε → Tree ε
  | [], t => t
  | f :: rest, t => plug rest (nodeOn f.side f.colour f.entry t f.sibling)

variable {t : Tree ε}

theorem entries_plug_congr (ctx : List (Frame ε)) {t' : Tree ε} (h : t.entries = t'.entries) :
    (plug ctx t).entries = (plug ctx t').entries := by
  induction ctx generalizing t t' with
  | nil => exact h
  | cons f rest ih => exact ih (entries_nodeOn_congr h rfl)

theorem plug_append (inner outer : List (Frame ε)) (t : Tree ε) :
    plug (inner ++ outer) t = plug outer (plug inner t) := by
  induction inner generalizing t with
  | nil => rfl
  | cons f rest ih => exact ih _

/-- The entries of a context in front of its hole. -/
def before : List (Frame ε) → List ε
  | [] => []
  | ⟨.left, _, _, _⟩ :: rest => before rest
  | ⟨.right, _, x, l⟩ :: rest => before rest ++ l.entries ++ [x]

/-- The entries of a context behind its hole. -/
def after : List (Frame ε) → List ε
  | [] => []
  | ⟨.left, _, x, r⟩ :: rest => x :: (r.entries ++ after rest)
  | ⟨.right, _, _, _⟩ :: rest => after rest

theorem before_append (inner outer : List (Frame ε)) :
    before (inner ++ outer) = before outer ++ before inner := by
  induction inner with
  | nil => simp [before]
  | cons f rest ih =>
    obtain ⟨s, c, x, u⟩ := f
    cases s <;> simp [before, ih]

theorem entries_plug (ctx : List (Frame ε)) (t : Tree ε) :
    (plug ctx t).entries = before ctx ++ t.entries ++ after ctx := by
  induction ctx generalizing t with
  | nil => simp [plug, before, after]
  | cons f rest ih =>
    obtain ⟨s, c, x, u⟩ := f
    cases s <;> simp [plug, before, after, nodeOn, entries, ih]

def ctxColour : List (Frame ε) → Colour
  | [] => .black
  | f :: _ => f.colour

/-- A balanced tree around a hole for `n` black nodes, except that the tree in the hole
may be red under a red node. -/
inductive Fits : List (Frame ε) → Nat → Prop
  | root (n : Nat) : Fits [] n
  | black {f : Frame ε} {rest : List (Frame ε)} {n : Nat} (hColour : f.colour = .black)
      (hSibling : Balanced f.sibling n) (hRest : Fits rest (n + 1)) : Fits (f :: rest) n
  | red {f : Frame ε} {rest : List (Frame ε)} {n : Nat} (hColour : f.colour = .red)
      (hSibling : Balanced f.sibling n) (hSiblingBlack : f.sibling.colour = .black)
      (hRest : Fits rest n) (hRestBlack : ctxColour rest = .black) (hSome : rest ≠ []) :
      Fits (f :: rest) n

variable {n : Nat}

/-- The entries around a hole do not matter. -/
theorem Fits.setEntry {f : Frame ε} {inner outer : List (Frame ε)}
    (h : Fits (inner ++ f :: outer) n) (y : ε) :
    Fits (inner ++ { f with entry := y } :: outer) n := by
  induction inner generalizing n with
  | nil =>
    cases h with
    | black hColour hSibling hRest => exact .black hColour hSibling hRest
    | red hColour hSibling hSiblingBlack hRest hRestBlack hSome =>
      exact .red hColour hSibling hSiblingBlack hRest hRestBlack hSome
  | cons g rest ih =>
    cases h with
    | black hColour hSibling hRest => exact .black hColour hSibling (ih hRest)
    | red hColour hSibling hSiblingBlack hRest hRestBlack _ =>
      refine .red hColour hSibling hSiblingBlack (ih hRest) ?_ (by simp)
      cases rest <;> exact hRestBlack

variable {ctx : List (Frame ε)}

theorem Balanced.plug (h : Fits ctx n) (ht : Balanced t n)
    (hRed : t.colour = .red → ctxColour ctx = .black) (hRoot : ctx = [] → t.colour = .black) :
    ∃ m, Balanced (plug ctx t) m ∧ (RedBlack.plug ctx t).colour = .black := by
  induction h generalizing t with
  | root n => exact ⟨n, ht, hRoot rfl⟩
  | @black f rest n hColour hSibling _ ih =>
    have hNode : Balanced (nodeOn f.side f.colour f.entry t f.sibling) (n + 1) := by
      rw [hColour]
      exact blackOn f.side ht hSibling
    exact ih hNode (by simp [hColour]) fun _ => by simp [hColour]
  | @red f rest n hColour hSibling hSiblingBlack _ hRestBlack hSome ih =>
    have hBlack : t.colour = .black := by
      cases hc : t.colour with
      | black => rfl
      | red =>
        have hUnder := hRed hc
        rw [ctxColour, hColour] at hUnder
        cases hUnder
    have hNode : Balanced (nodeOn f.side f.colour f.entry t f.sibling) n := by
      rw [hColour]
      exact redOn f.side ht hSibling hBlack hSiblingBlack
    exact ih hNode (fun _ => hRestBlack) fun hNil => absurd hNil hSome

/-- The subtree fits into the hole, so that the whole is a red-black tree but for its root. -/
def Placed (ctx : List (Frame ε)) (t : Tree ε) : Prop :=
  ∃ n, Fits ctx n ∧ Balanced t n ∧ (t.colour = .red → ctxColour ctx = .black) ∧
    (ctx = [] → t.colour = .black)

/-- Go down to a child. -/
theorem Placed.down {f : Frame ε} (h : Placed ctx (nodeOn f.side f.colour f.entry t f.sibling)) :
    Placed (f :: ctx) t := by
  obtain ⟨n, hFits, hNode, hRed, hRoot⟩ := h
  rw [colour_nodeOn] at hRed hRoot
  cases hColour : f.colour with
  | red =>
    rw [hColour] at hNode
    obtain ⟨ht, hSibling, htBlack, hSiblingBlack⟩ := hNode.of_redOn
    have hSome : ctx ≠ [] := fun hNil => by simp [hRoot hNil] at hColour
    exact ⟨n, .red hColour hSibling hSiblingBlack hFits (hRed hColour) hSome, ht,
      by simp [htBlack], by simp⟩
  | black =>
    rw [hColour] at hNode
    obtain ⟨k, rfl, ht, hSibling⟩ := hNode.of_blackOn
    exact ⟨k, .black hColour hSibling hFits, ht, fun _ => hColour, by simp⟩

theorem Balanced.placed (h : Balanced (RedBlack.plug ctx t) n)
    (hBlack : (RedBlack.plug ctx t).colour = .black) : Placed ctx t := by
  induction ctx generalizing t with
  | nil => exact ⟨n, .root n, h, fun hRed => absurd (hRed.symm.trans hBlack) (by simp), fun _ => hBlack⟩
  | cons f rest ih => exact (ih h hBlack).down

def around (ctx : List (Frame ε)) : Nat := (before ctx).length + (after ctx).length

theorem around_cons (f : Frame ε) (rest : List (Frame ε)) :
    around (f :: rest) = around rest + f.sibling.entries.length + 1 := by
  obtain ⟨s, c, x, u⟩ := f
  cases s <;> simp [around, before, after] <;> omega

theorem Balanced.two_pow_le (h : Balanced t n) : 2 ^ n ≤ t.entries.length + 1 := by
  induction h with
  | nil => simp
  | black hl hr ihl ihr =>
    simp only [Tree.entries, List.length_append, List.length_cons, pow_succ]
    omega
  | red hl hr hlc hrc ihl ihr =>
    simp only [Tree.entries, List.length_append, List.length_cons]
    omega

/-- At least every second node on the way to a hole is black, and the other side of a black
node has as many entries as the hole has room for. -/
theorem Fits.length_le (h : Fits ctx n) : ∃ blacks, ctx.length ≤ 2 * blacks ∧
    (ctxColour ctx = .black → ctx ≠ [] → ctx.length < 2 * blacks) ∧
    2 ^ (n + blacks) ≤ around ctx + 2 ^ n := by
  induction h with
  | root n => exact ⟨0, by simp⟩
  | @black f rest n hColour hSibling hRest ih =>
    obtain ⟨blacks, hLength, -, hEntries⟩ := ih
    have hPow := hSibling.two_pow_le
    rw [Nat.add_right_comm, Nat.add_assoc] at hEntries
    rw [List.length_cons, around_cons]
    refine ⟨blacks + 1, by omega, fun _ _ => by omega, ?_⟩
    omega
  | @red f rest n hColour hSibling hSiblingBlack hRest hRestBlack hSome ih =>
    obtain ⟨blacks, -, hLess, hEntries⟩ := ih
    have hRest := hLess hRestBlack hSome
    rw [List.length_cons, around_cons]
    refine ⟨blacks, by omega, fun hBlack => ?_, by omega⟩
    simp [ctxColour, hColour] at hBlack

/-- The way to a hole is at most twice as long as a way in a complete tree. -/
theorem Fits.length_le_log (h : Fits ctx n) : ctx.length ≤ 2 * Nat.log 2 (around ctx + 1) := by
  obtain ⟨blacks, hLength, -, hEntries⟩ := h.length_le
  refine hLength.trans (Nat.mul_le_mul_left 2 (Nat.le_log_of_pow_le (by omega) ?_))
  have hSplit : 2 ^ (n + blacks) = 2 ^ n * 2 ^ blacks := pow_add 2 n blacks
  have hOne : 1 ≤ 2 ^ n := Nat.one_le_two_pow
  have hOne' : 1 ≤ 2 ^ blacks := Nat.one_le_two_pow
  nlinarith

end Library.RedBlack
