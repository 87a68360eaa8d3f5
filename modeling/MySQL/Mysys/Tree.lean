import MySQL.Library.Compare
import MySQL.Library.LinkedTree

/-! The red-black tree of mysys/tree.c with `with_delete` set and `memory_limit` 0. The
pointers in `tree->parents` are kept with the last one first and without the bound
`MAX_TREE_HEIGHT`. The two halves of `rb_insert` and `rb_delete_fixup` mirror each other;
both are the one for a side. -/
namespace MySQL.Trees

open Library RedBlack

variable {κ : Type}

structure Element (κ : Type) where
  count : Nat
  key : κ

/-- `TREE`; the cell at address 0 is `null_element`. -/
structure Tree (κ : Type) where
  links : Links (Element κ)
  elementsInTree : Nat
  noDups : Bool

def initTree (cells : Nat → Cell (Element κ)) (noDups : Bool) : Tree κ :=
  ⟨⟨0, Function.update cells 0 { cells 0 with colour := .black }⟩, 0, noDups⟩

def leftRotate : Links (Element κ) → Loc → Nat → Links (Element κ) := Links.rotate .left

def rightRotate : Links (Element κ) → Loc → Nat → Links (Element κ) := Links.rotate .right

def rotateTo : Side → Links (Element κ) → Loc → Nat → Links (Element κ)
  | .left => leftRotate
  | .right => rightRotate

/-- The side on which a node hangs, found by comparing pointers. -/
def sideOf (m : Links (Element κ)) (par p : Nat) : Side :=
  if p = (m.cells par).left then .left else .right

/-- A red node below a red one is moved up or rotated away. -/
def rbInsertLoop : (fuel : Nat) → Links (Element κ) → (parents : List Loc) → (leaf : Nat) →
    Option (Links (Element κ))
  | 0, _, _, _ => none
  | fuel + 1, m, parents, leaf =>
    if leaf = m.root then some m
    else
      match parents with
      | _ :: parent₁ :: above =>
        let par := m.get parent₁
        if m.colour par = .black then some m
        else
          match above with
          | parent₂ :: rest =>
            let par₂ := m.get parent₂
            let s := sideOf m par₂ par
            let y := (m.cells par₂).child s.other
            if m.colour y = .red then
              rbInsertLoop fuel
                (((m.setColour par .black).setColour y .black).setColour par₂ .red)
                (parent₂ :: rest) par₂
            else
              let (m, par) :=
                if leaf = (m.cells par).child s.other then (rotateTo s m parent₁ par, leaf)
                else (m, par)
              some (rotateTo s.other ((m.setColour par .black).setColour par₂ .red) parent₂ par₂)
          | [] => none
      | _ => none

def rbInsert (m : Links (Element κ)) (parents : List Loc) (leaf : Nat) :
    Option (Links (Element κ)) :=
  (rbInsertLoop (parents.length + 1) (m.setColour leaf .red) parents leaf).map fun m =>
    m.setColour m.root .black

/-- The sibling `w` of the node on side `s` of `par` is red: it takes the place of `par`.
The answer has the pointer to `par` and the new sibling. -/
def redSibling (s : Side) (m : Links (Element κ)) (parent₁ : Loc) (par w : Nat) :
    Links (Element κ) × Loc × Nat :=
  let m := rotateTo s ((m.setColour w .black).setColour par .red) parent₁ par
  (m, .child s w, (m.cells par).child s.other)

/-- The far child of the sibling `w` is red: `w` takes the place and the colour of `par`. -/
def closeGap (s : Side) (m : Links (Element κ)) (parent₁ : Loc) (par w : Nat) :
    Links (Element κ) :=
  let m := (m.setColour w (m.colour par)).setColour par .black
  let m := m.setColour ((m.cells w).child s.other) .black
  rotateTo s m parent₁ par

/-- The sibling `w` of the node on side `s` of `par` is black. The answer `false` tells
that `par` lacks a black node then, `true` that the tree is complete. -/
def blackSibling (s : Side) (m : Links (Element κ)) (parent₁ : Loc) (par w : Nat) :
    Links (Element κ) × Bool :=
  if m.colour (m.cells w).left = .black ∧ m.colour (m.cells w).right = .black then
    (m.setColour w .red, false)
  else
    let (m, w) :=
      if m.colour ((m.cells w).child s.other) = .black then
        let m := (m.setColour ((m.cells w).child s) .black).setColour w .red
        let m := rotateTo s.other m (.child s.other par) w
        (m, (m.cells par).child s.other)
      else (m, w)
    (closeGap s m parent₁ par w, true)

/-- The answer has the node that is to become black. Under a red sibling the pointer to
`x` is one deeper; it is not read again. -/
def rbDeleteLoop : (fuel : Nat) → Links (Element κ) → (parents : List Loc) → (x : Nat) →
    Option (Links (Element κ) × Nat)
  | 0, _, _, _ => none
  | fuel + 1, m, parents, x =>
    if x = m.root ∨ m.colour x = .red then some (m, x)
    else
      match parents with
      | _ :: parent₁ :: rest =>
        let par := m.get parent₁
        let s := sideOf m par x
        let w := (m.cells par).child s.other
        if m.colour w = .red then
          let (m, parent₀, w) := redSibling s m parent₁ par w
          match blackSibling s m parent₀ par w with
          | (m, true) => some (m, m.root)
          | (m, false) => rbDeleteLoop fuel m (parent₀ :: parent₁ :: rest) par
        else
          match blackSibling s m parent₁ par w with
          | (m, true) => some (m, m.root)
          | (m, false) => rbDeleteLoop fuel m (parent₁ :: rest) par
      | _ => none

/-- One black node is missing below the first of the parents. -/
def rbDeleteFixup (m : Links (Element κ)) (parents : List Loc) : Option (Links (Element κ)) :=
  match parents with
  | parent :: _ =>
    (rbDeleteLoop (parents.length + 1) m parents (m.get parent)).map fun (m, x) =>
      m.setColour x .black
  | [] => none

/-- The way down to a key. The parents are collected from the root on. -/
def descend (cmp : κ → BitVec 32) (m : Links (Element κ)) :
    (fuel element : Nat) → (parents : List Loc) → Option (Nat × List Loc)
  | 0, _, _ => none
  | fuel + 1, element, parents =>
    if element = 0 then some (0, parents)
    else
      let c := (cmp (m.cells element).data.key).toInt
      if c = 0 then some (element, parents)
      else
        let s : Side := if c < 0 then .right else .left
        descend cmp m fuel ((m.cells element).child s) (.child s element :: parents)

def maxCount : Nat := 2 ^ 31 - 1

/-- Count one more, and back again if that gave 0. -/
def nextCount (count : Nat) : Nat :=
  let count := (count + 1) % 2 ^ 31
  if count = 0 then maxCount else count

/-- The answer has the element, or `none` for a duplicate or no memory. `address` is what
`my_malloc` gives, 0 for no memory. `compare` has the key of the tree first. -/
def treeInsert (compare : κ → κ → BitVec 32) (t : Tree κ) (key : κ) (address : Nat) :
    Option (Option Nat × Tree κ) :=
  match descend (fun k => compare k key) t.links (t.elementsInTree + 1) t.links.root [.root] with
  | none => none
  | some (element, parents) =>
    if element = 0 then
      if address = 0 then some (none, t)
      else
        match parents with
        | parent :: _ =>
          let m := t.links.set parent address
          let m := m.setCell address ⟨0, 0, (m.cells address).colour, ⟨1, key⟩⟩
          (rbInsert m parents address).map fun m =>
            (some address, { t with links := m, elementsInTree := t.elementsInTree + 1 })
        | [] => none
    else if t.noDups then some (none, t)
    else
      let cell := t.links.cells element
      let data := { cell.data with count := nextCount cell.data.count }
      some (some element, { t with links := t.links.setCell element { cell with data } })

/-- The way to the successor of a node with two children. -/
def leftmost (m : Links (Element κ)) :
    (fuel nod : Nat) → (parents : List Loc) → Option (Nat × List Loc)
  | 0, _, _ => none
  | fuel + 1, nod, parents =>
    if (m.cells nod).left = 0 then some (nod, parents)
    else leftmost m fuel (m.cells nod).left (.child .left nod :: parents)

/-- Take `element` out of the tree. The answer has the links, the colour removed and the
pointers to where it was removed. -/
def unlinkElement (m : Links (Element κ)) (fuel element : Nat) (parents : List Loc) :
    Option (Links (Element κ) × Colour × List Loc) :=
  match parents with
  | [] => none
  | parent :: above =>
    let cell := m.cells element
    if cell.left = 0 then some (m.set parent cell.right, cell.colour, parents)
    else if cell.right = 0 then some (m.set parent cell.left, cell.colour, parents)
    else
      match leftmost m fuel cell.right [] with
      | none => none
      | some (nod, below) =>
        let last := match below with
          | [] => Loc.child .right element
          | last :: _ => last
        let colour := m.colour nod
        let m := m.set last (m.cells nod).right
        let m := m.set parent nod
        let cell := m.cells element
        let m := m.setCell nod
          { m.cells nod with left := cell.left, right := cell.right, colour := cell.colour }
        some (m, colour, below ++ Loc.child .right nod :: parent :: above)

/-- The answer `true` reports that the key was not in the tree. -/
def treeDelete (compare : κ → κ → BitVec 32) (t : Tree κ) (key : κ) : Option (Bool × Tree κ) :=
  match descend (fun k => compare k key) t.links (t.elementsInTree + 1) t.links.root [.root] with
  | none => none
  | some (element, parents) =>
    if element = 0 then some (true, t)
    else
      match unlinkElement t.links t.elementsInTree element parents with
      | none => none
      | some (m, removeColour, parents) =>
        (if removeColour = .black then rbDeleteFixup m parents else some m).map fun m =>
          (false, { t with links := m, elementsInTree := t.elementsInTree - 1 })

def treeSearch (compare : κ → κ → BitVec 32) (t : Tree κ) (key : κ) : Option (Option Nat) :=
  (descend (fun k => compare k key) t.links (t.elementsInTree + 1) t.links.root [.root]).map
    fun (element, _) => if element = 0 then none else some element

/-- The number of black nodes on the way down, or -1 for a wrong tree. -/
def testRbTree (m : Links (Element κ)) : (fuel element : Nat) → Option Int
  | 0, _ => none
  | fuel + 1, element =>
    if element = 0 then some 0
    else
      let cell := m.cells element
      if cell.colour = .red ∧ (m.colour cell.left = .red ∨ m.colour cell.right = .red) then
        some (-1)
      else
        match testRbTree m fuel cell.left, testRbTree m fuel cell.right with
        | some countL, some countR =>
          if 0 ≤ countL ∧ 0 ≤ countR ∧ countL = countR then
            some (countL + if cell.colour = .black then 1 else 0)
          else some (-1)
        | _, _ => none

end MySQL.Trees
