import MySQL.Heap.Share
import MySQL.Mysys.TreeCalls

/-! `hp_rb_write_key` and `hp_rb_delete_key` keep an rb-tree index in order. -/
namespace MySQL.Heap

open Function List Library

/-- The comparison of packed keys without the position of the record. -/
def compareParts : List KeySeg → (a b : List (Option (List UInt8))) → BitVec 32
  | [], _, _ => 0
  | seg :: segs, a, b =>
    let flag := nullFirst (comparePart seg searchSame) (a.headD none) (b.headD none)
    if flag.toInt ≠ 0 then flag else compareParts segs a.tail b.tail

theorem comparePart_flag (seg : KeySeg) (nextflag : Nat) (a b : List UInt8) :
    comparePart seg nextflag a b = comparePart seg searchSame a b := by
  rw [comparePart, comparePart]
  cases seg.type with
  | text => rfl
  | varText1 => simp only [seg.charset.endspace a b]
  | other pack compare => rfl

/-- `ha_key_cmp` compares the parts, and then the positions unless `SEARCH_FIND` is set. -/
theorem haKeyCmp_eq (address : Addresses) (segs : List KeySeg) (a b : RbKey) {nextflag : Nat}
    (hFlag : nextflag ≠ searchFind ||| searchUpdate) :
    haKeyCmp address segs a b nextflag =
      if (compareParts segs a.parts b.parts).toInt ≠ 0 then compareParts segs a.parts b.parts
      else if nextflag &&& searchFind = 0 then address.compare a.recpos b.recpos
      else 0 := by
  induction segs generalizing a b with
  | nil => simp [haKeyCmp, compareParts]
  | cons seg segs ih =>
    rw [haKeyCmp, compareParts]
    simp only [ih, if_neg hFlag]
    cases ha : a.parts.headD none with
    | none =>
      cases hb : b.parts.headD none with
      | none => simp [nullFirst]
      | some y => simp [nullFirst]
    | some x =>
      cases hb : b.parts.headD none with
      | none => simp [nullFirst]
      | some y =>
        have hInt := toInt_eq_zero_iff (comparePart seg searchSame x y)
        by_cases hZero : comparePart seg searchSame x y = 0#32
        · simp [nullFirst, comparePart_flag seg nextflag, hZero]
        · simp [nullFirst, comparePart_flag seg nextflag, hZero, mt hInt.mp hZero]

def SegsOrdered (segs : List KeySeg) : Prop :=
  ∀ seg ∈ segs, SignPreorder (comparePart seg searchSame)

theorem signPreorder_compareParts {segs : List KeySeg} (h : SegsOrdered segs) :
    SignPreorder (compareParts segs) := by
  induction segs with
  | nil => exact signPreorder_zero
  | cons seg segs ih =>
    have hHead := (h seg mem_cons_self).nullFirst.comap
      fun parts : List _ => parts.headD none
    have hTail := (ih fun s hs => h s (mem_cons_of_mem _ hs)).comap
      (tail)
    exact hHead.lex hTail

def keyEqual (segs : List KeySeg) (rec₁ rec₂ : Record) : Bool :=
  (compareParts segs (hpRbMakeKey segs rec₁ 0).parts (hpRbMakeKey segs rec₂ 0).parts).toInt = 0

section
variable (address : Addresses) (segs : List KeySeg)

abbrev cmpSame (a b : RbKey) : BitVec 32 := haKeyCmp address segs a b searchSame

abbrev cmpUnique (a b : RbKey) : BitVec 32 :=
  haKeyCmp address segs a b (searchFind ||| searchSame ||| searchUpdate)

theorem cmpUnique_eq (a b : RbKey) : cmpUnique address segs a b = compareParts segs a.parts b.parts := by
  have hFlag := haKeyCmp_eq address segs a b
    (show searchFind ||| searchSame ||| searchUpdate ≠ searchFind ||| searchUpdate by decide)
  rw [cmpUnique, hFlag]
  by_cases hZero : (compareParts segs a.parts b.parts).toInt = 0
  · rw [if_neg (by simpa using hZero), if_neg (by decide), ((toInt_eq_zero_iff _).mp hZero)]
    rfl
  · rw [if_pos hZero]

theorem cmpSame_eq : cmpSame address segs = fun a b =>
    if (compareParts segs a.parts b.parts).toInt ≠ 0 then compareParts segs a.parts b.parts
    else address.compare a.recpos b.recpos := by
  funext a b
  rw [cmpSame, haKeyCmp_eq address segs a b
    (by decide),
    if_pos (show searchSame &&& searchFind = 0 by decide)]

variable {segs}

theorem signPreorder_cmpSame (h : SegsOrdered segs) : SignPreorder (cmpSame address segs) := by
  rw [cmpSame_eq]
  exact ((signPreorder_compareParts h).comap RbKey.parts).lex (address.order.comap RbKey.recpos)

theorem signPreorder_cmpUnique (h : SegsOrdered segs) : SignPreorder (cmpUnique address segs) := by
  have hEq : cmpUnique address segs = fun a b => compareParts segs a.parts b.parts := by
    funext a b
    exact cmpUnique_eq address segs a b
  rw [hEq]
  exact (signPreorder_compareParts h).comap RbKey.parts

/-- Keys compare equal when their parts do and they are for the same row. -/
theorem cmpSame_eq_zero (a b : RbKey) : (cmpSame address segs a b).toInt = 0 ↔
    (compareParts segs a.parts b.parts).toInt = 0 ∧ a.recpos = b.recpos := by
  have hBytes : (address.compare a.recpos b.recpos).toInt = 0 ↔ a.recpos = b.recpos := by
    refine ⟨address.eq_of_zero _ _, fun hEq => ?_⟩
    rw [hEq]
    exact address.order.self _
  rw [cmpSame_eq]
  by_cases hZero : (compareParts segs a.parts b.parts).toInt = 0
  · simp only [hZero, ne_eq, not_true_eq_false, if_false, true_and]
    exact hBytes
  · simp [hZero]

/-- The order with the positions refines the one without. -/
theorem cmpUnique_nonpos {a b : RbKey} (h : (cmpSame address segs a b).toInt < 0) :
    (cmpUnique address segs a b).toInt ≤ 0 := by
  rw [cmpUnique_eq]
  rw [cmpSame_eq] at h
  by_cases hZero : (compareParts segs a.parts b.parts).toInt = 0
  · exact hZero.le
  · simp only [ne_eq, hZero, not_false_eq_true, if_true] at h
    exact h.le

theorem cmpSame_of_cmpUnique_ne {a b : RbKey} (h : (cmpUnique address segs a b).toInt ≠ 0) :
    cmpSame address segs a b = cmpUnique address segs a b := by
  rw [cmpUnique_eq] at h ⊢
  rw [cmpSame_eq]
  simp [h]

end

open Trees

def MallocOk (malloc : Malloc) : Prop :=
  ∀ tree entries, Tree.Has tree entries → malloc tree ≠ 0 ∧ malloc tree ∉ entries.map Prod.fst

structure RbHolds (address : Addresses) (segs : List KeySeg) (view : Nat → Record)
    (live : Finset Nat) (tree : Trees.Tree RbKey) (entries : List (Nat × Element RbKey)) : Prop where
  has : tree.Has entries
  ordered : Ordered (cmpSame address segs) entries
  positions : ((entries.map fun e => e.2.key.recpos : List Nat) : Multiset Nat) = live.val
  keys : ∀ e ∈ entries, (compareParts segs e.2.key.parts
    (hpRbMakeKey segs (view e.2.key.recpos) 0).parts).toInt = 0

def RbOk (address : Addresses) (segs : List KeySeg) (view : Nat → Record) (live : Finset Nat)
    (tree : Trees.Tree RbKey) : Prop :=
  ∃ entries, RbHolds address segs view live tree entries

section
variable {address : Addresses} {segs : List KeySeg} {view : Nat → Record} {live : Finset Nat}
  {tree : Trees.Tree RbKey} {entries : List (Nat × Element RbKey)}

theorem RbHolds.mem_live (h : RbHolds address segs view live tree entries) (pos : Nat) :
    pos ∈ live ↔ ∃ e ∈ entries, e.2.key.recpos = pos := by
  rw [← Finset.mem_val, ← h.positions]
  simp

/-- In a unique index the keys are in order without the positions as well. -/
theorem RbHolds.ordered_unique (h : RbHolds address segs view live tree entries)
    (hOrder : SegsOrdered segs)
    (hUnique : ∀ p ∈ live, ∀ q ∈ live, p ≠ q → keyEqual segs (view p) (view q) = false) :
    Ordered (cmpUnique address segs) entries := by
  have hParts := signPreorder_compareParts hOrder
  refine pairwise_map.mpr ((pairwise_map.mp h.ordered).imp_of_mem ?_)
  intro a b ha hb hLess
  refine lt_of_le_of_ne (cmpUnique_nonpos address hLess) fun hZero => ?_
  rw [cmpUnique_eq] at hZero
  by_cases hSame : a.2.key.recpos = b.2.key.recpos
  · exact hLess.ne ((cmpSame_eq_zero address _ _).mpr ⟨hZero, hSame⟩)
  · have hNe := hUnique _ ((h.mem_live _).mpr ⟨a, ha, rfl⟩) _ ((h.mem_live _).mpr ⟨b, hb, rfl⟩) hSame
    refine absurd ?_ (of_decide_eq_false hNe)
    exact hParts.zero_trans _ _ _ ((hParts.zero_iff _ _).mp (h.keys a ha))
      (hParts.zero_trans _ _ _ hZero (h.keys b hb))

/-- A new entry between the ones before and after it. -/
theorem RbHolds.insert {left right : List (Nat × Element RbKey)} {record : Record}
    {recpos address' : Nat} {tree' : Trees.Tree RbKey}
    (h : RbHolds address segs view live tree (left ++ right)) (hOrder : SegsOrdered segs)
    (hNew : recpos ∉ live)
    (hBetween : Between (fun k => cmpSame address segs k (hpRbMakeKey segs record recpos)) left right)
    (hHas : tree'.Has (left ++ (address', ⟨1, hpRbMakeKey segs record recpos⟩) :: right)) :
    RbHolds address segs (update view recpos record) (insert recpos live) tree'
      (left ++ (address', ⟨1, hpRbMakeKey segs record recpos⟩) :: right) := by
  refine ⟨hHas, h.ordered.insert (signPreorder_cmpSame address hOrder) hBetween, ?_, fun e he => ?_⟩
  · rw [Finset.insert_val_of_notMem hNew, ← h.positions]
    simp only [map_append, map_cons, ← Multiset.coe_add, ← Multiset.cons_coe, Multiset.add_cons]
    rfl
  · rcases mem_cons.mp (perm_middle.mem_iff.mp he) with rfl | hOld
    · have hSelf : update view recpos record
          (hpRbMakeKey segs record recpos).recpos = record := update_self ..
      rw [hSelf]
      exact (signPreorder_compareParts hOrder).self _
    · have hLive := (h.mem_live _).mpr ⟨e, hOld, rfl⟩
      rw [update_of_ne fun hEq : e.2.key.recpos = recpos => hNew (hEq ▸ hLive)]
      exact h.keys e hOld

def KeyDef.withTree (key : KeyDef) (tree : Trees.Tree RbKey) : KeyDef :=
  { key with index := .rbTree tree }

variable {malloc : Malloc} {key : KeyDef} {recpos : Nat}

theorem hpRbWriteKey_eq (record : Record) {nextflag : Nat} (hFlag : nextflag =
      if key.noSame then searchFind ||| searchSame ||| searchUpdate else searchSame) :
    hpRbWriteKey address malloc key tree record recpos =
      (treeInsert (fun a b => haKeyCmp address key.segs a b nextflag)
        { tree with noDups := key.noSame } (hpRbMakeKey key.segs record recpos) (malloc tree)).map
        fun (element, tree) => (element.isNone, key.withTree tree) := by
  rw [hFlag]
  rfl

section
variable (h : RbOk address key.segs view live tree) (hOrder : SegsOrdered key.segs)
include h hOrder

theorem hpRbWriteKey_nonunique (hMalloc : MallocOk malloc) (hNew : recpos ∉ live)
    (hDups : key.noSame = false) (record : Record) :
    ∃ tree', hpRbWriteKey address malloc key tree record recpos = some (false, key.withTree tree') ∧
      RbOk address key.segs (update view recpos record) (insert recpos live) tree' := by
  obtain ⟨entries, hHolds⟩ := h
  have hHas : Tree.Has { tree with noDups := key.noSame } entries := ⟨hHolds.has.holds, hHolds.has.size⟩
  obtain ⟨hAddress, hFresh⟩ := hMalloc tree entries hHolds.has
  obtain ⟨ctx, u, hLocated⟩ := hHas.located
    (hHolds.ordered.splits (signPreorder_cmpSame address hOrder) _)
  rcases hLocated.cases with ⟨rfl, rfl⟩ | ⟨c, x, l, r, rfl, -, hZero, rfl, -⟩
  · obtain ⟨tree', hInsert, -, hHas'⟩ := (treeInsert_absent hHas hLocated hFresh).2 hAddress
    refine ⟨tree', ?_, _, hHolds.insert hOrder hNew hLocated.between hHas'⟩
    rw [hpRbWriteKey_eq record (show searchSame = _ by simp [hDups]), hInsert]
    rfl
  · have hSame := ((cmpSame_eq_zero address _ _).mp hZero).2
    exact absurd ((hHolds.mem_live recpos).mpr ⟨x, by simp, hSame⟩) hNew

/-- In a unique index a record with an equal key is a duplicate. -/
theorem hpRbWriteKey_unique (hMalloc : MallocOk malloc) (hNew : recpos ∉ live)
    (hNoDups : key.noSame = true)
    (hUnique : ∀ p ∈ live, ∀ q ∈ live, p ≠ q → keyEqual key.segs (view p) (view q) = false)
    (record : Record) : (∃ pos ∈ live, keyEqual key.segs record (view pos) = true ∧
      ∃ tree', hpRbWriteKey address malloc key tree record recpos =
        some (true, key.withTree tree') ∧ RbOk address key.segs view live tree') ∨
    (∀ pos ∈ live, keyEqual key.segs record (view pos) = false) ∧
      ∃ tree', hpRbWriteKey address malloc key tree record recpos =
        some (false, key.withTree tree') ∧
        RbOk address key.segs (update view recpos record) (insert recpos live) tree' := by
  obtain ⟨entries, hHolds⟩ := h
  have hParts := signPreorder_compareParts hOrder
  have hHas : Tree.Has { tree with noDups := key.noSame } entries := ⟨hHolds.has.holds, hHolds.has.size⟩
  obtain ⟨hAddress, hFresh⟩ := hMalloc tree entries hHolds.has
  obtain ⟨ctx, u, hLocated⟩ := hHas.located ((hHolds.ordered_unique hOrder hUnique).splits
    (signPreorder_cmpUnique address hOrder) _)
  -- an entry compares equal when the record of its row has an equal key
  have hEqual (e : Nat × Element RbKey) (he : e ∈ entries) :
      (cmpUnique address key.segs e.2.key (hpRbMakeKey key.segs record recpos)).toInt = 0 ↔
        keyEqual key.segs record (view e.2.key.recpos) = true := by
    have hKey := hHolds.keys e he
    rw [cmpUnique_eq, keyEqual, decide_eq_true_iff]
    constructor
    · intro hZero
      exact hParts.zero_trans _ _ _ ((hParts.zero_iff _ _).mp hZero) hKey
    · intro hZero
      exact hParts.zero_trans _ _ _ hKey ((hParts.zero_iff _ _).mp hZero)
  rcases hLocated.cases with ⟨rfl, rfl⟩ | ⟨c, x, l, r, rfl, hx, hZero, rfl, -⟩
  · have hNone := hLocated.between.ne
    refine .inr ⟨fun pos hPos => ?_, ?_⟩
    · obtain ⟨e, he, rfl⟩ := (hHolds.mem_live pos).mp hPos
      exact Bool.eq_false_iff.mpr (mt (hEqual e he).mpr (hNone e he))
    · obtain ⟨tree', hInsert, -, hHas'⟩ := (treeInsert_absent hHas hLocated hFresh).2 hAddress
      have hBetween : Between (fun k => cmpSame address key.segs k
          (hpRbMakeKey key.segs record recpos)) (RedBlack.before ctx) (RedBlack.after ctx) := by
        refine ⟨fun e he => ?_, fun e he => ?_⟩
        · rw [cmpSame_of_cmpUnique_ne address (hLocated.between.left e he).ne]
          exact hLocated.between.left e he
        · rw [cmpSame_of_cmpUnique_ne address (hLocated.between.right e he).ne']
          exact hLocated.between.right e he
      refine ⟨tree', ?_, _, hHolds.insert hOrder hNew hBetween hHas'⟩
      rw [hpRbWriteKey_eq record (show searchFind ||| searchSame ||| searchUpdate = _ by
        simp [hNoDups]), hInsert]
      rfl
  · have hMem : x ∈ RedBlack.before ctx ++ l.entries ++ x :: (r.entries ++ RedBlack.after ctx) := by
      simp
    refine .inl ⟨_, (hHolds.mem_live _).mpr ⟨x, hMem, rfl⟩, (hEqual x hMem).mp hZero,
      { tree with noDups := key.noSame }, ?_, _, hHas, hHolds.ordered, hHolds.positions, hHolds.keys⟩
    have hInsert := (treeInsert_present (malloc tree) hHas hx hLocated).1 hNoDups
    rw [hpRbWriteKey_eq record (show searchFind ||| searchSame ||| searchUpdate = _ by
      simp [hNoDups]), hInsert]
    rfl

theorem hpRbDeleteKey_spec (hLive : recpos ∈ live) :
    ∃ tree', hpRbDeleteKey address key tree (view recpos) recpos =
        some (false, key.withTree tree') ∧
      RbOk address key.segs view (live.erase recpos) tree' := by
  obtain ⟨entries, hHolds⟩ := h
  obtain ⟨ctx, u, hLocated⟩ := hHolds.has.located (hHolds.ordered.splits
    (signPreorder_cmpSame address hOrder) _)
  obtain ⟨e, he, hPos⟩ := (hHolds.mem_live recpos).mp hLive
  have hFound : (cmpSame address key.segs e.2.key
      (hpRbMakeKey key.segs (view recpos) recpos)).toInt = 0 := by
    refine (cmpSame_eq_zero address _ _).mpr ⟨?_, hPos⟩
    have hKey := hHolds.keys e he
    rwa [hPos] at hKey
  rcases hLocated.cases with ⟨rfl, rfl⟩ | ⟨c, x, l, r, rfl, hx, hZero, rfl, -⟩
  · exact absurd hFound (hLocated.between.ne e he)
  · obtain ⟨tree', hDelete, hHas'⟩ := treeDelete_present hHolds.has hx hLocated
    have hPosX : x.2.key.recpos = recpos := ((cmpSame_eq_zero address _ _).mp hZero).2
    refine ⟨tree', ?_, _, hHas', ?_, ?_, ?_⟩
    · simp only [hpRbDeleteKey]
      rw [hDelete]
      rfl
    · exact hHolds.ordered.sublist ((Sublist.append_left (sublist_cons_self ..) _).map _)
    · rw [Finset.erase_val, ← hHolds.positions, ← hPosX, Multiset.coe_eq_coe.mpr (perm_middle.map _), map_cons,
        ← Multiset.cons_coe, Multiset.erase_cons_head]
    · exact fun e he => hHolds.keys e (perm_middle.mem_iff.mpr (mem_cons_of_mem _ he))

end

end

end MySQL.Heap
