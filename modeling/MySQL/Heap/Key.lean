import MySQL.Strings.CtypeSimple

/-! Keys of HEAP tables: the hash number and the comparison of the key in a record
(hp_hash.c), and the packed key of an rb-tree index with its comparison (my_handler.c).
A record is read by byte offset. -/
namespace MySQL.Heap

open Ctype

abbrev Record := Nat → UInt8

def bytesAt (rec : Record) (start length : Nat) : List UInt8 :=
  (List.range length).map fun i => rec (start + i)

/-- What the keys use of `CHARSET_INFO`. Every collation compares symmetrically, and none
reads the flag for end space, since `VARCHAR_WITH_DIFF_ENDSPACE_ARE_DIFFERENT_FOR_UNIQUE`
is not defined. -/
structure Charset where
  mbmaxlen : Nat
  charpos : List UInt8 → Nat → Nat
  fill : Nat → List UInt8
  hashSort : List UInt8 → UInt64 × UInt64 → UInt64 × UInt64
  strnncollsp : List UInt8 → List UInt8 → (diffIfOnlyEndspace : Bool) → BitVec 32
  comm : ∀ a b flag, strnncollsp a b flag = 0 ↔ strnncollsp b a flag = 0
  endspace : ∀ a b flag, strnncollsp a b flag = strnncollsp a b false

def simpleCharset (sortOrder : SortOrder) : Charset where
  mbmaxlen := 1
  charpos _ pos := pos
  fill n := List.replicate n 0x20
  hashSort := myHashSortSimple sortOrder
  strnncollsp a b _ := myStrnncollspSimple sortOrder a b
  comm a b _ := myStrnncollspSimple_comm sortOrder a b
  endspace _ _ _ := rfl

/-- The types of key parts. For a number or a binary string there is what
`hp_rb_make_key` makes of its bytes, and the comparison of `ha_key_cmp`. -/
inductive KeyType where
  | text
  | varText1
  | other (pack : List UInt8 → List UInt8) (compare : List UInt8 → List UInt8 → BitVec 32)

/-- `HA_KEYSEG`, as far as HEAP indexes read it. -/
structure KeySeg where
  type : KeyType
  charset : Charset
  start : Nat
  length : Nat
  nullBit : UInt8
  nullPos : Nat
  bitStart : Nat
  endSpaceEqual : Bool

namespace KeySeg

/-- The null bit of the column, if it has one. -/
def null (seg : KeySeg) (rec : Record) : UInt8 := rec seg.nullPos &&& seg.nullBit

/-- The length in front of a `VARCHAR`, in one byte or in two. -/
def varLength (seg : KeySeg) (rec : Record) : Nat :=
  if seg.bitStart = 1 then (rec seg.start).toNat
  else (rec seg.start).toNat + 256 * (rec (seg.start + 1)).toNat

/-- The bytes that are hashed and compared in a record. A VARCHAR of a character set with
one byte a character is not cut to the length of the key part. -/
def value (seg : KeySeg) (rec : Record) : List UInt8 :=
  match seg.type with
  | .text =>
    let bytes := bytesAt rec seg.start seg.length
    if 1 < seg.charset.mbmaxlen then
      bytes.take (seg.charset.charpos bytes (seg.length / seg.charset.mbmaxlen))
    else bytes
  | .varText1 =>
    let bytes := bytesAt rec (seg.start + seg.bitStart) (seg.varLength rec)
    if 1 < seg.charset.mbmaxlen then
      bytes.take (seg.charset.charpos bytes (seg.length / seg.charset.mbmaxlen))
    else bytes
  | .other _ _ => bytesAt rec seg.start seg.length

/-- The bytes of a column as an rb-tree key stores them. -/
def packed (seg : KeySeg) (rec : Record) : List UInt8 :=
  match seg.type with
  | .text =>
    let bytes := bytesAt rec seg.start seg.length
    if 1 < seg.charset.mbmaxlen then
      let charLength := min (seg.charset.charpos bytes (seg.length / seg.charset.mbmaxlen))
        seg.length
      bytes.take charLength ++ seg.charset.fill (seg.length - charLength)
    else bytes
  | .varText1 =>
    let length := min seg.length (seg.varLength rec)
    let bytes := bytesAt rec (seg.start + seg.bitStart) length
    let charLength := seg.length / seg.charset.mbmaxlen
    let charLength :=
      if charLength < length then seg.charset.charpos bytes charLength else charLength
    bytes.take (min charLength length)
  | .other pack _ => pack (bytesAt rec seg.start seg.length)

end KeySeg

/-- One turn of the loop of `hp_rec_hashnr`. -/
def hashSeg (rec : Record) (nr : UInt64 × UInt64) (seg : KeySeg) : UInt64 × UInt64 :=
  if seg.null rec ≠ 0 then (nr.1 ^^^ ((nr.1 <<< 1) ||| 1), nr.2)
  else
    match seg.type with
    | .other _ _ => (seg.value rec).foldl hashByte nr
    | _ => seg.charset.hashSort (seg.value rec) nr

def hpRecHashnr (segs : List KeySeg) (rec : Record) : Nat :=
  (segs.foldl (hashSeg rec) (1, 4)).1.toNat

/-- One turn of the loop of `hp_rec_key_cmp`. -/
def segDiffers (seg : KeySeg) (rec₁ rec₂ : Record) (diffIfOnlyEndspace : Bool) : Bool :=
  if seg.null rec₁ ≠ seg.null rec₂ then true
  else if seg.null rec₁ ≠ 0 then false
  else
    match seg.type with
    | .text => seg.charset.strnncollsp (seg.value rec₁) (seg.value rec₂) false ≠ 0
    | .varText1 =>
      seg.charset.strnncollsp (seg.value rec₁) (seg.value rec₂)
        (if seg.endSpaceEqual then false else diffIfOnlyEndspace) ≠ 0
    | .other _ _ => seg.value rec₁ ≠ seg.value rec₂

/-- The answer `true` tells that the keys differ. -/
def hpRecKeyCmp (segs : List KeySeg) (rec₁ rec₂ : Record) (diffIfOnlyEndspace : Bool) : Bool :=
  segs.any fun seg => segDiffers seg rec₁ rec₂ diffIfOnlyEndspace

def hpIfNullInKey (segs : List KeySeg) (rec : Record) : Bool :=
  segs.any fun seg => seg.null rec ≠ 0

/-- A packed key: its parts, `none` for NULL, and the position of the record. -/
structure RbKey where
  parts : List (Option (List UInt8))
  recpos : Nat

/-- The key of a row in an rb-tree ends with the address of the row. -/
def hpRbMakeKey (segs : List KeySeg) (rec : Record) (recpos : Nat) : RbKey :=
  ⟨segs.map fun seg => if seg.null rec ≠ 0 then none else some (seg.packed rec), recpos⟩

def searchFind : Nat := 1
def searchSame : Nat := 4
def searchUpdate : Nat := 64

/-- The comparison of one part in `ha_key_cmp`. -/
def comparePart (seg : KeySeg) (nextflag : Nat) (a b : List UInt8) : BitVec 32 :=
  match seg.type with
  | .text => seg.charset.strnncollsp a b false
  | .varText1 =>
    seg.charset.strnncollsp a b
      (!(nextflag &&& (searchFind ||| searchUpdate) == searchFind && !seg.endSpaceEqual))
  | .other _ compare => compare a b

/-- How the bytes of the pointers to two rows compare. The rows are at different
addresses. -/
structure Addresses where
  compare : Nat → Nat → BitVec 32
  order : Library.SignPreorder compare
  eq_of_zero : ∀ p q, (compare p q).toInt = 0 → p = q

/-- `ha_key_cmp` with the flags that HEAP tables use. -/
def haKeyCmp (address : Addresses) : List KeySeg → (a b : RbKey) → (nextflag : Nat) → BitVec 32
  | [], a, b, nextflag =>
    if nextflag &&& searchFind = 0 then address.compare a.recpos b.recpos else 0
  | seg :: segs, a, b, nextflag =>
    let rest := haKeyCmp address segs { a with parts := a.parts.tail } { b with parts := b.parts.tail }
    match a.parts.headD none, b.parts.headD none with
    | none, some _ => -1
    | some _, none => 1
    | none, none => rest (if nextflag = (searchFind ||| searchUpdate) then searchSame else nextflag)
    | some x, some y =>
      let flag := comparePart seg nextflag x y
      if flag ≠ 0 then flag else rest nextflag

end MySQL.Heap
