import MySQL.Heap.Key
import MySQL.Library.LinearHash.Table
import MySQL.Mysys.Tree

/-! HEAP tables: `heap_write`, `heap_delete` and `heap_update`. A row is named by its
number in the record area. There is memory for every call; blocks, cursors and
auto_increment are left out. -/
namespace MySQL.Heap

open Library LinearHash

/-- An index is a hash table over rows or a red-black tree. -/
inductive Index where
  | hash (block : Nat → Slot Nat) (hashBuckets : Nat)
  | rbTree (tree : Trees.Tree RbKey)

/-- `HP_KEYDEF`; `noSame` and `nullPartKey` are the flags `HA_NOSAME` and
`HA_NULL_PART_KEY`. -/
structure KeyDef where
  segs : List KeySeg
  noSame : Bool
  nullPartKey : Bool
  index : Index

/-- A place of the record area. A deleted row has the link to the next deleted one. -/
structure Row where
  record : Record
  link : Option Nat
  live : Bool

/-- `HP_SHARE`. -/
structure Share where
  keydef : List KeyDef
  records : Nat
  blength : Nat
  deleted : Nat
  delLink : Option Nat
  rows : Nat → Row

def Index.create : Index → Index
  | .hash block _ => .hash block 0
  | .rbTree tree => .rbTree (Trees.initTree tree.links.cells false)

/-- A new table has no rows, and its hash tables have no entries. -/
def heapCreate (keydef : List KeyDef) (rows : Nat → Row) : Share :=
  ⟨keydef.map fun key => { key with index := key.index.create }, 0, 1, 0, none, rows⟩

def Share.hashnr (share : Share) (segs : List KeySeg) (pos : Nat) : Nat :=
  hpRecHashnr segs (share.rows pos).record

abbrev Malloc := Trees.Tree RbKey → Nat

section
variable (address : Addresses) (malloc : Malloc) (share : Share)

/-- The answer `true` reports a duplicate; the entry was still added. -/
def hpWriteKey (key : KeyDef) (block : Nat → Slot Nat) (hashBuckets : Nat) (record : Record)
    (recpos : Nat) : Option (Bool × KeyDef) :=
  match insertRec (share.hashnr key.segs) block share.records share.blength recpos
    (hpRecHashnr key.segs record) with
  | none => none
  | some (block, empty, both, fresh) =>
    let key := { key with index := .hash block (hashBuckets + both.toNat + fresh.toNat) }
    if !fresh && key.noSame && !(key.nullPartKey && hpIfNullInKey key.segs record) then
      (findSlot (fun pos => !hpRecKeyCmp key.segs record (share.rows pos).record true) block
        (share.records + 1) none empty).map fun found => (found.isSome, key)
    else some (false, key)

/-- The answer `true` reports a duplicate; nothing was added then. -/
def hpRbWriteKey (key : KeyDef) (tree : Trees.Tree RbKey) (record : Record) (recpos : Nat) :
    Option (Bool × KeyDef) :=
  let searchFlag := if key.noSame then searchFind ||| searchSame ||| searchUpdate else searchSame
  (Trees.treeInsert (fun a b => haKeyCmp address key.segs a b searchFlag)
    { tree with noDups := key.noSame } (hpRbMakeKey key.segs record recpos) (malloc tree)).map
    fun (element, tree) => (element.isNone, { key with index := .rbTree tree })

/-- The entry of a row in one index; `true` says that the key was there already. -/
def writeKey (key : KeyDef) (record : Record) (recpos : Nat) : Option (Bool × KeyDef) :=
  match key.index with
  | .hash block hashBuckets => hpWriteKey share key block hashBuckets record recpos
  | .rbTree tree => hpRbWriteKey address malloc key tree record recpos

/-- The answer `true` reports that the record is not in the index. -/
def hpDeleteKey (key : KeyDef) (block : Nat → Slot Nat) (hashBuckets : Nat) (record : Record)
    (recpos : Nat) : Option (Bool × KeyDef) :=
  let blength := grown (share.records + 1) share.blength
  match findSlot (fun pos => pos = recpos) block (share.records + 1) none
    (mask (hpRecHashnr key.segs record) blength (share.records + 1)) with
  | none => none
  | some none => some (true, key)
  | some (some (prev, pos)) =>
    (removeRec (share.hashnr key.segs) block share.records blength share.blength prev pos).map
      fun (block, fewer) => (false, { key with index := .hash block (hashBuckets - fewer) })

def hpRbDeleteKey (key : KeyDef) (tree : Trees.Tree RbKey) (record : Record) (recpos : Nat) :
    Option (Bool × KeyDef) :=
  (Trees.treeDelete (fun a b => haKeyCmp address key.segs a b searchSame) tree
    (hpRbMakeKey key.segs record recpos)).map
    fun (error, tree) => (error, { key with index := .rbTree tree })

/-- The entry of a row leaves one index. -/
def deleteKey (key : KeyDef) (record : Record) (recpos : Nat) : Option (Bool × KeyDef) :=
  match key.index with
  | .hash block hashBuckets => hpDeleteKey share key block hashBuckets record recpos
  | .rbTree tree => hpRbDeleteKey address key tree record recpos

end

inductive Answer where
  | ok
  | duplicate (errkey : Nat)
  | error
  deriving DecidableEq

/-- What became of one index: done, or a duplicate; a duplicate tells whether the index is
to be undone as well. `stuck` ends the call without undoing anything. -/
inductive Outcome where
  | done (key : KeyDef)
  | duplicate (key : KeyDef) (undo : Bool)
  | stuck (key : KeyDef) (duplicate : Bool)

/-- How far a loop over the indexes came. `undo` has the indexes to undo, the last one
first, and `rest` the ones after them. -/
inductive Progress where
  | all (keys : List KeyDef)
  | duplicate (errkey : Nat) (undo rest : List KeyDef)
  | stuck (answer : Answer) (keys : List KeyDef)

/-- The loop over the indexes ends at the first one that refuses. -/
def changeKeys (change : KeyDef → Option Outcome) : (past todo : List KeyDef) → Option Progress
  | past, [] => some (.all past.reverse)
  | past, key :: todo =>
    match change key with
    | none => none
    | some (.done key) => changeKeys change (key :: past) todo
    | some (.duplicate key true) => some (.duplicate past.length (key :: past) todo)
    | some (.duplicate key false) => some (.duplicate past.length past (key :: todo))
    | some (.stuck key duplicate) =>
      some (.stuck (if duplicate then .duplicate past.length else .error)
        (past.reverse ++ key :: todo))

/-- The indexes that were changed before an error are changed back. -/
def undoKeys (undo : KeyDef → Option (Bool × KeyDef)) : (keys rest : List KeyDef) →
    Option (List KeyDef)
  | [], rest => some rest
  | key :: keys, rest =>
    match undo key with
    | none => none
    | some (true, key) => some (keys.reverse ++ key :: rest)
    | some (false, key) => undoKeys undo keys (key :: rest)

/-- A deleted place is used again before the table grows. -/
def nextFreeRecordPos (share : Share) : Nat × Share :=
  match share.delLink with
  | some pos => (pos, { share with delLink := (share.rows pos).link, deleted := share.deleted - 1 })
  | none => (share.records, share)

/-- The place of a row goes to the front of the list of deleted ones. -/
def Share.free (share : Share) (pos : Nat) : Share :=
  { share with
    deleted := share.deleted + 1
    delLink := some pos
    rows := Function.update share.rows pos
      { share.rows pos with link := share.delLink, live := false } }

def Share.less (share : Share) : Share :=
  { share with records := share.records - 1, blength := shrunk (share.records - 1) share.blength }

def Share.more (share : Share) : Share :=
  { share with records := share.records + 1, blength := grown (share.records + 1) share.blength }

section
variable (address : Addresses) (malloc : Malloc)

def writeNew (share : Share) (record : Record) (pos : Nat) (key : KeyDef) : Option Outcome :=
  (writeKey address malloc share key record pos).map fun (duplicate, key) =>
    if duplicate then
      -- we don't need to delete non-inserted key from rb-tree
      .duplicate key (match key.index with | .hash _ _ => true | .rbTree _ => false)
    else .done key

/-- `heap_write`. A duplicate key takes the new entries out again. -/
def heapWrite (share : Share) (record : Record) : Option (Answer × Share) :=
  let (pos, share) := nextFreeRecordPos share
  match changeKeys (writeNew address malloc share record pos) [] share.keydef with
  | some (.all keys) =>
    let row := { share.rows pos with record, live := true }
    some (.ok, { share with keydef := keys, rows := Function.update share.rows pos row }.more)
  | some (.duplicate errkey undo rest) =>
    (undoKeys (fun key => deleteKey address share key record pos) undo rest).map fun keys =>
      (.duplicate errkey, { share with keydef := keys }.free pos)
  | _ => none

def deleteOld (share : Share) (record : Record) (pos : Nat) (key : KeyDef) : Option Outcome :=
  (deleteKey address share key record pos).map fun (error, key) =>
    if error then .stuck key false else .done key

/-- `heap_delete`. -/
def heapDelete (share : Share) (pos : Nat) : Option (Answer × Share) :=
  let share := share.less
  match changeKeys (deleteOld address share (share.rows pos).record pos) [] share.keydef with
  | some (.all keys) => some (.ok, { share with keydef := keys }.free pos)
  | some (.stuck answer keys) => some (answer, { share with keydef := keys }.more)
  | _ => none

/-- Change one index from the old row to the new one, if the keys differ. The entry of the
old row goes back into an rb-tree that has a duplicate of the new one. -/
def updateKey (share : Share) (old new : Record) (pos : Nat) (key : KeyDef) : Option Outcome :=
  if hpRecKeyCmp key.segs old new false then
    match deleteKey address share key old pos with
    | none => none
    | some (true, key) => some (.stuck key false)
    | some (false, key) =>
      match writeKey address malloc share key new pos with
      | none => none
      | some (false, key) => some (.done key)
      | some (true, key) =>
        match key.index with
        | .hash _ _ => some (.duplicate key true)
        | .rbTree _ =>
          (writeKey address malloc share key old pos).map fun (duplicate, key) =>
            if duplicate then .stuck key true else .duplicate key false
  else some (.done key)

def restoreKey (share : Share) (old new : Record) (pos : Nat) (key : KeyDef) :
    Option (Bool × KeyDef) :=
  if hpRecKeyCmp key.segs old new false then
    match deleteKey address share key new pos with
    | none => none
    | some (true, key) => some (true, key)
    | some (false, key) => writeKey address malloc share key old pos
  else some (false, key)

/-- `heap_update`. An index whose key does not change is passed over. -/
def heapUpdate (share : Share) (pos : Nat) (new : Record) : Option (Answer × Share) :=
  let share := share.less
  let old := (share.rows pos).record
  match changeKeys (updateKey address malloc share old new pos) [] share.keydef with
  | none => none
  | some (.all keys) =>
    let row := { share.rows pos with record := new }
    some (.ok, { share with keydef := keys, rows := Function.update share.rows pos row }.more)
  | some (.duplicate errkey undo rest) =>
    (undoKeys (restoreKey address malloc share old new pos) undo rest).map fun keys =>
      (.duplicate errkey, { share with keydef := keys }.more)
  | some (.stuck answer keys) => some (answer, { share with keydef := keys }.more)

end

end MySQL.Heap
