import MySQL.Library.System

/-! Transactions and read views of InnoDB: innobase/trx/trx0trx.c and
innobase/read/read0read.c. A `trx_t` and a `read_view_t` are numbered here, each function
is a section under the kernel mutex, trx ids do not run out, and `ut_dulint_max` is ⊤. -/
namespace MySQL.Innobase.Read

/-- `trx->conc_state`. -/
inductive ConcState where
  | notStarted
  | active
  | prepared
  | committedInMemory
  deriving DecidableEq

inductive TrxType where
  | user
  | purge
  deriving DecidableEq

/-- How far `trx_commit_off_kernel` has come when it does not hold the kernel mutex. -/
inductive CommitStage where
  | none
  | writingUndo
  | numbered
  | inMemory
  deriving DecidableEq

/-- The fields of `trx_t` that the views, the commit and the purge read. -/
structure Trx where
  type : TrxType
  hasSess : Bool
  id : Nat
  no : WithTop Nat
  concState : ConcState
  insertUndo : Bool
  updateUndo : Bool
  readView : Option Nat
  globalReadView : Option Nat
  stage : CommitStage

/-- A transaction object before its first start. -/
def trxCreate (type : TrxType) (hasSess : Bool) : Trx :=
  { type, hasSess, id := 0, no := ⊤, concState := .notStarted, insertUndo := false, updateUndo := false,
    readView := none, globalReadView := none, stage := .none }

/-- `read_view_t`. The ids are in descending order. -/
structure ReadView where
  creator : Option Nat
  trxIds : List Nat
  lowLimitNo : WithTop Nat
  lowLimitId : Nat
  upLimitId : Nat

/-- `trx_sys` and `purge_sys->view`; `views` is the number of the next read view. -/
structure TrxSys where
  maxTrxId : Nat
  trx : Nat → Trx
  trxList : List Nat
  view : Nat → ReadView
  views : Nat
  viewList : List Nat
  purgeView : Option Nat

def TrxSys.setTrx (sys : TrxSys) (p : Nat) (trx : Trx) : TrxSys :=
  { sys with trx := Function.update sys.trx p trx }

/-- The search of `read_view_sees_trx_id` in the ids of a view, which are in descending order. -/
def seesLoop (trxId : Nat) : List Nat → Bool
  | [] => true
  | id :: ids => if trxId ≤ id then trxId < id else seesLoop trxId ids

/-- Ids below the view's transactions are seen, ids from `low_limit_id` on are not, and between
them those that were not active. -/
def readViewSeesTrxId (view : ReadView) (trxId : Nat) : Bool :=
  if trxId < view.upLimitId then true
  else if view.lowLimitId ≤ trxId then false
  else seesLoop trxId view.trxIds.reverse

/-- The transactions whose changes a new view must not see. -/
def TrxSys.isActiveFor (sys : TrxSys) (crTrx : Option Nat) (p : Nat) : Bool :=
  some p ≠ crTrx ∧ ((sys.trx p).concState = .active ∨ (sys.trx p).concState = .prepared)

/-- The loop of `read_view_open_now` over `trx_list`. Beside the ids it takes the least number of
a transaction that is committing. -/
def TrxSys.scanTrxList (sys : TrxSys) (crTrx : Option Nat) :
    List Nat → (lowLimitNo : WithTop Nat) → List Nat × WithTop Nat
  | [], lowLimitNo => ([], lowLimitNo)
  | p :: ps, lowLimitNo =>
    if sys.isActiveFor crTrx p then
      -- a transaction in the middle of its commit is active and has its number
      let (ids, low) := sys.scanTrxList crTrx ps
        (if (sys.trx p).no < lowLimitNo then (sys.trx p).no else lowLimitNo)
      ((sys.trx p).id :: ids, low)
    else sys.scanTrxList crTrx ps lowLimitNo

/-- The view of this moment. -/
def TrxSys.viewNow (sys : TrxSys) (crTrx : Option Nat) : ReadView :=
  let (ids, low) := sys.scanTrxList crTrx sys.trxList sys.maxTrxId
  { creator := crTrx, trxIds := ids, lowLimitNo := low, lowLimitId := sys.maxTrxId
    upLimitId := ids.getLast?.getD sys.maxTrxId }

def TrxSys.newView (sys : TrxSys) (view : ReadView) : TrxSys :=
  { sys with view := Function.update sys.view sys.views view, views := sys.views + 1 }

/-- The new view goes to the front of `view_list`, so the oldest one is last. -/
def readViewOpenNow (sys : TrxSys) (crTrx : Option Nat) : Nat × TrxSys :=
  (sys.views, { sys.newView (sys.viewNow crTrx) with viewList := sys.views :: sys.viewList })

def readViewClose (sys : TrxSys) (v : Nat) : TrxSys := { sys with viewList := sys.viewList.erase v }

/-- The loop of `read_view_oldest_copy_or_open_new` from the cell `i` on: the id of the
creator is inserted into the descending ids. -/
def copyLoop (creatorId : Nat) (oldIds : List Nat) : (cells i : Nat) → (needsInsert : Bool) →
    (insertDone : Nat) → List Nat
  | 0, _, _, _ => []
  | cells + 1, i, needsInsert, insertDone =>
    if needsInsert ∧ (oldIds.length ≤ i ∨ oldIds.getD i 0 < creatorId) then
      creatorId :: copyLoop creatorId oldIds cells (i + 1) false 1
    else
      oldIds.getD (i - insertDone) 0 :: copyLoop creatorId oldIds cells (i + 1) needsInsert insertDone

/-- The copy that purge makes of the oldest view. The creator's own id is put among those that are
not seen. -/
def TrxSys.viewCopy (sys : TrxSys) (old : ReadView) (crTrx : Option Nat) : ReadView :=
  let ids := match old.creator with
    | some c => copyLoop (sys.trx c).id old.trxIds (old.trxIds.length + 1) 0 true 0
    | none => copyLoop 0 old.trxIds old.trxIds.length 0 false 0
  { creator := crTrx, trxIds := ids, lowLimitNo := old.lowLimitNo, lowLimitId := old.lowLimitId
    upLimitId := ids.getLast?.getD old.upLimitId }

/-- The view of purge: a copy of the oldest view, or a new one if there is none. -/
def readViewOldestCopyOrOpenNew (sys : TrxSys) (crTrx : Option Nat) : Nat × TrxSys :=
  match sys.viewList.getLast? with
  | none => readViewOpenNow sys crTrx
  | some old =>
    (sys.views, { sys.newView (sys.viewCopy (sys.view old) crTrx) with
      viewList := sys.viewList ++ [sys.views] })

/-- A consistent read opens a view unless the transaction has one. -/
def trxAssignReadView (sys : TrxSys) (p : Nat) : TrxSys :=
  if (sys.trx p).readView.isSome then sys
  else
    let (v, sys) := readViewOpenNow sys (some p)
    sys.setTrx p { sys.trx p with readView := some v, globalReadView := some v }

/-- The view is closed, and the transaction has none any more. -/
def readViewCloseForMysql (sys : TrxSys) (p v : Nat) : TrxSys :=
  (readViewClose sys v).setTrx p { sys.trx p with readView := none, globalReadView := none }

/-- `read_cursor_view_create_for_mysql`; its loop is that of `read_view_open_now`. -/
def readCursorViewCreateForMysql (sys : TrxSys) (p : Nat) : Nat × TrxSys := readViewOpenNow sys (some p)

/-- The cursor's view is closed, and the transaction reads through its own again. -/
def readCursorViewCloseForMysql (sys : TrxSys) (p curview : Nat) : TrxSys :=
  (readViewClose sys curview).setTrx p { sys.trx p with readView := (sys.trx p).globalReadView }

/-- The transaction reads through the view of a cursor, or again through its own. -/
def readCursorSetForMysql (sys : TrxSys) (p : Nat) (curview : Option Nat) : TrxSys :=
  sys.setTrx p { sys.trx p with readView := curview.or (sys.trx p).globalReadView }

/-- `trx_purge` closes its view of the last run before it opens another. -/
def closePurgeView (sys : TrxSys) : TrxSys :=
  match sys.purgeView with
  | some v => { readViewClose sys v with purgeView := none }
  | none => sys

def openPurgeView (sys : TrxSys) : TrxSys :=
  let (v, sys) := readViewOldestCopyOrOpenNew sys none
  { sys with purgeView := some v }

/-- `trx_sys_get_new_trx_id`, and `trx_sys_get_new_trx_no`. -/
def trxSysGetNewTrxId (sys : TrxSys) : Nat × TrxSys :=
  (sys.maxTrxId, { sys with maxTrxId := sys.maxTrxId + 1 })

/-- A transaction gets the next id and goes to the front of `trx_list`; purge has the id 0. -/
def trxStartLow (sys : TrxSys) (p : Nat) : TrxSys :=
  if (sys.trx p).type = .purge then sys.setTrx p { sys.trx p with id := 0, concState := .active }
  else
    let (id, sys) := trxSysGetNewTrxId sys
    { sys.setTrx p { sys.trx p with id, no := ⊤, concState := .active } with
      trxList := p :: sys.trxList }

/-- The first phase of a commit in two phases. -/
def trxPrepareOffKernel (sys : TrxSys) (p : Nat) : TrxSys :=
  sys.setTrx p { sys.trx p with concState := .prepared }

/-- The transaction writes its first undo logs. -/
def trxUndoAssign (sys : TrxSys) (p : Nat) (insert update : Bool) : TrxSys :=
  sys.setTrx p { sys.trx p with
    insertUndo := (sys.trx p).insertUndo || insert
    updateUndo := (sys.trx p).updateUndo || update }

/-- The middle of `trx_commit_off_kernel`: the transaction is committed in memory. -/
def trxCommitInMemory (sys : TrxSys) (p : Nat) : TrxSys :=
  let sys := match (sys.trx p).globalReadView with
    | some v => readViewClose sys v
    | none => sys
  sys.setTrx p { sys.trx p with
    concState := .committedInMemory, globalReadView := none, readView := none, stage := .inMemory }

/-- The end of `trx_commit_off_kernel`, and of `trx_cleanup_at_db_startup`. -/
def trxCommitFinish (sys : TrxSys) (p : Nat) : TrxSys :=
  { sys.setTrx p { sys.trx p with
      concState := .notStarted, insertUndo := false, updateUndo := false, stage := .none } with
    trxList := sys.trxList.erase p }

/-- The start of `trx_commit_off_kernel`: with undo logs it leaves the kernel mutex,
without them it commits at once. -/
def trxCommitOffKernel (sys : TrxSys) (p : Nat) : TrxSys :=
  if (sys.trx p).insertUndo ∨ (sys.trx p).updateUndo then
    sys.setTrx p { sys.trx p with stage := .writingUndo }
  else trxCommitFinish (trxCommitInMemory sys p) p

/-- `trx_commit_off_kernel` takes a number if there is an update undo log. -/
def trxCommitNumber (sys : TrxSys) (p : Nat) : TrxSys :=
  if (sys.trx p).updateUndo then
    let (no, sys) := trxSysGetNewTrxId sys
    sys.setTrx p { sys.trx p with no, stage := .numbered }
  else sys.setTrx p { sys.trx p with stage := .numbered }

inductive UndoState where
  | active
  | prepared
  | finished
  deriving DecidableEq

/-- An undo log as it is found at start-up. -/
structure Undo where
  trxId : Nat
  state : UndoState

structure Rseg where
  insertUndoList : List Undo
  updateUndoList : List Undo

/-- The transaction that left an undo log behind, as far as its header tells. -/
def trxOfUndo (forceRecovery : Bool) (undo : Undo) : Trx :=
  { trxCreate .user false with
    id := undo.trxId
    no := if undo.state = .active then ⊤ else undo.trxId
    concState := match undo.state with
      | .active => .active
      | .prepared => if forceRecovery then .active else .prepared
      | .finished => .committedInMemory }

/-- Recovered transactions are listed by descending ids. -/
def trxListInsertOrdered (sys : TrxSys) (p : Nat) : List Nat → List Nat
  | [] => [p]
  | q :: qs => if (sys.trx q).id ≤ (sys.trx p).id then p :: q :: qs else q :: trxListInsertOrdered sys p qs

def addRecovered (sys : TrxSys) (trx : Trx) : TrxSys :=
  let p := sys.trxList.length
  let sys := sys.setTrx p trx
  { sys with trxList := trxListInsertOrdered sys p sys.trxList }

def addInsertUndo (forceRecovery : Bool) (sys : TrxSys) (undo : Undo) : TrxSys :=
  addRecovered sys { trxOfUndo forceRecovery undo with insertUndo := true }

def trxGetOnId (sys : TrxSys) (id : Nat) : Option Nat := sys.trxList.find? fun p => (sys.trx p).id = id

/-- The update undo log of a transaction may follow an insert undo log that was found before. -/
def addUpdateUndo (forceRecovery : Bool) (sys : TrxSys) (undo : Undo) : TrxSys :=
  match trxGetOnId sys undo.trxId with
  | some p => sys.setTrx p { sys.trx p with updateUndo := true }
  | none => addRecovered sys { trxOfUndo forceRecovery undo with updateUndo := true }

/-- The transactions that were active or prepared when the server went down. -/
def trxListsInitAtDbStart (forceRecovery : Bool) (sys : TrxSys) (rsegs : List Rseg) : TrxSys :=
  rsegs.foldl (fun sys rseg =>
    rseg.updateUndoList.foldl (addUpdateUndo forceRecovery)
      (rseg.insertUndoList.foldl (addInsertUndo forceRecovery) sys)) sys

/-! Runs of the transaction system. Beside the system itself a state has what happened so
far: which transactions started, which are committed in memory, which number each one
has, and for each view who made it and what was committed then. -/

open Library

/-- A view of `read_view_open_now`, the transaction that made it, and the transactions
that were committed in memory before. -/
structure Opened where
  view : ReadView
  creatorId : Option Nat
  committed : List Nat

/-- The system, with what was started and committed so far as a history beside it. -/
structure State where
  sys : TrxSys
  started : List Nat
  committed : List Nat
  number : Nat → WithTop Nat
  opened : List Opened
  creatorId : Nat → Option Nat

def State.init (types : Nat → TrxType) (maxTrxId : Nat) (forceRecovery : Bool) (rsegs : List Rseg) :
    State :=
  let sys := trxListsInitAtDbStart forceRecovery
    { maxTrxId, trx := fun p => trxCreate (types p) true, trxList := []
      view := fun _ => ⟨none, [], ⊤, 0, 0⟩, views := 0, viewList := [], purgeView := none } rsegs
  { sys
    started := sys.trxList.map fun p => (sys.trx p).id
    committed := (sys.trxList.filter fun p => (sys.trx p).concState = .committedInMemory).map
      fun p => (sys.trx p).id
    number := fun id => ((trxGetOnId sys id).map fun p => (sys.trx p).no).getD ⊤
    opened := []
    creatorId := fun _ => none }

/-- The sections that run under the kernel mutex, each as a whole. -/
inductive Call where
  | start (p : Nat)
  | change (p : Nat) (insert update : Bool)
  | prepare (p : Nat)
  | commit (p : Nat)
  | number (p : Nat)
  | commitInMemory (p : Nat)
  | finish (p : Nat)
  | cleanup (p : Nat)
  | assignReadView (p : Nat)
  | closeReadView (p : Nat)
  | createCursorView (p : Nat)
  | closeCursorView (p v : Nat)
  | setCursorView (p : Nat) (v : Option Nat)
  | purge

section
variable (s : State) (p : Nat)

def State.Idle : Prop := (s.sys.trx p).stage = .none

/-- The session may read and write in its transaction. -/
def State.Running : Prop := s.Idle p ∧ (s.sys.trx p).type = .user ∧ (s.sys.trx p).concState = .active

/-- The view was opened for a cursor of the session. -/
def State.IsCursor (v : Nat) : Prop :=
  v ∈ s.sys.viewList ∧ (s.sys.view v).creator = some p ∧ (s.sys.trx p).globalReadView ≠ some v

instance : Decidable (s.Idle p) := inferInstanceAs (Decidable (_ = _))
instance : Decidable (s.Running p) := inferInstanceAs (Decidable (_ ∧ _ ∧ _))
instance (v : Nat) : Decidable (s.IsCursor p v) := inferInstanceAs (Decidable (_ ∧ _ ∧ _))

/-- What the callers of a section ensure. -/
def Allowed : Call → Prop
  | .start p => s.Idle p ∧ (s.sys.trx p).hasSess ∧ (s.sys.trx p).concState = .notStarted
  | .change p _ _ => s.Running p
  | .prepare p => s.Running p
  | .commit p => s.Idle p ∧ (s.sys.trx p).type = .user ∧
      ((s.sys.trx p).concState = .active ∨ (s.sys.trx p).concState = .prepared)
  | .number p => (s.sys.trx p).stage = .writingUndo
  | .commitInMemory p => (s.sys.trx p).stage = .numbered
  | .finish p => (s.sys.trx p).stage = .inMemory
  | .cleanup p => s.Idle p ∧ (s.sys.trx p).concState = .committedInMemory
  | .assignReadView p => s.Running p ∧ (s.sys.trx p).hasSess
  | .closeReadView p => s.Idle p ∧ (s.sys.trx p).globalReadView.isSome
  | .createCursorView p => s.Idle p ∧ (s.sys.trx p).type = .user ∧ (s.sys.trx p).hasSess
  | .closeCursorView p v => s.Idle p ∧ s.IsCursor p v
  | .setCursorView p v => s.Idle p ∧ ∀ c ∈ v, s.IsCursor p c
  | .purge => True

instance (call : Call) : Decidable (Allowed s call) := by
  cases call <;> unfold Allowed <;> infer_instance

end

def State.addCommitted (s : State) (p : Nat) : List Nat := (s.sys.trx p).id :: s.committed

def State.addOpened (s : State) (sys : TrxSys) (crTrx : Option Nat) : List Opened :=
  ⟨sys.viewNow crTrx, crTrx.map fun p => (sys.trx p).id, s.committed⟩ :: s.opened

def State.setCreator (s : State) (p : Nat) : Nat → Option Nat :=
  Function.update s.creatorId s.sys.views (some (s.sys.trx p).id)

/-- One section. -/
def State.next (s : State) : Call → State
  | .start p => { s with
      sys := trxStartLow s.sys p
      -- the purge transaction has no id
      started := if (s.sys.trx p).type = .purge then s.started else s.sys.maxTrxId :: s.started }
  | .change p insert update => { s with sys := trxUndoAssign s.sys p insert update }
  | .prepare p => { s with sys := trxPrepareOffKernel s.sys p }
  | .commit p => { s with
      sys := trxCommitOffKernel s.sys p
      committed := if (s.sys.trx p).insertUndo ∨ (s.sys.trx p).updateUndo then s.committed
        else s.addCommitted p }
  | .number p => { s with
      sys := trxCommitNumber s.sys p
      number := if (s.sys.trx p).updateUndo then
          Function.update s.number (s.sys.trx p).id s.sys.maxTrxId
        else s.number }
  | .commitInMemory p => { s with sys := trxCommitInMemory s.sys p, committed := s.addCommitted p }
  | .finish p => { s with sys := trxCommitFinish s.sys p }
  | .cleanup p => { s with sys := trxCommitFinish s.sys p }
  | .assignReadView p => { s with
      sys := trxAssignReadView s.sys p
      opened := if (s.sys.trx p).readView.isSome then s.opened else s.addOpened s.sys (some p)
      creatorId := if (s.sys.trx p).readView.isSome then s.creatorId else s.setCreator p }
  | .closeReadView p => { s with
      sys := match (s.sys.trx p).globalReadView with
        | some v => readViewCloseForMysql s.sys p v
        | none => s.sys }
  | .createCursorView p => { s with
      sys := (readCursorViewCreateForMysql s.sys p).2
      creatorId := s.setCreator p }
  | .closeCursorView p v => { s with sys := readCursorViewCloseForMysql s.sys p v }
  | .setCursorView p v => { s with sys := readCursorSetForMysql s.sys p v }
  | .purge => { s with
      sys := openPurgeView (closePurgeView s.sys)
      opened := if (closePurgeView s.sys).viewList = [] then s.addOpened (closePurgeView s.sys) none
        else s.opened
      creatorId := Function.update s.creatorId s.sys.views none }

def system : System State Call where
  step s call := if Allowed s call then some (s.next call) else none

end MySQL.Innobase.Read
