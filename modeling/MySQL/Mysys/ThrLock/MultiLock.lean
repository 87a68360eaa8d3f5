import MySQL.Mysys.ThrLock.Runs

/-! `thr_multi_lock` and `thr_multi_unlock`. Each owner sorts its requests and
makes one `thr_lock` call after the other; the calls of different owners come
in any order, each atomic under the mutex of its table. -/
namespace MySQL.ThrLock
open Function Library Option

abbrev Table := Nat

structure Request where
  /-- `data->lock` -/
  table : Table
  data : DataId
  type : LockType
  deriving DecidableEq, Repr

/-- Requests of the callers considered here: delayed inserts and
`TL_WRITE_ONLY` do not go through `thr_multi_lock`. -/
def Requestable (t : LockType) : Prop :=
  t ≠ .unlock ∧ t ≠ .writeDelayed ∧ t ≠ .writeOnly

instance (t : LockType) : Decidable (Requestable t) :=
  inferInstanceAs (Decidable (_ ∧ _ ∧ _))

section
variable (address : Table → Int)

/-- `(byte*) data->lock - (uint) data->type` -/
def Request.key (r : Request) : Int :=
  address r.table - r.type.value

/-- `LOCK_CMP`: by the address of the lock, and for one lock the stronger type first. -/
def lockCmp (a b : Request) : Prop :=
  a.key address < b.key address

instance (a b : Request) : Decidable (lockCmp address a b) :=
  inferInstanceAs (Decidable (_ < _))

/-- Move `tmp` to its place among the sorted elements before it, of which the
last is compared first. -/
def sinkLock (tmp : Request) : List Request → List Request
  | [] => [tmp]
  | prev :: rest =>
    if lockCmp address tmp prev then prev :: sinkLock tmp rest else tmp :: prev :: rest

/-- The insertion sort of `sort_locks`. -/
def sortLocks (data : List Request) : List Request :=
  (data.foldl (fun sorted tmp => sinkLock address tmp sorted) []).reverse

/-- `thr_multi_lock` sorts only if there is something to sort. -/
def lockOrder (data : List Request) : List Request :=
  if 1 < data.length then sortLocks address data else data

/-- The addresses of two locks differ by more than the types that are subtracted from them. -/
def Spaced : Prop :=
  ∀ a b, a ≠ b → 12 < (address a - address b).natAbs

end

/-- How far an owner has come: `held` are the locks it has, in the order of
the array, and `rest` those still to be requested. An owner outside of both
calls is unlocking nothing. `since` counts the requests of all owners that
were made before the one that waits. -/
inductive Phase where
  | locking (held rest : List Request)
  | waiting (held : List Request) (current : Request) (rest : List Request) (since : Nat)
  | unlocking (held : List Request)
  deriving DecidableEq, Repr

def Phase.after (held : List Request) (current : Request) (rest : List Request) (since : Nat) :
    Use → Phase
  | .held => .locking (held ++ [current]) rest
  | .idle => .unlocking held
  | .waiting _ => .waiting held current rest since

/-- All tables with their locks, and what every owner is doing. -/
structure Tables (Q : Type) where
  session : Table → Session Q
  phase : Owner → Phase
  /-- Number of requests made. -/
  requests : Nat

/-- The calls of all owners on all tables; an owner that waits makes no call. -/
inductive MultiCall where
  /-- `thr_lock_data_init` -/
  | dataInit (table : Table)
  /-- An owner calls `thr_multi_lock`. -/
  | lockAll (owner : Owner) (data : List Request)
  | lockNext (owner : Owner) (checkStatus : Bool)
  | wake (owner : Owner)
  | waitFails (owner : Owner)
  /-- An owner that has all its locks calls `thr_multi_unlock`. -/
  | unlockAll (owner : Owner)
  | unlockNext (owner : Owner) (checkStatus : Bool)
  deriving DecidableEq, Repr

section
variable {Q : Type}

def Tables.init (calls : Calls Q) : Tables Q where
  session _ := .init calls
  phase _ := .unlocking []
  requests := 0

def Tables.set (s : Tables Q) (t : Table) (session : Session Q) (owner : Owner) (phase : Phase) :
    Tables Q :=
  { s with
    session := update s.session t session
    phase := update s.phase owner phase }

/-- One call for the lock `r` of an owner, after which the owner goes on as
`next` says. -/
def Tables.call (calls : Calls Q) (env : Table → Env) (s : Tables Q) (owner : Owner)
    (r : Request) (call : Call) (next : Use → Phase) : Option (Tables Q) :=
  (step calls (env r.table) (s.session r.table) call).map fun session =>
    s.set r.table session owner (next (session.use r.data))

def multiStep (calls : Calls Q) (env : Table → Env) (address : Table → Int) (s : Tables Q) :
    MultiCall → Option (Tables Q)
  | .dataInit t =>
    (step calls (env t) (s.session t) .dataInit).map fun session =>
      { s with session := update s.session t session }
  | .lockAll owner data =>
    if s.phase owner = .unlocking [] ∧ ∀ r ∈ data, Requestable r.type then
      some { s with
        phase := update s.phase owner (.locking [] (lockOrder address data)) }
    else none
  | .lockNext owner checkStatus =>
    match s.phase owner with
    | .locking held (r :: rest) =>
      Tables.call calls env { s with requests := s.requests + 1 } owner r
        (.lock r.data owner r.type checkStatus) (.after held r rest s.requests)
    | _ => none
  | .wake owner =>
    match s.phase owner with
    | .waiting held r rest since =>
      s.call calls env owner r (.wake r.data) (.after held r rest since)
    | _ => none
  | .waitFails owner =>
    match s.phase owner with
    | .waiting held r rest since =>
      s.call calls env owner r (.waitFails r.data) (.after held r rest since)
    | _ => none
  | .unlockAll owner =>
    match s.phase owner with
    | .locking held [] =>
      some { s with phase := update s.phase owner (.unlocking held) }
    | _ => none
  | .unlockNext owner checkStatus =>
    match s.phase owner with
    | .unlocking (r :: held) =>
      s.call calls env owner r (.unlock r.data checkStatus) fun _ => .unlocking held
    | _ => none

def multiSystem (calls : Calls Q) (env : Table → Env) (address : Table → Int) :
    System (Tables Q) MultiCall :=
  ⟨multiStep calls env address⟩

end

abbrev QueuedTables := Tables (ListName → List DataId)
abbrev LinkedTables := Tables (Links ListName DataId)

section
variable (address : Table → Int)

private theorem sinkLock_eq (tmp : Request) (sorted : List Request) : sinkLock address tmp sorted =
      sorted.orderedInsert (fun a b => b.key address ≤ a.key address) tmp := by
  induction sorted with
  | nil => rfl
  | cons prev rest ih =>
    rw [sinkLock, List.orderedInsert_cons, ih]
    by_cases h : lockCmp address tmp prev
    · rw [if_pos h, if_neg (not_le.mpr h)]
    · rw [if_neg h, if_pos (not_lt.mp h)]

private theorem sortLocks_eq (data : List Request) : sortLocks address data =
      (data.reverse.insertionSort fun a b => b.key address ≤ a.key address).reverse := by
  unfold sortLocks List.insertionSort
  simp only [sinkLock_eq, List.foldr_reverse]

/-- The requests are made with ascending keys. -/
theorem lockOrder_ascending (data : List Request) :
    (lockOrder address data).Pairwise fun a b => a.key address ≤ b.key address := by
  unfold lockOrder
  split_ifs with hMany
  · rw [sortLocks_eq, List.pairwise_reverse]
    have : Std.Total fun a b : Request => b.key address ≤ a.key address :=
      ⟨fun a b => le_total _ _⟩
    have : IsTrans Request fun a b => b.key address ≤ a.key address :=
      ⟨fun a b c hab hbc => hbc.trans hab⟩
    exact List.pairwise_insertionSort _ _
  · match data, hMany with
    | [], _ => exact .nil
    | [r], _ => exact List.pairwise_singleton _ r
    | _ :: _ :: _, hMany => exact absurd (by simp) hMany

theorem mem_lockOrder {data : List Request} {r : Request} :
    r ∈ lockOrder address data ↔ r ∈ data := by
  unfold lockOrder
  split_ifs
  · simp [sortLocks_eq]
  · rfl

end

theorem LockType.value_le (t : LockType) : t.value ≤ 11 := by
  cases t <;> decide

section
variable {address : Table → Int} {a b : Request}

/-- Tables far apart are requested in the order of their addresses. -/
theorem Spaced.address_lt (h : Spaced address) (hKey : a.key address ≤ b.key address)
    (hNe : a.table ≠ b.table) : address a.table < address b.table := by
  have hFar := h _ _ hNe
  have ha := a.type.value_le
  have hb := b.type.value_le
  unfold Request.key at hKey
  omega

/-- Of one table the stronger locks are requested first. -/
theorem type_le_of_key_le (hKey : a.key address ≤ b.key address) (hTable : a.table = b.table) :
    b.type ≤ a.type := by
  unfold Request.key at hKey
  rw [hTable] at hKey
  exact Int.ofNat_le.mp (by omega)

end

/-- The links of every table hold the lists of the model. -/
structure TablesBehind (c : LinkedTables) (a : QueuedTables) : Prop where
  session : ∀ t, Behind (c.session t) (a.session t)
  phase : c.phase = a.phase
  requests : c.requests = a.requests

section
variable (env : Table → Env) (address : Table → Int)

/-- What a call does to the tables and to its owner, with all it has tested. -/
inductive MultiMoves (a : QueuedTables) : MultiCall → QueuedTables → Prop
  | dataInit {t : Table} {x : QueuedSession}
      (hMoves : Model.Moves (env t) (a.session t) .dataInit x) :
      MultiMoves a (.dataInit t) { a with session := update a.session t x }
  | lockAll {o : Owner} {data : List Request} (hPhase : a.phase o = .unlocking [])
      (hTypes : ∀ r ∈ data, Requestable r.type) :
      MultiMoves a (.lockAll o data)
        { a with phase := update a.phase o (.locking [] (lockOrder address data)) }
  | lockNext {o : Owner} {checkStatus : Bool} {held rest : List Request} {r : Request}
      {x : QueuedSession} (hPhase : a.phase o = .locking held (r :: rest))
      (hMoves : Model.Moves (env r.table) (a.session r.table)
        (.lock r.data o r.type checkStatus) x) :
      MultiMoves a (.lockNext o checkStatus)
        ({ a with requests := a.requests + 1 }.set r.table x o
          (.after held r rest a.requests (x.use r.data)))
  | wake {o : Owner} {held rest : List Request} {r : Request} {since : Nat} {x : QueuedSession}
      (hPhase : a.phase o = .waiting held r rest since)
      (hMoves : Model.Moves (env r.table) (a.session r.table) (.wake r.data) x) :
      MultiMoves a (.wake o) (a.set r.table x o (.after held r rest since (x.use r.data)))
  | waitFails {o : Owner} {held rest : List Request} {r : Request} {since : Nat}
      {x : QueuedSession} (hPhase : a.phase o = .waiting held r rest since)
      (hMoves : Model.Moves (env r.table) (a.session r.table) (.waitFails r.data) x) :
      MultiMoves a (.waitFails o) (a.set r.table x o (.after held r rest since (x.use r.data)))
  | unlockAll {o : Owner} {held : List Request} (hPhase : a.phase o = .locking held []) :
      MultiMoves a (.unlockAll o)
        { a with phase := update a.phase o (.unlocking held) }
  | unlockNext {o : Owner} {checkStatus : Bool} {held : List Request} {r : Request}
      {x : QueuedSession} (hPhase : a.phase o = .unlocking (r :: held))
      (hMoves : Model.Moves (env r.table) (a.session r.table) (.unlock r.data checkStatus) x) :
      MultiMoves a (.unlockNext o checkStatus) (a.set r.table x o (.unlocking held))

variable {env address} {c c' : LinkedTables} {a : QueuedTables}

theorem behind_tables_init : TablesBehind (.init Code.calls) (.init Model.calls) where
  session _ := behind_init
  phase := rfl
  requests := rfl

private theorem TablesBehind.replace {t : Table} {l : LinkedSession} {x : QueuedSession}
    (h : TablesBehind c a) (hBehind : Behind l x) (u : Table) :
    Behind (update c.session t l u) (update a.session t x u) := by
  rcases eq_or_ne u t with rfl | hNe
  · simpa using hBehind
  · simpa [hNe] using h.session u

private theorem TablesBehind.call {o : Owner} {r : Request} {call : Call} {next : Use → Phase}
    (h : TablesBehind c a) (hCall : c.call Code.calls env o r call next = some c') :
    ∃ x, Model.Moves (env r.table) (a.session r.table) call x ∧
      TablesBehind c' (a.set r.table x o (next (x.use r.data))) := by
  simp only [Tables.call, map_eq_some_iff] at hCall
  obtain ⟨l, hStep, rfl⟩ := hCall
  obtain ⟨x, hMoves, hBehind⟩ := (h.session r.table).step hStep
  refine ⟨x, hMoves, h.replace hBehind, ?_, h.requests⟩
  simp only [Tables.set, h.phase, hBehind.refines.use]

theorem TablesBehind.step {label : MultiCall} (h : TablesBehind c a)
    (hStep : multiStep Code.calls env address c label = some c') :
    ∃ a', MultiMoves env address a label a' ∧ TablesBehind c' a' := by
  have hPhase := h.phase
  cases label with
  | dataInit t =>
    simp only [multiStep, map_eq_some_iff] at hStep
    obtain ⟨l, hStep, rfl⟩ := hStep
    obtain ⟨x, hMoves, hBehind⟩ := (h.session t).step hStep
    exact ⟨_, .dataInit hMoves, h.replace hBehind, hPhase, h.requests⟩
  | lockAll o data =>
    simp only [multiStep, ite_none_right_eq_some, some.injEq] at hStep
    obtain ⟨⟨hIdle, hTypes⟩, rfl⟩ := hStep
    rw [hPhase] at hIdle
    exact ⟨_, .lockAll hIdle hTypes, h.session, by simp only [hPhase], h.requests⟩
  | lockNext o checkStatus =>
    simp only [multiStep, hPhase] at hStep
    split at hStep
    · next held r rest hOwner =>
      have hMore : TablesBehind { c with requests := c.requests + 1 }
          { a with requests := a.requests + 1 } :=
        ⟨h.session, hPhase, congrArg (· + 1) h.requests⟩
      rw [← hPhase] at hStep
      obtain ⟨x, hMoves, hBehind⟩ := hMore.call hStep
      rw [h.requests] at hBehind
      exact ⟨_, .lockNext hOwner hMoves, hBehind⟩
    · cases hStep
  | wake o =>
    simp only [multiStep, hPhase] at hStep
    split at hStep
    · next held r rest since hOwner =>
      obtain ⟨x, hMoves, hBehind⟩ := h.call hStep
      exact ⟨_, .wake hOwner hMoves, hBehind⟩
    · cases hStep
  | waitFails o =>
    simp only [multiStep, hPhase] at hStep
    split at hStep
    · next held r rest since hOwner =>
      obtain ⟨x, hMoves, hBehind⟩ := h.call hStep
      exact ⟨_, .waitFails hOwner hMoves, hBehind⟩
    · cases hStep
  | unlockAll o =>
    simp only [multiStep, hPhase] at hStep
    split at hStep
    · next held hOwner =>
      cases hStep
      exact ⟨_, .unlockAll hOwner, h.session, rfl, h.requests⟩
    · cases hStep
  | unlockNext o checkStatus =>
    simp only [multiStep, hPhase] at hStep
    split at hStep
    · next r held hOwner =>
      obtain ⟨x, hMoves, hBehind⟩ := h.call hStep
      exact ⟨_, .unlockNext hOwner hMoves, hBehind⟩
    · cases hStep

/-- An invariant of the lists holds along every run of the code. -/
theorem multiRun_invariant {ok : LinkedTables → MultiCall → Prop}
    (run : (multiSystem Code.calls env address).Run ok (.init Code.calls) c)
    (Inv : QueuedTables → Prop) (hInit : Inv (.init Model.calls))
    (hMoves : ∀ c a label c' a', TablesBehind c a → Inv a → ok c label →
      MultiMoves env address a label a' → TablesBehind c' a' → Inv a') :
    ∃ a, TablesBehind c a ∧ Inv a := by
  apply run.invariant (fun c => ∃ a, TablesBehind c a ∧ Inv a) ⟨_, behind_tables_init, hInit⟩
  rintro c label c' ⟨a, hBehind, hInv⟩ hOk hStep
  obtain ⟨a', hMove, hBehind'⟩ := hBehind.step hStep
  exact ⟨a', hBehind', hMoves c a label c' a' hBehind hInv hOk hMove hBehind'⟩

end

end MySQL.ThrLock
