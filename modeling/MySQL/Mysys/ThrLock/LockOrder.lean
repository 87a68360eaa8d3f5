import MySQL.Mysys.ThrLock.Sharing

/-! What the owners have and in which order they ask for it. Every running or
waiting instance belongs to a request of its owner, and an owner that waits
has no lock on the table it waits for. -/
namespace MySQL.ThrLock
open Function List Library Model

/-! ### What a call leaves alone -/

/-- The instance `e` is what it was, except that a waiting insert may have
been upgraded. -/
structure Kept (s s' : QueuedSession) (e : DataId) : Prop where
  use : s'.use e = s.use e
  owner : s'.lock.owner e = s.lock.owner e
  type : s'.lock.type e = s.lock.type e ∨
    (s.lock.type e = .writeConcurrentInsert ∧ s'.lock.type e = .write)

namespace Model
variable {env : Env} {s s' : QueuedLock} {d e : DataId}

theorem Given.owner_eq (h : Given s s') : s'.owner = s.owner := by
  cases h <;> rfl

theorem Given.type_eq (h : Given s s') (e : DataId) :
    s'.type e = s.type e ∨ (s.type e = .writeConcurrentInsert ∧ s'.type e = .write) := by
  cases h with
  | busy => exact .inl rfl
  | closed => exact .inl rfl
  | freed => exact .inl rfl
  | @upgraded d _ _ _ hType =>
    rcases eq_or_ne e d with rfl | hNe
    · exact .inr ⟨hType, by simp⟩
    · exact .inl (by simp [hNe])
  | @started count d t _ _ _ hType =>
    rcases eq_or_ne e d with rfl | hNe
    · simpa [startBatch] using hType
    · exact .inl (by simp [startBatch, hNe])
  | startedShared => exact .inl rfl

section
variable {r : QueuedLock × Outcome} (h : Decided env s d r)
include h

theorem Decided.owner_eq : r.1.owner = s.owner := by
  cases h <;> rfl

theorem Decided.type_of_ne (he : e ≠ d) : r.1.type e = s.type e := by
  cases h with
  | aborted => simp [he]
  | _ => rfl

/-- A request that is granted or waits has the type it was decided with. -/
theorem Decided.type_self (hUse : Use.after r.2 ≠ .idle) : r.1.type d = s.type d := by
  cases h with
  | aborted => exact absurd rfl hUse
  | _ => rfl

end

end Model

section
variable {env : Env} {s x : QueuedSession} {d e : DataId}

theorem kept_lock {o : Owner} {t : LockType} {checkStatus : Bool}
    (h : Model.Moves env s (.lock d o t checkStatus) x) (he : e ≠ d) : Kept s x e := by
  cases h with
  | lock _ _ _ hDecided =>
    refine ⟨update_of_ne he .., ?_, .inl ?_⟩
    · exact (congrFun hDecided.owner_eq e).trans (request_owner_of_ne _ _ he)
    · exact (hDecided.type_of_ne he).trans (request_type_of_ne _ _ he)

theorem kept_wake (h : Model.Moves env s (.wake d) x) (he : e ≠ d) : Kept s x e := by
  cases h with
  | wake => exact ⟨update_of_ne he .., rfl, .inl rfl⟩

theorem kept_waitFails (h : Model.Moves env s (.waitFails d) x) (he : e ≠ d) : Kept s x e := by
  cases h with
  | waitFails =>
    exact ⟨update_of_ne he .., rfl, .inl (by simp [waitFailed, he, remove, put])⟩

theorem kept_unlock {checkStatus : Bool} (h : Model.Moves env s (.unlock d checkStatus) x)
    (he : e ≠ d) : Kept s x e := by
  cases h with
  | unlockAborted => exact ⟨update_of_ne he .., rfl, .inl rfl⟩
  | unlock _ _ hGiven =>
    have hRelease : (release s.lock d).type e = s.lock.type e := by
      simp [release, remove, put, he]
    refine ⟨update_of_ne he .., congrFun hGiven.owner_eq e, ?_⟩
    rw [← hRelease]
    exact hGiven.type_eq e

theorem kept_dataInit (h : Model.Moves env s .dataInit x) (he : e < s.lock.instances) :
    Kept s x e := by
  cases h with
  | dataInit =>
    refine ⟨rfl, rfl, .inl ?_⟩
    simp [thrLockDataInit, ne_of_lt he]

end

/-! ### The plans of the owners -/

namespace Phase

def taken : Phase → List Request
  | .locking held _ => held
  | .waiting held current _ _ => held ++ [current]
  | .unlocking held => held

def wanted : Phase → List Request
  | .locking _ rest => rest
  | .waiting _ _ rest _ => rest
  | .unlocking _ => []

end Phase

structure Planned (address : Table → Int) (p : Phase) : Prop where
  ascending : (p.taken ++ p.wanted).Pairwise fun x y => x.key address ≤ y.key address
  requestable : ∀ r ∈ p.taken ++ p.wanted, Requestable r.type

namespace Planned
variable {address : Table → Int} {held rest : List Request} {r : Request} {since : Nat}

theorem idle : Planned address (.unlocking []) :=
  ⟨by simp [Phase.taken, Phase.wanted], by simp [Phase.taken, Phase.wanted]⟩

theorem start {data : List Request} (h : ∀ r ∈ data, Requestable r.type) :
    Planned address (.locking [] (lockOrder address data)) :=
  ⟨lockOrder_ascending address data, fun r hr => h r ((mem_lockOrder address).mp hr)⟩

/-- All that an owner can do next keeps to its plan. -/
theorem sublist {p p' : Phase} (h : Planned address p)
    (hSub : (p'.taken ++ p'.wanted).Sublist (p.taken ++ p.wanted)) : Planned address p' :=
  ⟨h.ascending.sublist hSub, fun r hr => h.requestable r (hSub.subset hr)⟩

section
variable {p : Phase} (h : Planned address p) (hPlan : p.taken ++ p.wanted = held ++ r :: rest)
include h hPlan

theorem after (u : Use) : Planned address (.after held r rest since u) := by
  apply h.sublist
  rw [hPlan]
  cases u with
  | idle => simp [Phase.after, Phase.taken, Phase.wanted]
  | held => simp [Phase.after, Phase.taken, Phase.wanted]
  | waiting n => simp [Phase.after, Phase.taken, Phase.wanted]

/-- What an owner has of a table is at least as strong as what it asks for next. -/
theorem type_le {x : Request} (hx : x ∈ held) (hTable : x.table = r.table) : r.type ≤ x.type := by
  have hSorted := h.ascending
  rw [hPlan, pairwise_append] at hSorted
  exact type_le_of_key_le (hSorted.2.2 x hx r mem_cons_self) hTable

end

end Planned

/-! ### What the owners have -/

section
variable (env : Table → Env) (S : Table → QueuedSession) (o : Owner)

structure Has (r : Request) (use : Use) : Prop where
  use : (S r.table).use r.data = use
  owner : (S r.table).lock.owner r.data = o
  type : Granted (env r.table) r.type ((S r.table).lock.type r.data)

structure HasAll (held : List Request) : Prop where
  has : ∀ r ∈ held, Has env S o r .held
  distinct : held.Pairwise fun x y => x.table = y.table → x.data ≠ y.data

def Fits : Phase → Prop
  | .locking held _ => HasAll env S o held
  | .waiting held r _ _ =>
    HasAll env S o held ∧ (∃ n, Has env S o r (.waiting n)) ∧ ∀ x ∈ held, x.table ≠ r.table
  | .unlocking held => HasAll env S o held

end

/-- The tables are used by the owners as they planned, and by nobody else. -/
structure Orderly (env : Table → Env) (address : Table → Int) (a : QueuedTables) : Prop where
  planned : ∀ o, Planned address (a.phase o)
  fits : ∀ o, Fits env a.session o (a.phase o)
  known : ∀ t d, (a.session t).use d ≠ .idle →
    ∃ r ∈ (a.phase ((a.session t).lock.owner d)).taken, r.table = t ∧ r.data = d

section
variable {env : Table → Env} {S S' : Table → QueuedSession} {o : Owner} {held : List Request} {r : Request} {p : Phase}

theorem Has.congr {use : Use} (h : Has env S o r use)
    (hKept : Kept (S r.table) (S' r.table) r.data) : Has env S' o r use :=
  ⟨hKept.use.trans h.use, hKept.owner.trans h.owner, h.type.retype hKept.type⟩

theorem HasAll.congr (h : HasAll env S o held)
    (hKept : ∀ r ∈ held, Kept (S r.table) (S' r.table) r.data) : HasAll env S' o held :=
  ⟨fun r hr => (h.has r hr).congr (hKept r hr), h.distinct⟩

theorem Fits.congr (h : Fits env S o p)
    (hKept : ∀ r ∈ p.taken, Kept (S r.table) (S' r.table) r.data) : Fits env S' o p := by
  cases p with
  | locking held rest => exact HasAll.congr h hKept
  | waiting held r rest since =>
    obtain ⟨hHeld, ⟨n, hWaits⟩, hAlone⟩ := h
    exact ⟨hHeld.congr fun x hx => hKept x (mem_append_left _ hx),
      ⟨n, hWaits.congr (hKept r (by simp [Phase.taken]))⟩, hAlone⟩
  | unlocking held => exact HasAll.congr h hKept

theorem Fits.has (h : Fits env S o p) (hr : r ∈ p.taken) :
    ∃ use, use ≠ .idle ∧ Has env S o r use := by
  cases p with
  | locking held rest => exact ⟨.held, by simp, HasAll.has h r hr⟩
  | waiting held current rest since =>
    obtain ⟨hHeld, ⟨n, hWaits⟩, -⟩ := h
    rcases mem_append.mp hr with hr | hr
    · exact ⟨.held, by simp, hHeld.has r hr⟩
    · rw [mem_singleton.mp hr]
      exact ⟨.waiting n, by simp, hWaits⟩
  | unlocking held => exact ⟨.held, by simp, HasAll.has h r hr⟩

theorem HasAll.append (h : HasAll env S o held) (hNew : Has env S o r .held)
    (hDistinct : ∀ x ∈ held, x.table = r.table → x.data ≠ r.data) :
    HasAll env S o (held ++ [r]) where
  has x hx := by
    rcases mem_append.mp hx with hx | hx
    · exact h.has x hx
    · rw [mem_singleton.mp hx]
      exact hNew
  distinct := by
    rw [pairwise_append]
    refine ⟨h.distinct, pairwise_singleton _ r, fun x hx y hy => ?_⟩
    rw [mem_singleton.mp hy]
    exact hDistinct x hx

end

/-! ### Steps -/

namespace Orderly
variable {env : Table → Env} {address : Table → Int} {a : QueuedTables} {o : Owner} {t : Table}
  {x : QueuedSession} {d : DataId} {p : Phase} {held rest : List Request} {r : Request}
  {since : Nat}

theorem init : Orderly env address (.init calls) where
  planned _ := .idle
  fits _ := ⟨by simp, .nil⟩
  known t d hUse := absurd rfl hUse

/-- An owner goes on without a call. -/
theorem setPhase (h : Orderly env address a) (hTaken : p.taken = (a.phase o).taken)
    (hPlanned : Planned address p) (hFits : Fits env a.session o p) :
    Orderly env address { a with phase := update a.phase o p } where
  planned o' := by
    rcases eq_or_ne o' o with rfl | hNe
    · simpa using hPlanned
    · simpa [hNe] using h.planned o'
  fits o' := by
    rcases eq_or_ne o' o with rfl | hNe
    · simpa using hFits
    · simpa [hNe] using h.fits o'
  known t d hUse := by
    obtain ⟨r, hr, hEq⟩ := h.known t d hUse
    refine ⟨r, ?_, hEq⟩
    rcases eq_or_ne ((a.session t).lock.owner d) o with hOwner | hNe
    · rw [hOwner] at hr
      simpa [hOwner, hTaken] using hr
    · simpa [hNe] using hr

private theorem kept_update {r : Request} (hKept : ∀ e ≠ d, Kept (a.session t) x e)
    (hNe : r.table = t → r.data ≠ d) :
    Kept (a.session r.table) (update a.session t x r.table) r.data := by
  by_cases hTable : r.table = t
  · subst hTable
    simpa using hKept r.data (hNe rfl)
  · rw [update_of_ne hTable]
    exact ⟨rfl, rfl, .inl rfl⟩

section
variable (h : Orderly env address a)
include h

/-- A call for the instance `d`, after which its owner is in phase `p`. -/
theorem set (hKept : ∀ e ≠ d, Kept (a.session t) x e)
    (hOthers : ∀ o' ≠ o, ∀ r ∈ (a.phase o').taken, r.table = t → r.data ≠ d)
    (hPlanned : Planned address p) (hFits : Fits env (update a.session t x) o p)
    (hKeep : ∀ r ∈ (a.phase o).taken, (r.table = t → r.data ≠ d) → r ∈ p.taken)
    (hNew : x.use d ≠ .idle → x.lock.owner d = o ∧ ∃ r ∈ p.taken, r.table = t ∧ r.data = d) :
    Orderly env address (a.set t x o p) where
  planned o' := by
    rcases eq_or_ne o' o with rfl | hNe
    · simpa [Tables.set] using hPlanned
    · simpa [Tables.set, hNe] using h.planned o'
  fits o' := by
    rcases eq_or_ne o' o with rfl | hNe
    · simpa [Tables.set] using hFits
    · simp only [Tables.set, update_of_ne hNe]
      exact (h.fits o').congr fun r hr => kept_update hKept (hOthers o' hNe r hr)
  known u e hUse := by
    simp only [Tables.set] at hUse ⊢
    by_cases hSame : u = t ∧ e = d
    · obtain ⟨rfl, rfl⟩ := hSame
      rw [update_self] at hUse ⊢
      obtain ⟨hOwner, hIn⟩ := hNew hUse
      simpa [hOwner] using hIn
    · have hNe : u = t → e ≠ d := fun hu he => hSame ⟨hu, he⟩
      have hOld := kept_update (r := ⟨u, e, .unlock⟩) hKept hNe
      rw [hOld.use] at hUse
      rw [hOld.owner]
      obtain ⟨r, hr, rfl, rfl⟩ := h.known u e hUse
      refine ⟨r, ?_, rfl, rfl⟩
      rcases eq_or_ne ((a.session r.table).lock.owner r.data) o with hOwner | hOther
      · rw [hOwner] at hr ⊢
        rw [update_self]
        exact hKeep r hr hNe
      · rwa [update_of_ne hOther]

theorem has (hr : r ∈ (a.phase o).taken) :
    (a.session r.table).use r.data ≠ .idle ∧ (a.session r.table).lock.owner r.data = o ∧
      Granted (env r.table) r.type ((a.session r.table).lock.type r.data) := by
  obtain ⟨use, hUse, hHas⟩ := (h.fits o).has hr
  exact ⟨hHas.use ▸ hUse, hHas.owner, hHas.type⟩

/-- The instance of an owner's request is not another owner's. -/
theorem others (hr : r ∈ (a.phase o).taken) (o' : Owner) (hNe : o' ≠ o) (r' : Request)
    (hr' : r' ∈ (a.phase o').taken) (hTable : r'.table = r.table) : r'.data ≠ r.data := by
  intro hData
  have hOwner' := (h.has hr').2.1
  rw [hTable, hData, (h.has hr).2.1] at hOwner'
  exact hNe hOwner'.symm

/-- Every instance in a list has a type that was requested. -/
theorem granted (hUse : (a.session t).use d ≠ .idle) :
    ∃ r ∈ (a.phase ((a.session t).lock.owner d)).taken, r.table = t ∧ r.data = d ∧
      Granted (env t) r.type ((a.session t).lock.type d) ∧ Requestable r.type := by
  obtain ⟨r, hr, rfl, rfl⟩ := h.known t d hUse
  exact ⟨r, hr, rfl, rfl, (h.has hr).2.2, (h.planned _).requestable r (mem_append_left _ hr)⟩

theorem requestable (hSettled : Settled (a.session t).lock (a.session t).use) {n : ListName}
    (hd : d ∈ (a.session t).lock.queues n) : Requestable ((a.session t).lock.type d) := by
  obtain ⟨r, -, -, -, hGranted, hType⟩ := h.granted (hSettled.entry hd).use_ne_idle
  exact hGranted.requestable hType

theorem dataInit (hSettled : Settled (a.session t).lock (a.session t).use)
    (hBound : ∀ n, ∀ d ∈ (a.session t).lock.queues n, d < (a.session t).lock.instances)
    (hMoves : Model.Moves (env t) (a.session t) .dataInit x) :
    Orderly env address { a with session := update a.session t x } := by
  have hKept (u : Table) (e : DataId) (hUse : (a.session u).use e ≠ .idle) :
      Kept (a.session u) (update a.session t x u) e := by
    rcases eq_or_ne u t with rfl | hNe
    · rw [update_self]
      obtain ⟨r, -, -, -, hGranted, hType⟩ := h.granted hUse
      obtain ⟨n, hn⟩ := hSettled.listed hUse (hGranted.requestable hType).1
      exact kept_dataInit hMoves (hBound n e hn)
    · rw [update_of_ne hNe]
      exact ⟨rfl, rfl, .inl rfl⟩
  have hUseEq (u : Table) : (update a.session t x u).use = (a.session u).use := by
    rcases eq_or_ne u t with rfl | hNe
    · rw [update_self]
      cases hMoves
      rfl
    · rw [update_of_ne hNe]
  refine ⟨h.planned, fun o => (h.fits o).congr fun r hr => hKept _ _ (h.has hr).1, ?_⟩
  intro u e hUse
  simp only [hUseEq] at hUse
  simp only [(hKept u e hUse).owner]
  exact h.known u e hUse

end

variable {checkStatus : Bool}

private theorem has_of_lock {env : Env} {s x : QueuedSession} {asked : LockType}
    (hMoves : Model.Moves env s (.lock d o asked checkStatus) x) (hUse : x.use d ≠ .idle) :
    x.lock.owner d = o ∧ Granted env asked (x.lock.type d) := by
  cases hMoves with
  | lock _ _ hDecidedType hDecided =>
    simp only [update_self] at hUse ⊢
    rw [hDecided.owner_eq, hDecided.type_self hUse, request_owner, request_type]
    exact ⟨rfl, .of_decidedType hDecidedType⟩

private theorem selfBlocks_of_request {s : QueuedLock} {asked got : LockType}
    (hFresh : ∀ n, d ∉ s.queues n) (hType : got ≤ .writeAllowRead → got = asked)
    (h : SelfBlocks (request s d o got) o got) : SelfBlocks s o asked := by
  have hOther {n : ListName} {e : DataId} (he : e ∈ s.queues n) :
      (request s d o got).type e = s.type e ∧
        (request s d o got).owner e = s.owner e := by
    have hNe : e ≠ d := fun hEq => hFresh n (hEq ▸ he)
    exact ⟨request_type_of_ne _ _ hNe, request_owner_of_ne _ _ hNe⟩
  obtain ⟨w, hFirst, hNe, hCase⟩ := h
  have hw : w ∈ s.queues .write := mem_of_head? hFirst
  rw [(hOther hw).2] at hNe
  rw [(hOther hw).1] at hCase
  refine ⟨w, hFirst, hNe, ?_⟩
  rcases hCase with ⟨rfl, hAllow, hWait, e, he, hOwner⟩ | ⟨rfl, hAllow, e, he, hOwner, heType⟩
  · refine .inl ⟨(hType (by decide)).symm, hAllow, hWait, e, he, ?_⟩
    rwa [(hOther he).2] at hOwner
  · refine .inr ⟨(hType (by decide)).symm, hAllow, e, he, ?_, ?_⟩
    · rwa [(hOther he).2] at hOwner
    · rwa [(hOther he).1] at heType

section
variable (h : Orderly env address a)
include h

/-- An owner that goes to sleep has no lock on the table, unless it blocks itself. -/
theorem alone (hSettled : Settled (a.session r.table).lock (a.session r.table).use)
    (hShared : Shared (a.session r.table).lock) (hPhase : a.phase o = .locking held (r :: rest))
    (hMoves : Model.Moves (env r.table) (a.session r.table) (.lock r.data o r.type checkStatus) x)
    {n : ListName} (hWaits : x.use r.data = .waiting n)
    (hSelf : ¬ SelfBlocks (a.session r.table).lock o r.type) : ∀ y ∈ held, y.table ≠ r.table := by
  intro y hy hTable
  apply hSelf
  have hPlan := h.planned o
  have hFits := h.fits o
  rw [hPhase] at hPlan hFits
  have hHas := HasAll.has hFits y hy
  have hLe : r.type ≤ y.type := hPlan.type_le rfl hy hTable
  have hRequestable : Requestable y.type :=
    hPlan.requestable y (mem_append_left _ hy)
  obtain ⟨hUse, hOwner, hGranted⟩ := hHas
  rw [hTable] at hUse hOwner hGranted
  generalize hs : a.session r.table = s at *
  have hRuns : y.data ∈ s.lock.queues .read ∨ y.data ∈ s.lock.queues .write := by
    have hLocked := hGranted.requestable hRequestable
    have hIn := hSettled.mem_heldIn hUse hLocked.1
    unfold heldIn at hIn
    split_ifs at hIn with hRead hDelayed
    · exact .inl hIn
    · exact absurd hDelayed.1 hLocked.2.1
    · exact .inr hIn
  cases hMoves with
  | @lock _ _ _ t' _ _ hIdle hType hDecidedType hDecided =>
    have hFresh := hSettled.notMem_of_idle hIdle
    have hNe : y.data ≠ r.data := by
      intro hEq
      rw [hEq, hIdle] at hUse
      cases hUse
    simp only [update_self] at hWaits
    have hAsked := Granted.of_decidedType hDecidedType
    apply selfBlocks_of_request hFresh hAsked.eq_of_le
    set lock := request s.lock r.data o t'
    have hType e (he : e ≠ r.data) : lock.type e = s.lock.type e := request_type_of_ne _ _ he
    have hOwners e (he : e ≠ r.data) : lock.owner e = s.lock.owner e := request_owner_of_ne _ _ he
    have hNew : lock.owner r.data = o ∧ lock.type r.data = t' := ⟨request_owner .., request_type ..⟩
    have hShared' : Shared lock := hShared.frame (Sublist.refl _) (Subset.refl _)
      ⟨hFresh _, hFresh _⟩ hType hOwners
    have hReads e (he : e ∈ s.lock.queues .read) : lock.type e ≤ .readNoInsert := by
      rw [hType e fun hEq => hFresh _ (hEq ▸ he)]
      exact (hSettled.entry he).2.2.1
    have hBefore : Granted (env r.table) y.type (lock.type y.data) := by rwa [hType _ hNe]
    have hSame : lock.owner y.data = lock.owner r.data := by rwa [hOwners _ hNe, hNew.1]
    have hAsked' : Granted (env r.table) r.type (lock.type r.data) := by rwa [hNew.2]
    have hResult : SelfBlocks lock (lock.owner r.data) (lock.type r.data) := by
      cases hDecided with
      | readWaits hReader hBlocked =>
        exact hShared'.selfBlocks_of_readerBlocked hReads hRuns hSame hBefore hAsked' hLe
          hReader hBlocked
      | writeWaits hWriter hBlocked =>
        exact hShared'.selfBlocks_of_writerBlocked hReads hRuns hSame hBefore hAsked' hLe
          hWriter hBlocked
      | _ => cases hWaits
    rwa [hNew.1, hNew.2] at hResult

theorem lockNext (hPhase : a.phase o = .locking held (r :: rest))
    (hMoves : Model.Moves (env r.table) (a.session r.table) (.lock r.data o r.type checkStatus) x)
    (hAlone : ∀ n, x.use r.data = .waiting n → ∀ y ∈ held, y.table ≠ r.table) :
    Orderly env address (a.set r.table x o (.after held r rest since (x.use r.data))) := by
  have hIdle : (a.session r.table).use r.data = .idle := by
    cases hMoves
    assumption
  have hOff (o' : Owner) (y : Request) (hy : y ∈ (a.phase o').taken) (hTable : y.table = r.table) :
      y.data ≠ r.data := by
    intro hData
    have hUse := (h.has hy).1
    rw [hTable, hData] at hUse
    exact hUse hIdle
  have hPlan := h.planned o
  have hFits := h.fits o
  have hOwn := hOff o
  rw [hPhase] at hPlan hFits hOwn
  have hHeld : HasAll env (update a.session r.table x) o held :=
    HasAll.congr hFits fun y hy => kept_update (fun _ => kept_lock hMoves) (hOwn y hy)
  have hNew (u : Use) (hUse : x.use r.data = u) (hu : u ≠ .idle) :
      Has env (update a.session r.table x) o r u := by
    obtain ⟨hOwner, hType⟩ := has_of_lock hMoves (hUse ▸ hu)
    exact ⟨by simpa using hUse, by simpa using hOwner, by simpa using hType⟩
  apply h.set (d := r.data) (fun _ => kept_lock hMoves) (fun o' _ => hOff o') (hPlan.after rfl _)
  · cases hUse : x.use r.data with
    | idle => exact hHeld
    | held => exact hHeld.append (hNew _ hUse (by simp)) hOwn
    | waiting n => exact ⟨hHeld, ⟨n, hNew _ hUse (by simp)⟩, hAlone n hUse⟩
  · intro y hy _
    rw [hPhase] at hy
    cases x.use r.data with
    | idle => exact hy
    | held => exact mem_append_left _ hy
    | waiting n => exact mem_append_left _ hy
  · intro hUse
    refine ⟨(has_of_lock hMoves hUse).1, r, ?_, rfl, rfl⟩
    cases hNew : x.use r.data with
    | idle => exact absurd hNew hUse
    | held => simp [Phase.after, Phase.taken]
    | waiting n => simp [Phase.after, Phase.taken]

/-- The wait of an owner ends. -/
theorem endWait (hPhase : a.phase o = .waiting held r rest since)
    (hKept : ∀ e ≠ r.data, Kept (a.session r.table) x e)
    (hLock : x.use r.data = .held → x.lock = (a.session r.table).lock)
    (hEnd : ∀ n, x.use r.data ≠ .waiting n) :
    Orderly env address (a.set r.table x o (.after held r rest since (x.use r.data))) := by
  have hr : r ∈ (a.phase o).taken := by simp [hPhase, Phase.taken]
  have hPlan := h.planned o
  have hFits := h.fits o
  rw [hPhase] at hPlan hFits
  obtain ⟨hHeld, ⟨n, hWaits⟩, hAlone⟩ := hFits
  have hHeld' : HasAll env (update a.session r.table x) o held :=
    hHeld.congr fun y hy => kept_update hKept fun hTable => absurd hTable (hAlone y hy)
  apply h.set hKept (h.others hr) (hPlan.after (by simp [Phase.taken, Phase.wanted]) _)
  · cases hUse : x.use r.data with
    | idle => exact hHeld'
    | held =>
      refine hHeld'.append ⟨by simpa using hUse, ?_, ?_⟩ fun y hy hTable =>
        absurd hTable (hAlone y hy)
      · simpa [hLock hUse] using hWaits.owner
      · simpa [hLock hUse] using hWaits.type
    | waiting n => exact absurd hUse (hEnd n)
  · intro y hy hNe
    rw [hPhase, Phase.taken, mem_append, mem_singleton] at hy
    have hHeldMem : y ∈ held := hy.resolve_right fun hEq => hNe (by rw [hEq]) (by rw [hEq])
    cases x.use r.data with
    | idle => exact hHeldMem
    | held => exact mem_append_left _ hHeldMem
    | waiting n => exact mem_append_left _ hHeldMem
  · intro hUse
    cases hNew : x.use r.data with
    | idle => exact absurd hNew hUse
    | held =>
      refine ⟨?_, r, by simp [Phase.after, Phase.taken], rfl, rfl⟩
      rw [hLock hNew]
      exact hWaits.owner
    | waiting n => exact absurd hNew (hEnd n)

theorem unlockNext (hPhase : a.phase o = .unlocking (r :: held))
    (hMoves : Model.Moves (env r.table) (a.session r.table) (.unlock r.data checkStatus) x) :
    Orderly env address (a.set r.table x o (.unlocking held)) := by
  have hr : r ∈ (a.phase o).taken := by simp [hPhase, Phase.taken]
  have hPlan := h.planned o
  have hFits := h.fits o
  rw [hPhase] at hPlan hFits
  obtain ⟨hHas, hDistinct⟩ := hFits
  rw [pairwise_cons] at hDistinct
  have hIdle : x.use r.data = .idle := by
    cases hMoves <;> exact update_self ..
  apply h.set (d := r.data) (fun _ => kept_unlock hMoves) (h.others hr)
  · exact hPlan.sublist (sublist_cons_self r _)
  · refine ⟨fun y hy => (hHas y (mem_cons_of_mem r hy)).congr ?_, hDistinct.2⟩
    exact kept_update (fun _ => kept_unlock hMoves) fun hTable =>
      (hDistinct.1 y hy hTable.symm).symm
  · intro y hy hNe
    rw [hPhase] at hy
    exact (mem_cons.mp hy).resolve_left fun hEq => hNe (by rw [hEq]) (by rw [hEq])
  · exact fun hUse => absurd hIdle hUse

end

end Orderly

/-! ### The running locks -/

section
variable {env : Table → Env} {address : Table → Int} {a : QueuedTables} {o : Owner} {t : Table}
  {s x : QueuedSession} {d : DataId} {held rest : List Request} {r : Request}
  {checkStatus : Bool}

theorem Shared.dataInit {env : Env} (h : Shared s.lock)
    (hBound : ∀ n, ∀ d ∈ s.lock.queues n, d < s.lock.instances)
    (hMoves : Model.Moves env s .dataInit x) : Shared x.lock := by
  cases hMoves with
  | dataInit =>
    have hOff (n : ListName) : s.lock.instances ∉ s.lock.queues n := fun hn =>
      absurd (hBound n _ hn) (lt_irrefl _)
    exact h.frame (Sublist.refl _) (Subset.refl _)
      ⟨hOff _, hOff _⟩ (fun e he => by simp [thrLockDataInit, he]) (fun _ _ => rfl)

private theorem Shared.remove {n : ListName} {t : LockType} {s s' : QueuedLock}
    {use : DataId → Use} (h : Shared s) (hSettled : Settled s use) (hd : d ∈ s.queues n)
    (hQueues : s'.queues = (remove s n d).queues)
    (hType : s'.type = (s.setType d t).type) (hOwner : s'.owner = s.owner) : Shared s' := by
  have hSub (m : ListName) : (s'.queues m).Sublist (s.queues m) := by
    rw [hQueues]
    rcases eq_or_ne m n with rfl | hm
    · rw [remove_self]
      exact erase_sublist
    · rw [remove_of_ne hm]
  refine h.frame (d := d) (hSub .write) (hSub .read).subset ?_ (fun e he => ?_) fun e _ => ?_
  · rw [hQueues]
    exact ⟨hSettled.notMem_remove hd _, hSettled.notMem_remove hd _⟩
  · simp [hType, he]
  · rw [hOwner]

theorem Shared.waitFails {env : Env} (h : Shared s.lock) (hSettled : Settled s.lock s.use)
    (hMoves : Model.Moves env s (.waitFails d) x) : Shared x.lock := by
  cases hMoves with
  | waitFails hUse hCond =>
    exact h.remove hSettled (hSettled.mem_of_waiting hUse hCond) rfl rfl rfl

theorem Shared.unlock {env : Env} (h : Shared s.lock) (hSettled : Settled s.lock s.use)
    (hMoves : Model.Moves env s (.unlock d checkStatus) x)
    (hTypes : ∀ y ∈ x.lock.queues .write, x.lock.type y ≠ .writeOnly) : Shared x.lock := by
  cases hMoves with
  | unlockAborted => exact h
  | unlock hUse hType hGiven =>
    have hReleased : Shared (release s.lock d) :=
      h.remove hSettled (hSettled.mem_heldIn hUse hType) rfl rfl rfl
    exact hReleased.given (hSettled.release hUse hType) hGiven hTypes

theorem Orderly.shared_lock (h : Orderly env address a)
    (hSettled : Settled (a.session r.table).lock (a.session r.table).use)
    (hShared : Shared (a.session r.table).lock) (hPhase : a.phase o = .locking held (r :: rest))
    (hMoves : Model.Moves (env r.table) (a.session r.table)
      (.lock r.data o r.type checkStatus) x) : Shared x.lock := by
  have hPlan := h.planned o
  rw [hPhase] at hPlan
  have hr : Requestable r.type := hPlan.requestable r (mem_append_right _ mem_cons_self)
  cases hMoves with
  | @lock _ _ _ t' _ _ hIdle hType hDecidedType hDecided =>
    have hFresh := hSettled.notMem_of_idle hIdle
    have hNe {n : ListName} {y : DataId} (hy : y ∈ (a.session r.table).lock.queues n) :
        y ≠ r.data := fun hEq => hFresh n (hEq ▸ hy)
    have hGranted := (Granted.of_decidedType hDecidedType).requestable hr
    refine Shared.decided
      ?_ (hSettled.request hIdle hGranted.1) ?_ ?_ ?_ hDecided
    · exact hShared.frame (Sublist.refl _) (Subset.refl _)
        ⟨hFresh _, hFresh _⟩ (fun _ he => request_type_of_ne _ _ he)
        (fun _ he => request_owner_of_ne _ _ he)
    · rw [request_type]
      exact hGranted.2.1
    · intro y hy
      rw [request_type_of_ne _ _ (hNe hy)]
      exact ⟨(hSettled.entry hy).2.1, h.requestable hSettled hy⟩
    · -- what the owner runs already was asked for before, so it is as strong
      intro y hy hOwner
      rw [request_owner_of_ne _ _ (hNe hy), request_owner] at hOwner
      rw [request_type_of_ne _ _ (hNe hy), request_type]
      obtain ⟨r', hr', hTable, hData, hGranted', hRequestable⟩ :=
        h.granted (hSettled.entry hy).use_ne_idle
      rw [hOwner, hPhase] at hr'
      have hEq : t' = (env r.table).requestedType r.type := by
        rcases hDecidedType with hEq | ⟨-, hNone, -⟩
        · exact hEq
        · have hIn : y ∈ (a.session r.table).lock.queues .write := hy
          simp [hNone] at hIn
      rw [hEq]
      exact hGranted'.strength_le hRequestable (hPlan.type_le rfl hr' hTable)

end

/-! ### Runs -/

def Tables.lists (c : LinkedTables) : QueuedTables where
  session t := ⟨(c.session t).lock.withQueues (Code.listOf (c.session t).lock), (c.session t).use⟩
  phase := c.phase
  requests := c.requests

theorem TablesBehind.lists_eq {c : LinkedTables} {a : QueuedTables} (h : TablesBehind c a) :
    c.lists = a := by
  have hSession (t : Table) : c.lists.session t = a.session t := by
    obtain ⟨⟨hLock, hUse⟩, -⟩ := h.session t
    have hLists : (c.session t).lock.withQueues (Code.listOf (c.session t).lock) =
        (a.session t).lock := by
      apply Lock.ext
      · funext n
        exact hLock.listOf_eq n
      · exact hLock.owner_eq
      · exact hLock.type_eq
      · exact hLock.cond_eq
      · exact hLock.writeLockCount_eq
      · exact hLock.readNoWriteCount_eq
      · exact hLock.instances_eq
    exact congrArg₂ Session.mk hLists hUse
  obtain ⟨session, phase, requests⟩ := a
  exact congr (congr (congrArg Tables.mk (funext hSession)) h.phase) h.requests

def Phase.next : Phase → Option Request
  | .locking _ rest => rest.head?
  | _ => none

def NeverSelfBlocks (a : QueuedTables) : MultiCall → Prop
  | .lockNext o _ =>
    ∀ r ∈ (a.phase o).next, ¬ SelfBlocks (a.session r.table).lock o r.type
  | _ => True

instance (s : QueuedLock) (owner : Owner) (t : LockType) : Decidable (SelfBlocks s owner t) :=
  inferInstanceAs (Decidable (∃ w ∈ _, _))

instance (a : QueuedTables) (label : MultiCall) : Decidable (NeverSelfBlocks a label) := by
  cases label <;> dsimp only [NeverSelfBlocks] <;> infer_instance

structure InOrder (env : Table → Env) (address : Table → Int) (a : QueuedTables) : Prop where
  orderly : Orderly env address a
  shared : ∀ t, Shared (a.session t).lock

namespace InOrder
variable {env : Table → Env} {address : Table → Int} {c c' : LinkedTables} {a a' : QueuedTables}
  {label : MultiCall}

theorem init : InOrder env address (.init calls) where
  orderly := .init
  shared _ := .of_no_writer rfl

private theorem shared_update {t : Table} {x : QueuedSession}
    (h : ∀ t, Shared (a.session t).lock) (hNew : Shared x.lock) (u : Table) :
    Shared (update a.session t x u).lock := by
  rcases eq_or_ne u t with rfl | hNe
  · simpa using hNew
  · simpa [hNe] using h u

theorem moves (h : InOrder env address a) (hBehind : TablesBehind c a)
    (hOk : NeverSelfBlocks a label) (hMoves : MultiMoves env address a label a')
    (hBehind' : TablesBehind c' a') : InOrder env address a' := by
  obtain ⟨hOrderly, hShared⟩ := h
  have hSettled t := (hBehind.session t).settled
  have hBound t := (hBehind.session t).refines.lock.bound
  cases hMoves with
  | @dataInit t x hMoves =>
    exact ⟨hOrderly.dataInit (hSettled t) (hBound t) hMoves,
      shared_update hShared ((hShared t).dataInit (hBound t) hMoves)⟩
  | @lockAll o data hPhase hTypes =>
    refine ⟨hOrderly.setPhase ?_ (.start hTypes) ⟨by simp, .nil⟩, hShared⟩
    rw [hPhase]
    rfl
  | @lockNext o checkStatus held rest r x hPhase hMoves =>
    have hOrderly' : Orderly env address { a with requests := a.requests + 1 } :=
      ⟨hOrderly.planned, hOrderly.fits, hOrderly.known⟩
    have hOk := hOk r (by simp [hPhase, Phase.next])
    refine ⟨hOrderly'.lockNext hPhase hMoves fun n hWaits => ?_, shared_update hShared ?_⟩
    · exact hOrderly.alone (hSettled _) (hShared _) hPhase hMoves hWaits hOk
    · exact hOrderly.shared_lock (hSettled _) (hShared _) hPhase hMoves
  | @wake o held rest r since x hPhase hMoves =>
    have hLock : x.lock = (a.session r.table).lock := by
      cases hMoves
      rfl
    refine ⟨hOrderly.endWait hPhase (fun _ => kept_wake hMoves) (fun _ => hLock) ?_, ?_⟩
    · intro n
      cases hMoves
      split <;> simp
    · exact shared_update hShared (hLock ▸ hShared _)
  | @waitFails o held rest r since x hPhase hMoves =>
    have hIdle : x.use r.data = .idle := by
      cases hMoves
      exact update_self ..
    refine ⟨hOrderly.endWait hPhase (fun _ => kept_waitFails hMoves) ?_ ?_, ?_⟩
    · simp [hIdle]
    · simp [hIdle]
    · exact shared_update hShared ((hShared _).waitFails (hSettled _) hMoves)
  | @unlockAll o held hPhase =>
    have hPlan := hOrderly.planned o
    have hFits := hOrderly.fits o
    rw [hPhase] at hPlan hFits
    refine ⟨hOrderly.setPhase ?_ (hPlan.sublist (Sublist.refl _)) hFits, hShared⟩
    rw [hPhase]
    rfl
  | @unlockNext o checkStatus held r x hPhase hMoves =>
    have hOrderly' := hOrderly.unlockNext hPhase hMoves
    refine ⟨hOrderly', shared_update hShared ((hShared _).unlock (hSettled _) hMoves ?_)⟩
    intro y hy
    have hSettled' := (hBehind'.session r.table).settled
    have hRequestable := hOrderly'.requestable (d := y) (n := .write) hSettled'
    simp only [Tables.set, update_self] at hRequestable
    exact (hRequestable hy).2.2

end InOrder

end MySQL.ThrLock
