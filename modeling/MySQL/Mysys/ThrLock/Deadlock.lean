import MySQL.Mysys.ThrLock.LockOrder

/-! Who waits for whom. An owner that has no lock on the table it waits for
waits for owners that are further on in the order of the tables, or that
began to wait earlier; owners that wait for themselves are the exception. -/
namespace MySQL.ThrLock
open Library Relation Option

def blockedOn (a : QueuedTables) (o : Owner) : Option Request :=
  match a.phase o with
  | .waiting _ r _ _ => if (a.session r.table).lock.cond r.data then some r else none
  | _ => none

def Phase.since : Phase → Nat
  | .waiting _ _ _ since => since
  | _ => 0

/-- All locks on the table that a sleeping owner could have to wait for: those that run, and those
that began to wait there before it. -/
def blockers (a : QueuedTables) (o : Owner) (r : Request) : List DataId :=
  let s := (a.session r.table).lock
  s.queues .read ++ s.queues .write ++ (s.queues .readWait ++ s.queues .writeWait).filter fun e =>
    (a.phase (s.owner e)).since < (a.phase o).since

/-- The owner `o` sleeps where a lock of `o'` runs or began to wait earlier. -/
def WaitsFor (a : QueuedTables) (o o' : Owner) : Prop :=
  ∃ r ∈ blockedOn a o, ∃ e ∈ blockers a o r, (a.session r.table).lock.owner e = o'

instance (a : QueuedTables) (o o' : Owner) : Decidable (WaitsFor a o o') :=
  inferInstanceAs (Decidable (∃ r ∈ _, _))

/-- No owners wait for each other in a cycle, whatever the types of the locks are. A sleeping owner
that runs a lock on the table it sleeps on is a cycle, too. -/
def DeadlockFree (a : QueuedTables) : Prop :=
  ∀ o, ¬ TransGen (WaitsFor a) o o

/-- Apart from its own locks, nothing but locks of `o'` is there to wait for. -/
def WaitsOnlyFor (a : QueuedTables) (o o' : Owner) : Prop :=
  WaitsFor a o o' ∧ ∃ r ∈ blockedOn a o, ∀ e ∈ blockers a o r,
    (a.session r.table).lock.owner e = o' ∨ (a.session r.table).lock.owner e = o

instance (a : QueuedTables) (o o' : Owner) : Decidable (WaitsOnlyFor a o o') :=
  inferInstanceAs (Decidable (_ ∧ ∃ r ∈ _, _))

/-- Both sleep, and `o'` is further on in the order of the tables or began earlier. -/
def Before (address : Table → Int) (a : QueuedTables) (o o' : Owner) : Prop :=
  ∃ r ∈ blockedOn a o, ∃ r' ∈ blockedOn a o', address r.table < address r'.table ∨
    (r.table = r'.table ∧ (a.phase o').since < (a.phase o).since)

section
variable {env : Table → Env} {address : Table → Int} {a : QueuedTables} {o o' : Owner}
  {r : Request}

theorem blockedOn_eq_some (h : blockedOn a o = some r) :
    ∃ held rest since, a.phase o = .waiting held r rest since ∧
      (a.session r.table).lock.cond r.data = true := by
  unfold blockedOn at h
  split at h
  · next held r' rest since hPhase =>
    simp only [ite_none_right_eq_some, some.injEq] at h
    obtain ⟨hCond, rfl⟩ := h
    exact ⟨held, rest, since, hPhase, hCond⟩
  · cases h

theorem Before.trans {o'' : Owner} (h : Before address a o o') (h' : Before address a o' o'') :
    Before address a o o'' := by
  obtain ⟨r, hr, x, hx, hFirst⟩ := h
  obtain ⟨y, hy, r'', hr'', hSecond⟩ := h'
  obtain rfl : x = y := mem_unique hx hy
  refine ⟨r, hr, r'', hr'', ?_⟩
  rcases hFirst with hFirst | ⟨hTable, hFirst⟩ <;> rcases hSecond with hSecond | ⟨hTable', hSecond⟩
  · exact .inl (hFirst.trans hSecond)
  · exact .inl (hTable' ▸ hFirst)
  · exact .inl (hTable ▸ hSecond)
  · exact .inr ⟨hTable.trans hTable', hSecond.trans hFirst⟩

theorem Before.irrefl : ¬ Before address a o o := by
  rintro ⟨r, hr, r', hr', h⟩
  obtain rfl : r = r' := mem_unique hr hr'
  rcases h with h | ⟨-, h⟩
  · exact lt_irrefl _ h
  · exact lt_irrefl _ h

section
variable (h : InOrder env address a)
include h

/-- A running lock of a sleeping owner is on a table before the one it sleeps on. -/
theorem InOrder.address_lt (hSpaced : Spaced address) {t : Table} {e : DataId}
    (hUse : (a.session t).use e ≠ .idle) (hAwake : (a.session t).lock.cond e = false)
    (hBlocked : blockedOn a ((a.session t).lock.owner e) = some r) :
    address t < address r.table := by
  obtain ⟨held, rest, since, hPhase, hCond⟩ := blockedOn_eq_some hBlocked
  obtain ⟨x, hx, rfl, rfl⟩ := h.orderly.known t e hUse
  have hFits := h.orderly.fits ((a.session x.table).lock.owner x.data)
  have hSorted := (h.orderly.planned ((a.session x.table).lock.owner x.data)).ascending
  rw [hPhase] at hx hFits hSorted
  rcases List.mem_append.mp hx with hx | hx
  · simp only [Phase.taken, Phase.wanted, List.append_assoc, List.pairwise_append] at hSorted
    exact hSpaced.address_lt (hSorted.2.2 x hx r (by simp)) (hFits.2.2 x hx)
  · rw [List.mem_singleton.mp hx, hCond] at hAwake
    cases hAwake

/-- A waiting instance is the one its owner sleeps on. -/
theorem InOrder.table_eq {t : Table} {e : DataId} {n : ListName}
    (hUse : (a.session t).use e = .waiting n)
    (hBlocked : blockedOn a ((a.session t).lock.owner e) = some r) : r.table = t := by
  obtain ⟨held, rest, since, hPhase, hCond⟩ := blockedOn_eq_some hBlocked
  obtain ⟨x, hx, rfl, rfl⟩ := h.orderly.known t e (by simp [hUse])
  have hFits := h.orderly.fits ((a.session x.table).lock.owner x.data)
  rw [hPhase] at hx hFits
  rcases List.mem_append.mp hx with hx | hx
  · rw [(hFits.1.has x hx).use] at hUse
    cases hUse
  · rw [List.mem_singleton.mp hx]

section
variable (hSpaced : Spaced address) (hSettled : ∀ t, Settled (a.session t).lock (a.session t).use)
include hSpaced hSettled

theorem InOrder.before (hWaits : WaitsFor a o o') {r' : Request}
    (hBlocked : blockedOn a o' = some r') : Before address a o o' := by
  obtain ⟨r, hr, e, hBlocker, rfl⟩ := hWaits
  refine ⟨r, hr, r', hBlocked, ?_⟩
  simp only [blockers, List.mem_append, List.mem_filter, decide_eq_true_eq] at hBlocker
  rcases hBlocker with (hRead | hWrite) | ⟨hWait, hSince⟩
  · have hEntry := (hSettled r.table).entry hRead
    exact .inl (h.address_lt hSpaced hEntry.1 hEntry.2.2.2 hBlocked)
  · have hEntry := (hSettled r.table).entry hWrite
    exact .inl (h.address_lt hSpaced hEntry.1 hEntry.2.2 hBlocked)
  · right
    rcases hWait with hWait | hWait
    · exact ⟨(h.table_eq ((hSettled r.table).entry hWait).1 hBlocked).symm, hSince⟩
    · have hDelayed := (h.orderly.requestable (hSettled r.table) hWait).2.1
      rcases ((hSettled r.table).entry hWait).2.2 with hUse | ⟨-, hType⟩
      · exact ⟨(h.table_eq hUse hBlocked).symm, hSince⟩
      · exact absurd hType hDelayed

/-- Along the wait-for relation everybody who sleeps is further on. -/
theorem InOrder.before_of_transGen (hWaits : TransGen (WaitsFor a) o o') {r' : Request}
    (hBlocked : blockedOn a o' = some r') : Before address a o o' := by
  induction hWaits generalizing r' with
  | single hEdge => exact h.before hSpaced hSettled hEdge hBlocked
  | tail _ hEdge ih =>
    obtain ⟨r, hr, -⟩ := id hEdge
    exact (ih hr).trans (h.before hSpaced hSettled hEdge hBlocked)

theorem InOrder.waitsFor_acyclic : DeadlockFree a := by
  intro o hCycle
  obtain ⟨-, ⟨r, hr, -⟩, -⟩ := TransGen.head'_iff.mp hCycle
  exact Before.irrefl (h.before_of_transGen hSpaced hSettled hCycle hr)

end

end

end

/-- In every run in which no owner is put to sleep by the lock it has already,
no owners wait for each other in a cycle. -/
theorem deadlockFree_of_run {env : Table → Env} {address : Table → Int} (hSpaced : Spaced address)
    {c : LinkedTables}
    (run : (multiSystem Code.calls env address).Run (fun c label => NeverSelfBlocks c.lists label)
      (.init Code.calls) c) : DeadlockFree c.lists := by
  obtain ⟨a, hBehind, hInOrder⟩ := multiRun_invariant run (InOrder env address) .init
    (fun c a label c' a' hBehind hInOrder hOk hMoves hBehind' =>
      hInOrder.moves hBehind (hBehind.lists_eq ▸ hOk) hMoves hBehind')
  rw [hBehind.lists_eq]
  exact hInOrder.waitsFor_acyclic hSpaced fun t => (hBehind.session t).settled

def addressOf (t : Table) : Int := 100 * t

private theorem spaced_addressOf : Spaced addressOf := by
  have hFar (a b : Nat) (hNe : a ≠ b) : 12 < ((100 : Int) * a - 100 * b).natAbs := by omega
  exact hFar

def crossedRequests : List MultiCall :=
  [.dataInit 0, .dataInit 0, .dataInit 1, .dataInit 1,
    .lockAll 1 [⟨1, 0, .write⟩, ⟨0, 0, .write⟩], .lockAll 2 [⟨0, 1, .read⟩, ⟨1, 1, .write⟩],
    .lockNext 1 false, .lockNext 2 false, .lockNext 1 false]

theorem deadlockFree_crossedRequests :
    ∃ c, ((multiSystem Code.calls (fun _ => .default) addressOf).checked
        fun c label => NeverSelfBlocks c.lists label).exec (.init Code.calls) crossedRequests =
          some c ∧ blockedOn c.lists 2 = some ⟨0, 1, .read⟩ ∧ DeadlockFree c.lists := by
  have hRun : (((multiSystem Code.calls (fun _ => .default) addressOf).checked
      fun c label => NeverSelfBlocks c.lists label).exec (.init Code.calls) crossedRequests).map
        (fun c => blockedOn c.lists 2) = some (some ⟨0, 1, .read⟩) := by decide
  obtain ⟨c, hExec, hBlocked⟩ := map_eq_some_iff.mp hRun
  exact ⟨c, hExec, hBlocked,
    deadlockFree_of_run spaced_addressOf (System.run_of_exec_checked hExec)⟩

/-- Owner 1 asks twice for `TL_WRITE_ALLOW_WRITE` on a table on which owner 2
has such a lock already; between the two requests owner 3 begins to wait with
`TL_WRITE`, and owner 2 leaves. -/
def secondAllowWrite : List MultiCall :=
  [.dataInit 0, .dataInit 0, .dataInit 0, .dataInit 0,
    .lockAll 2 [⟨0, 0, .writeAllowWrite⟩], .lockNext 2 false,
    .lockAll 1 [⟨0, 1, .writeAllowWrite⟩, ⟨0, 2, .writeAllowWrite⟩], .lockNext 1 false,
    .lockAll 3 [⟨0, 3, .write⟩], .lockNext 3 false, .lockNext 1 false,
    .unlockAll 2, .unlockNext 2 false]

/-- Owners 1 and 3 then wait for nobody but each other. -/
theorem not_deadlockFree_of_reachable : Spaced addressOf ∧
    (∃ c, (multiSystem Code.calls (fun _ => .default) addressOf).Reachable (.init Code.calls) c ∧
      (multiSystem Code.calls (fun _ => .default) addressOf).exec (.init Code.calls)
        secondAllowWrite = some c ∧
      WaitsOnlyFor c.lists 1 3 ∧ WaitsOnlyFor c.lists 3 1) ∧
    ¬ ∀ c, (multiSystem Code.calls (fun _ => .default) addressOf).Reachable (.init Code.calls) c →
      DeadlockFree c.lists := by
  have hRun : ((multiSystem Code.calls (fun _ => .default) addressOf).exec (.init Code.calls)
      secondAllowWrite).map (fun c => decide (WaitsOnlyFor c.lists 1 3 ∧ WaitsOnlyFor c.lists 3 1)) =
      some true := by decide
  obtain ⟨c, hExec, hBoth⟩ := map_eq_some_iff.mp hRun
  obtain ⟨hThere, hBack⟩ := of_decide_eq_true hBoth
  have hReachable := System.reachable_of_exec hExec
  refine ⟨spaced_addressOf, ⟨c, hReachable, hExec, hThere, hBack⟩, fun h => ?_⟩
  exact h c hReachable 1 (.tail (.single hThere.1) hBack.1)

end MySQL.ThrLock
