import MySQL.Library.System
import MySQL.Mysys.Hash

/-! Runs of a hash table. The state has the table, the keys its callers' records have
now, and the records that were inserted and not deleted. -/
namespace MySQL.Hashes

open Library LinearHash

variable {ρ κ : Type} [DecidableEq ρ]

structure State (ρ κ : Type) where
  hash : Hash ρ
  keys : ρ → κ
  stored : Multiset ρ

/-- One call. `update` changes the key of a record and calls `hash_update` with the old
key; `rekey` changes the key of a record that is not in the table. -/
inductive Call (ρ κ : Type) where
  | insert (memory : Bool) (record : ρ)
  | delete (record : ρ)
  | update (record : ρ) (key : κ)
  | reset
  | rekey (record : ρ) (key : κ)

def State.recHashnr (hashnr : κ → Nat) (s : State ρ κ) (r : ρ) : Nat := hashnr (s.keys r)

def State.rekey (s : State ρ κ) (record : ρ) (key : κ) : State ρ κ :=
  { s with keys := Function.update s.keys record key }

def system (hashnr : κ → Nat) : System (State ρ κ) (Call ρ κ) where
  step s
    | .insert memory record =>
      (myHashInsert (s.recHashnr hashnr) s.hash memory record).map fun (error, hash) =>
        { s with hash, stored := if error then s.stored else record ::ₘ s.stored }
    | .delete record =>
      (hashDelete (s.recHashnr hashnr) s.hash record).map fun (error, hash) =>
        { s with hash, stored := if error then s.stored else s.stored.erase record }
    | .update record key =>
      (hashUpdate ((s.rekey record key).recHashnr hashnr) s.hash record
        (s.recHashnr hashnr record)).map fun (_, hash) => { s.rekey record key with hash }
    | .reset => some { s with hash := myHashReset s.hash, stored := 0 }
    | .rekey record key => if record ∈ s.stored then none else some (s.rekey record key)

def start (array : Nat → Slot ρ) (keys : ρ → κ) : State ρ κ := ⟨hashInit array, keys, 0⟩

/-- What `hash_check` tests holds for the present keys and the records in the table. -/
def State.Consistent (hashnr : κ → Nat) (s : State ρ κ) : Prop :=
  Hashes.Consistent (s.recHashnr hashnr) s.hash s.stored

/-- The calls that keep the table consistent. An update that moves a record to another
home needs a table with records, has the record there at most once, and does not free
the slot that is the new home. -/
def KeepsChains (hashnr : κ → Nat) (s : State ρ κ) : Call ρ κ → Prop
  | .update record key =>
    let idx := recMask s.hash (s.recHashnr hashnr) record
    let newIndex := recMask s.hash ((s.rekey record key).recHashnr hashnr) record
    idx = newIndex ∨
      0 < s.hash.records ∧ s.stored.count record ≤ 1 ∧
        freedSlot s.hash record idx ≠ some newIndex
  | .rekey record _ => record ∉ s.stored
  | _ => True

theorem rekey_recHashnr (hashnr : κ → Nat) (s : State ρ κ) (record : ρ) (key : κ) {r : ρ}
    (hr : r ≠ record) : (s.rekey record key).recHashnr hashnr r = s.recHashnr hashnr r :=
  congrArg hashnr (Function.update_of_ne hr ..)

/-- A call that keeps the chains returns, and the table is consistent then. -/
theorem step_consistent {hashnr : κ → Nat} {s : State ρ κ} {call : Call ρ κ}
    (h : s.Consistent hashnr) (hKeeps : KeepsChains hashnr s call) :
    ∃ t, (system hashnr).step s call = some t ∧ t.Consistent hashnr := by
  cases call with
  | insert memory record =>
    cases memory with
    | true =>
      obtain ⟨hash', hInsert, hConsistent⟩ := myHashInsert_spec h record
      exact ⟨{ s with hash := hash', stored := record ::ₘ s.stored },
        by simp [system, hInsert], hConsistent⟩
    | false => exact ⟨s, by simp [system, myHashInsert], h⟩
  | delete record =>
    rcases hashDelete_spec h record with ⟨-, hDelete⟩ | ⟨-, hash', hDelete, hConsistent⟩
    · exact ⟨s, by simp [system, hDelete], h⟩
    · exact ⟨{ s with hash := hash', stored := s.stored.erase record },
        by simp [system, hDelete], hConsistent⟩
  | update record key =>
    obtain ⟨error, hash', hUpdate, hConsistent⟩ :=
      hashUpdate_spec h (fun r => rekey_recHashnr hashnr s record key) hKeeps
    exact ⟨{ s.rekey record key with hash := hash' }, by simp [system, hUpdate], hConsistent⟩
  | reset => exact ⟨_, rfl, consistent_empty _ s.hash.array none⟩
  | rekey record key =>
    have hAbsent : record ∉ s.stored := hKeeps
    refine ⟨s.rekey record key, if_neg hAbsent, Consistent.congr h fun r hr => ?_⟩
    rw [recMask, recMask, rekey_recHashnr hashnr s record key fun hEq => hAbsent (hEq ▸ hr)]

theorem run_consistent {hashnr : κ → Nat} {array : Nat → Slot ρ} {keys : ρ → κ} {s : State ρ κ}
    {ok : State ρ κ → Call ρ κ → Prop} (run : (system hashnr).Run ok (start array keys) s)
    (hOk : ∀ s call, ok s call → KeepsChains hashnr s call) : s.Consistent hashnr := by
  refine run.invariant _ (consistent_empty _ array none) ?_
  intro a call b ha hCall hStep
  obtain ⟨t, hEq, ht⟩ := step_consistent ha (hOk a call hCall)
  rw [hStep] at hEq
  exact Option.some.inj hEq ▸ ht

/-- In every run of calls that keep the chains, the table is what `hash_check` tests and
holds the records inserted and not deleted; and each such call returns. -/
theorem consistent_of_run (hashnr : κ → Nat) (array : Nat → Slot ρ) (keys : ρ → κ) {s : State ρ κ}
    (run : (system hashnr).Run (KeepsChains hashnr) (start array keys) s) :
    s.Consistent hashnr ∧
      ∀ call, KeepsChains hashnr s call → ((system hashnr).step s call).isSome := by
  have hConsistent := run_consistent run fun _ _ hKeeps => hKeeps
  refine ⟨hConsistent, fun call hKeeps => ?_⟩
  obtain ⟨t, hEq, -⟩ := step_consistent hConsistent hKeeps
  rw [hEq]
  rfl

theorem consistent_insert_insert_update :
    ∃ s, (system id).exec (start (fun _ => ⟨none, 0⟩) fun r : Nat => r)
        [.insert true 0, .insert true 1, .update 1 0] = some s ∧ s.Consistent id := by
  have hFirst : (system id).Run (KeepsChains id) (start (fun _ => ⟨none, 0⟩) fun r : Nat => r) _ :=
    System.Run.snoc Relation.ReflTransGen.refl (.insert true 0) trivial rfl
  have hSecond := System.Run.snoc hFirst (.insert true 1) trivial rfl
  have hThird := System.Run.snoc hSecond (.update 1 0) (by right; decide) rfl
  exact ⟨_, rfl, (consistent_of_run id _ _ hThird).1⟩

omit [DecidableEq ρ] in
theorem next_ne_self {hashnr : κ → Nat} {s : State ρ κ} (h : s.Consistent hashnr) {i : Nat}
    (hi : i < s.hash.records) : (s.hash.array i).next ≠ some i := by
  intro hNext
  obtain ⟨chains, hChained⟩ := h.chained
  obtain ⟨rest, hSeg, -, -⟩ := hChained.exists_tail (Finset.mem_range.mpr hi)
  have hNodup := hSeg.nodup
  obtain ⟨-, hRest⟩ := hSeg
  rw [hNext] at hRest
  cases rest with
  | nil => exact absurd hRest (by simp [Seg])
  | cons k rest =>
    obtain rfl := Option.some.inj hRest.1
    simp at hNodup

/-- Two records of one home, and the second one in the chain moves to the home whose
slot it sits in: that slot then links to itself. -/
theorem not_consistent_of_reachable :
    ¬ ∀ s, (system id).Reachable (start (fun _ => ⟨none, 0⟩) fun r : Nat => 2 * r) s →
      s.Consistent id := by
  intro h
  have hRun : ((system id).exec (start (fun _ => ⟨none, 0⟩) fun r : Nat => 2 * r)
      [.insert true 0, .insert true 1, .update 0 1]).map
        (fun s => (s.hash.records, (s.hash.array 1).next)) = some (2, some 1) := by decide
  obtain ⟨s, hExec, hEq⟩ := Option.map_eq_some_iff.mp hRun
  simp only [Prod.mk.injEq] at hEq
  exact next_ne_self (h s (System.reachable_of_exec hExec)) (by omega) hEq.2

end MySQL.Hashes
