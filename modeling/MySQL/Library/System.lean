import Mathlib

/-! Deterministic labelled systems. A label carries every choice the outside
makes in one call, so a run is a sequence of labels and nothing else. A
call the caller's contract does not allow has no successor. -/
namespace Library
open Option

universe u v

structure System (State : Type u) (Label : Type v) where
  step : State → Label → Option State

namespace System
variable {State : Type u} {Label : Type v} (S : System State Label)

def Step (ok : State → Label → Prop) (s t : State) : Prop :=
  ∃ label, ok s label ∧ S.step s label = some t

def Run (ok : State → Label → Prop) : State → State → Prop :=
  Relation.ReflTransGen (S.Step ok)

def Reachable (s t : State) : Prop :=
  S.Run (fun _ _ => True) s t

variable {S} {ok : State → Label → Prop} {s t : State}

theorem Run.invariant (run : S.Run ok s t) (Inv : State → Prop) (hStart : Inv s)
    (hStep : ∀ a label b, Inv a → ok a label → S.step a label = some b → Inv b) :
    Inv t := by
  induction run with
  | refl => exact hStart
  | tail prior last ih =>
    obtain ⟨label, hOk, hLast⟩ := last
    exact hStep _ label _ ih hOk hLast

/-- Extend a run by one more allowed call. -/
theorem Run.snoc {u : State} (run : S.Run ok s t) (label : Label)
    (hOk : ok t label) (hStep : S.step t label = some u) : S.Run ok s u :=
  Relation.ReflTransGen.tail run ⟨label, hOk, hStep⟩

/-- Execute a list of labels, stopping at the first call without a successor. -/
def exec (S : System State Label) (s : State) : List Label → Option State
  | [] => some s
  | label :: rest => (S.step s label).bind fun t => S.exec t rest

theorem reachable_of_exec {labels : List Label} (h : S.exec s labels = some t) :
    S.Reachable s t := by
  induction labels generalizing s with
  | nil =>
    cases h
    exact Relation.ReflTransGen.refl
  | cons label rest ih =>
    simp only [exec, bind_eq_some_iff] at h
    obtain ⟨middle, hFirst, hRest⟩ := h
    exact Relation.ReflTransGen.head ⟨label, trivial, hFirst⟩ (ih hRest)

/-- A list of labels that can be executed gives a state with what holds after it. -/
theorem exists_exec {labels : List Label} {P : State → Prop} (h : (S.exec s labels).isSome)
    (hP : ∀ t, S.exec s labels = some t → P t) : ∃ t, S.exec s labels = some t ∧ P t := by
  obtain ⟨t, hExec⟩ := isSome_iff_exists.mp h
  exact ⟨t, hExec, hP t hExec⟩

/-- The system that refuses the calls that do not meet `ok`. -/
def checked (S : System State Label) (ok : State → Label → Prop)
    [∀ s label, Decidable (ok s label)] : System State Label where
  step s label := if ok s label then S.step s label else none

theorem run_of_exec_checked [∀ s label, Decidable (ok s label)] {labels : List Label}
    (h : (S.checked ok).exec s labels = some t) : S.Run ok s t := by
  induction labels generalizing s with
  | nil =>
    cases h
    exact Relation.ReflTransGen.refl
  | cons label rest ih =>
    simp only [exec, checked, bind_eq_some_iff, ite_none_right_eq_some] at h
    obtain ⟨middle, ⟨hOk, hFirst⟩, hRest⟩ := h
    exact Relation.ReflTransGen.head ⟨label, hOk, hFirst⟩ (ih hRest)

end System

/-! While loops with a bound on their turns. -/

variable {σ : Type} {test : σ → Bool} {body : σ → σ} {s : σ} {fuel : Nat}

/-- `while (test s) s = body s`, in at most `fuel` tests -/
def whileLoop (test : σ → Bool) (body : σ → σ) : (fuel : Nat) → σ → Option σ
  | 0, _ => none
  | fuel + 1, s => if test s then whileLoop test body fuel (body s) else some s

theorem whileLoop_exit (h : test s = false) : whileLoop test body (fuel + 1) s = some s := by
  rw [whileLoop, h, if_neg (by decide)]

theorem whileLoop_turn (h : test s = true) :
    whileLoop test body (fuel + 1) s = whileLoop test body fuel (body s) := by
  rw [whileLoop, if_pos h]

/-- A loop whose turns keep the invariant and lower the measure ends with the invariant. -/
theorem whileLoop_spec (test : σ → Bool) (body : σ → σ) (Inv : σ → Prop) (measure : σ → Nat)
    (hTurn : ∀ s, Inv s → test s = true → Inv (body s) ∧ measure (body s) < measure s) (h : Inv s)
    (hFuel : measure s < fuel) :
    ∃ s', whileLoop test body fuel s = some s' ∧ Inv s' ∧ test s' = false := by
  induction fuel generalizing s with
  | zero => exact absurd hFuel (Nat.not_lt_zero _)
  | succ fuel ih =>
    cases hTest : test s with
    | false => exact ⟨s, whileLoop_exit hTest, h, hTest⟩
    | true =>
      obtain ⟨hNext, hLess⟩ := hTurn s h hTest
      rw [whileLoop_turn hTest]
      exact ih hNext (by omega)

end Library
