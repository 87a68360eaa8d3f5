import Mathlib

/-! Singly linked lists in an array of `next` cells: which cells a list uses, and what
inserting, cutting and joining do to it. -/
namespace Library
open Function List

variable {α : Type}

def Chained (next : α → α) (l : List α) : Prop := l.IsChain fun a b => next a = b

inductive Walk (next : α → α) (last : α) : List α → α → Nat → Prop
  | stop {fuel : Nat} : Walk next last [] last (fuel + 1)
  | step {a : α} {l : List α} {fuel : Nat} (h : Walk next last l (next a) fuel) :
      Walk next last (a :: l) a (fuel + 1)

namespace Chained

variable {next next' : α → α} {front mid back l : List α} {a b c x : α}

theorem singleton (a : α) : Chained next [a] := isChain_singleton a

theorem cons_cons : Chained next (a :: b :: l) ↔ next a = b ∧ Chained next (b :: l) :=
  isChain_cons_cons

theorem left (h : Chained next (front ++ back)) : Chained next front := IsChain.left_of_append h

theorem right (h : Chained next (front ++ back)) : Chained next back := IsChain.right_of_append h

/-- A list is linked when its two halves are and the cell between them is right. -/
theorem split : Chained next (front ++ a :: b :: back) ↔
    Chained next (front ++ [a]) ∧ next a = b ∧ Chained next (b :: back) :=
  isChain_append_cons_cons

theorem head?_eq (h : Chained next (a :: (l ++ [b]))) : (l ++ [b]).head? = some (next a) := by
  cases l <;> exact congrArg some (cons_cons.mp h).1.symm

/-- With fuel for the list, a loop along it reaches its last cell. -/
theorem walk (h : Chained next (l ++ [b])) (hHead : (l ++ [b]).head? = some a) {fuel : Nat}
    (hFuel : l.length < fuel) : Walk next b l a fuel := by
  induction l generalizing a fuel with
  | nil =>
    obtain ⟨fuel, rfl⟩ := Nat.exists_eq_add_one_of_ne_zero (Nat.ne_of_gt hFuel)
    obtain rfl : b = a := by simpa using hHead
    exact .stop
  | cons c l ih =>
    obtain ⟨fuel, rfl⟩ := Nat.exists_eq_add_one_of_ne_zero (Nat.ne_zero_of_lt hFuel)
    obtain rfl : c = a := by simpa using hHead
    have hTail : Chained next (l ++ [b]) := IsChain.tail h
    exact .step (ih hTail h.head?_eq (by simpa using hFuel))

theorem next_eq (h : Chained next (front ++ a :: b :: back)) : next a = b := (split.mp h).2.1

/-- The cell of the last element is not part of the list. -/
theorem congr (h : Chained next (front ++ [a])) (hSame : ∀ b ∈ front, next' b = next b) :
    Chained next' (front ++ [a]) := by
  induction front with
  | nil => exact singleton a
  | cons c front ih =>
    have hTail : Chained next (front ++ [a]) := IsChain.tail h
    have hRest := ih hTail fun b hb => hSame b (mem_cons_of_mem c hb)
    cases front <;> exact cons_cons.mpr ⟨(hSame c (by simp)).trans (cons_cons.mp h).1, hRest⟩

theorem congr_all (h : Chained next l) (hSame : ∀ b ∈ l, next' b = next b) : Chained next' l := by
  rcases l.eq_nil_or_concat with rfl | ⟨front, a, rfl⟩
  · exact isChain_nil
  · rw [concat_eq_append] at *
    exact h.congr fun b hb => hSame b (mem_append_left _ hb)

variable [DecidableEq α]

/-- Pointing the last element of one list at the head of another joins them. -/
theorem join (hFront : Chained next (front ++ [a])) (hBack : Chained next (b :: back))
    (hNodup : (front ++ [a] ++ b :: back).Nodup) :
    Chained (update next a b) (front ++ a :: b :: back) := by
  have hA : a ∉ front ∧ a ∉ b :: back := by
    simp only [nodup_append, nodup_cons, mem_append, mem_singleton] at hNodup
    exact ⟨fun h => hNodup.1.2.2 a h a rfl rfl, fun h => hNodup.2.2 a (.inr rfl) a h rfl⟩
  refine split.mpr ⟨hFront.congr fun c hc => ?_, by simp, hBack.congr_all fun c hc => ?_⟩
  · exact update_of_ne (ne_of_mem_of_not_mem hc hA.1) ..
  · exact update_of_ne (ne_of_mem_of_not_mem hc hA.2) ..

/-- Leaving out what stands between `a` and `b` -/
theorem cut (h : Chained next (front ++ a :: mid ++ b :: back))
    (hNodup : (front ++ a :: mid ++ b :: back).Nodup) :
    Chained (update next a b) (front ++ a :: b :: back) := by
  have hSplit : Chained next (front ++ [a] ++ (mid ++ b :: back)) := by simpa using h
  refine hSplit.left.join h.right (hNodup.sublist ?_)
  simp

/-- A new element between `a` and `b` -/
theorem insert (h : Chained next (front ++ a :: b :: back))
    (hNodup : (front ++ a :: b :: back).Nodup) (hx : x ∉ front ++ a :: b :: back) :
    Chained (update (update next x b) a x) (front ++ a :: x :: b :: back) := by
  have hApart : ∀ c ∈ front ++ a :: b :: back, update next x b c = next c := fun c hc =>
    update_of_ne (ne_of_mem_of_not_mem hc hx) ..
  obtain ⟨hFront, -, hBack⟩ := split.mp (h.congr_all hApart)
  refine hFront.join (cons_cons.mpr ⟨by simp, hBack⟩) ?_
  rw [append_assoc, singleton_append]
  exact (Perm.nodup_iff (by grind [perm_middle])).mpr (nodup_cons.mpr ⟨hx, hNodup⟩)

end Chained

end Library
