import Mathlib

/-! Merging by a total preorder: what was put out so far, what remains, and the first
elements of a collection. -/
namespace Library
open List

universe u
variable {α : Type u} {le : α → α → Prop}

/-- Some of the elements of `source` were put out in order, ahead of those in `rest`. -/
structure Merging (le : α → α → Prop) (source : Multiset α) (out : List α) (rest : Multiset α) :
    Prop where
  total : (out : Multiset α) + rest = source
  sorted : out.Pairwise le
  ahead : ∀ x ∈ out, ∀ y ∈ rest, le x y

namespace Merging
variable {source rest : Multiset α} {out : List α}

theorem start (source : Multiset α) : Merging le source [] source :=
  ⟨by simp, Pairwise.nil, by simp⟩

/-- The first of the remaining elements are put out. -/
theorem extend {front : List α} (h : Merging le source out (front + rest)) (hFront : front.Pairwise le)
    (hAcross : ∀ x ∈ front, ∀ y ∈ rest, le x y) : Merging le source (out ++ front) rest := by
  constructor
  · rw [← h.total, ← Multiset.coe_add, add_assoc]
  · refine pairwise_append.mpr ⟨h.sorted, hFront, fun a ha b hb => ?_⟩
    exact h.ahead a ha b (by simp [hb])
  · intro a ha y hy
    rcases mem_append.mp ha with hOut | hNew
    · exact h.ahead a hOut y (by simp [hy])
    · exact hAcross a hNew y hy

/-- The least of the remaining elements is put out. -/
theorem push {x : α} (h : Merging le source out (x ::ₘ rest)) (hLeast : ∀ y ∈ rest, le x y) :
    Merging le source (out ++ [x]) rest :=
  extend h (pairwise_singleton ..) (by simpa using hLeast)

/-- A sorted run is all that remains, and its first part is put out. -/
theorem append {front back : List α} (h : Merging le source out ((front ++ back : List α) : Multiset α))
    (hRun : (front ++ back).Pairwise le) : Merging le source (out ++ front) (back : Multiset α) := by
  obtain ⟨hFront, -, hAcross⟩ := pairwise_append.mp hRun
  exact extend h hFront hAcross

theorem card (h : Merging le source out rest) : out.length + rest.card = source.card := by
  rw [← h.total, Multiset.card_add, Multiset.coe_card]

end Merging

/-- The first `n` elements of `source` in the order, or all of them if there are fewer. -/
structure Firsts (le : α → α → Prop) (n : Nat) (source : Multiset α) (out : List α) : Prop where
  merging : ∃ rest, Merging le source out rest
  length : out.length = min n source.card

namespace Firsts
variable {source : Multiset α} {out : List α} {n : Nat}

theorem sorted (h : Firsts le n source out) : out.Pairwise le :=
  let ⟨_, hRest⟩ := h.merging
  hRest.sorted

/-- The first elements start a sorted arrangement of the whole collection. -/
theorem exists_take (h : Firsts le n source out) (hTrans : ∀ x y z, le x y → le y z → le x z)
    (hTotal : ∀ x y, le x y ∨ le y x) :
    ∃ all : List α, (all : Multiset α) = source ∧ all.Pairwise le ∧ out = all.take n := by
  classical
  obtain ⟨⟨rest, hMerging⟩, hLength⟩ := h
  obtain ⟨tail, rfl⟩ := Quot.exists_rep rest
  let back := tail.mergeSort fun x y => decide (le x y)
  have hPerm : back.Perm tail := mergeSort_perm _ _
  have hBack : back.Pairwise le := by
    have hSorted := @pairwise_mergeSort α (fun x y => decide (le x y)) (fun a b c hab hbc => by
        simp only [decide_eq_true_eq] at hab hbc ⊢
        exact hTrans a b c hab hbc)
      (by simpa using hTotal) tail
    exact hSorted.imp fun hab => by simpa using hab
  have hSource : ((out ++ back : List α) : Multiset α) = source := by
    rw [← hMerging.total, ← Multiset.coe_add, Multiset.coe_eq_coe.mpr hPerm]
    rfl
  refine ⟨out ++ back, hSource, ?_, ?_⟩
  · refine pairwise_append.mpr ⟨hMerging.sorted, hBack, fun a ha b hb => ?_⟩
    exact hMerging.ahead a ha b (by simpa using hPerm.mem_iff.mp hb)
  · have hCard : out.length + back.length = source.card := by
      rw [← hSource, Multiset.coe_card, length_append]
    rcases lt_or_ge n source.card with hLess | hMore
    · rw [take_append_of_le_length (by omega), take_of_length_le (by omega)]
    · have hNil : back = [] := eq_nil_of_length_eq_zero (by omega)
      rw [hNil, append_nil, take_of_length_le (by omega)]

/-- A part of the collection may be cut to its own first elements. -/
theorem of_part {part others : Multiset α} {firsts : List α} (hTrans : ∀ x y z, le x y → le y z → le x z)
    (hPart : Firsts le n part firsts) (h : Firsts le n ((firsts : Multiset α) + others) out) :
    Firsts le n (part + others) out := by
  classical
  obtain ⟨⟨cut, hCut⟩, hFirsts⟩ := hPart
  obtain ⟨⟨rest, hRest⟩, hLength⟩ := h
  have hCard := hCut.card
  rw [Multiset.card_add, Multiset.coe_card] at hLength
  refine ⟨⟨rest + cut, ?_, hRest.sorted, fun x hx y hy => ?_⟩, ?_⟩
  · rw [← add_assoc, hRest.total, ← hCut.total, add_right_comm]
  · rcases Multiset.mem_add.mp hy with hy | hy
    · exact hRest.ahead x hx y hy
    · -- something was cut, so there are `n` elements that `y` does not come before
      by_contra hNot
      have hSome := Multiset.card_pos_iff_exists_mem.mpr ⟨y, hy⟩
      have hCount : firsts.countP (le · y) = firsts.length :=
        countP_eq_length.mpr fun z hz => by simpa using hCut.ahead z hz y hy
      have hLess : out.countP (le · y) < out.length :=
        countP_lt_length_iff.mpr ⟨x, hx, by simpa using hNot⟩
      have hNone : rest.countP (le · y) = 0 :=
        Multiset.countP_eq_zero.mpr fun z hz hzy => hNot (hTrans x z y (hRest.ahead x hx z hz) hzy)
      have hTotal := congrArg (Multiset.countP (le · y)) hRest.total
      rw [Multiset.countP_add, Multiset.countP_add, hNone, Multiset.coe_countP, Multiset.coe_countP] at hTotal
      omega
  · rw [Multiset.card_add]
    omega

end Firsts

end Library
