import MySQL.Library.LinearHash.Place

/-! Removing a record. Its slot is unlinked, and the hole that this leaves is filled
with the record of the last slot, whose number stops being a home. -/
namespace Library.LinearHash
open Function List

universe u
variable {α : Type u} {home home' : α → Nat} {live : Finset Nat} {slots : Nat → Slot α}
  {chains : Nat → List Nat} {p e fuel : Nat}

/-! ### Finding a slot -/

/-- Follow the links from `pos` to a record with property `found`. The answer has the
slot and the one before it; it is `some none` when the chain has no such record. -/
def findSlot (found : α → Bool) (slots : Nat → Slot α) :
    (fuel : Nat) → (prev : Option Nat) → (pos : Nat) → Option (Option (Option Nat × Nat))
  | 0, _, _ => none
  | fuel + 1, prev, pos =>
    if found (slots pos).data then some (some (prev, pos))
    else
      match (slots pos).next with
      | some next => findSlot found slots fuel (some pos) next
      | none => some none

theorem findSlot_spec (found : α → Bool) {pos : Nat} {l : List Nat} (prev : Option Nat)
    (h : Seg slots (some pos) (pos :: l) none) (hFuel : l.length < fuel) :
    (findSlot found slots fuel prev pos = some none ∧ ∀ j ∈ pos :: l, found (slots j).data = false) ∨
      ∃ front j back, pos :: l = front ++ j :: back ∧ found (slots j).data = true ∧
        findSlot found slots fuel prev pos = some (some (front.getLast?.or prev, j)) := by
  induction l generalizing pos prev fuel with
  | nil =>
    obtain ⟨fuel, rfl⟩ : ∃ k, fuel = k + 1 := ⟨fuel - 1, by omega⟩
    have hNext : (slots pos).next = none := h.2
    cases hFound : found (slots pos).data with
    | true => exact .inr ⟨[], pos, [], rfl, hFound, by simp [findSlot, hFound]⟩
    | false => exact .inl ⟨by simp [findSlot, hFound, hNext], by simpa using hFound⟩
  | cons next l ih =>
    obtain ⟨fuel, rfl⟩ : ∃ k, fuel = k + 1 := ⟨fuel - 1, by omega⟩
    have hNext : (slots pos).next = some next := h.2.1
    have hRest : Seg slots (some next) (next :: l) none := hNext ▸ h.2
    cases hFound : found (slots pos).data with
    | true => exact .inr ⟨[], pos, _, rfl, hFound, by simp [findSlot, hFound]⟩
    | false =>
      have hStep : findSlot found slots (fuel + 1) prev pos =
          findSlot found slots fuel (some pos) next := by
        simp [findSlot, hFound, hNext]
      rw [hStep]
      rcases ih _ hRest (by simpa using hFuel) with
        ⟨hNone, hAll⟩ | ⟨front, j, back, hSplit, hIs, hEq⟩
      · exact .inl ⟨hNone, by simpa [hFound] using hAll⟩
      · refine .inr ⟨pos :: front, j, back, by rw [hSplit]; rfl, hIs, ?_⟩
        rw [hEq, getLast?_cons]
        cases front.getLast? <;> rfl

/-- The search in the chain of `i`. -/
theorem Chained.findSlot_chain (h : Chained home live slots chains) (found : α → Bool) {i : Nat}
    (hSome : chains i ≠ []) (hFuel : live.card ≤ fuel) :
    (findSlot found slots fuel none i = some none ∧ ∀ j ∈ chains i, found (slots j).data = false) ∨
    ∃ front j back, chains i = front ++ j :: back ∧ found (slots j).data = true ∧
      findSlot found slots fuel none i = some (some (front.getLast?, j)) := by
  obtain ⟨rest, hChain, hRest⟩ := h.chain_eq hSome
  have hLength := h.length_le i
  rw [hChain, length_cons] at hLength
  have hSeg : Seg slots (some i) (i :: rest) none := ⟨rfl, hRest⟩
  have hShort : rest.length < fuel := by omega
  rw [hChain]
  rcases findSlot_spec found none hSeg hShort with hNone | ⟨front, j, back, hSplit, hFound, hEq⟩
  · exact .inl hNone
  · exact .inr ⟨front, j, back, hSplit, hFound, by rw [hEq, Option.or_none]⟩

/-- The search from any slot for a record that is not there. -/
theorem Chained.findSlot_absent (h : Chained home live slots chains) {found : α → Bool} {i : Nat}
    (hi : i ∈ live) (hFuel : live.card ≤ fuel)
    (hAbsent : ∀ r ∈ contents live slots, found r = false) :
    findSlot found slots fuel none i = some none := by
  obtain ⟨rest, hSeg, hLength, hLive⟩ := h.exists_tail hi
  have hShort : rest.length < fuel := by omega
  rcases findSlot_spec found none hSeg hShort with ⟨hNone, -⟩ | ⟨front, j, back, hSplit, hFound, -⟩
  · exact hNone
  · have hMem := hLive j (by rw [hSplit]; simp)
    rw [hAbsent _ (mem_contents.mpr ⟨j, hMem, rfl⟩)] at hFound
    exact absurd hFound (by simp)

/-! ### Unlinking -/

/-- Take slot `pos` out of its chain. The answer has the slot that is free then and
whether the chain is gone. -/
def unlink (slots : Nat → Slot α) (prev : Option Nat) (pos : Nat) : (Nat → Slot α) × Nat × Bool :=
  match prev with
  | some prev => (setNext slots prev (slots pos).next, pos, false)
  | none =>
    match (slots pos).next with
    | some next => (update slots pos (slots next), next, false)
    | none => (slots, pos, true)

structure Unlinked (home : α → Nat) (live : Finset Nat) (slots : Nat → Slot α) (p : Nat)
    (slots' : Nat → Slot α) (chains' : Nat → List Nat) (hole : Nat) (gone : Bool) : Prop where
  hole_mem : hole ∈ live
  chained : Chained home (live.erase hole) slots' chains'
  contents_eq : (slots p).data ::ₘ contents (live.erase hole) slots' = contents live slots
  buckets_eq : buckets home live slots = buckets home (live.erase hole) slots' + gone.toNat

section
variable (h : Chained home live slots chains)
include h

/-- The slot has one before it. -/
theorem Chained.unlink_after {i prev : Nat} {front back : List Nat}
    (hChain : chains i = front ++ prev :: p :: back) :
    Unlinked home live slots p (setNext slots prev (slots p).next)
      (update chains i (front ++ prev :: back)) p false := by
  have hSome : chains i ≠ [] := by simp [hChain]
  have hSeg := (h.linked i).resolve_left hSome
  have hNodup := h.nodup i
  have hSound := h.sound i
  rw [hChain] at hSeg hNodup hSound
  have hp : p ∈ live := (hSound p (by simp)).1
  obtain ⟨middle, hFront, rfl, hNext, hBack⟩ := seg_append.mp hSeg
  have hPrevFront : prev ∉ front := by grind
  have hPrevBack : prev ∉ back := by grind
  have hpOut : p ∉ front ++ prev :: back := by grind
  have hChained : Chained home (live.erase p) (setNext slots prev (slots p).next)
      (update chains i (front ++ prev :: back)) := by
    refine h.replace (.inr ?_) ?_ ?_ ?_
    · refine seg_append.mpr ⟨some prev, ?_, rfl, ?_⟩
      · exact hFront.congr fun j hj =>
          setNext_of_ne (fun hEq : j = prev => hPrevFront (hEq ▸ hj)) _
      · rw [setNext_next]
        exact hBack.congr fun j hj =>
          setNext_of_ne (fun hEq : j = prev => hPrevBack (hEq ▸ hj)) _
    · intro j hj
      rw [setNext_data]
      exact (hSound j (by simp only [mem_append, mem_cons] at hj ⊢; grind only)).2
    · intro j
      have hIn := fun hj => (hSound j hj).1
      have hjp : j = p → j ∉ front ++ prev :: back := fun hEq => hEq ▸ hpOut
      rw [hChain, Finset.mem_erase]
      simp only [mem_append, mem_cons] at hIn hjp ⊢
      grind only
    · intro j _ hj
      exact setNext_of_ne (fun hEq => hj (by rw [hEq, hChain]; simp)) _
  refine ⟨hp, hChained, ?_, ?_⟩
  · rw [contents_congr fun j _ => setNext_data slots prev j _]
    exact contents_erase hp
  · refine (hChained.buckets_congr h fun k => ?_)
    by_cases hk : k = i
    · simp [hk, hChain]
    · rw [update_of_ne hk]

/-- The slot starts a longer chain: the second one is copied over it. -/
theorem Chained.unlink_first {second : Nat} {back : List Nat}
    (hChain : chains p = p :: second :: back) :
    Unlinked home live slots p (update slots p (slots second))
      (update chains p (p :: back)) second false := by
  have hSome : chains p ≠ [] := by simp [hChain]
  have hSeg := (h.linked p).resolve_left hSome
  have hNodup := h.nodup p
  have hSound := h.sound p
  rw [hChain] at hSeg hNodup hSound
  obtain ⟨-, hNext, hBack⟩ := hSeg
  have hp : p ∈ live := (hSound p (by simp)).1
  have hSecond : second ∈ live := (hSound second (by simp)).1
  have hpBack : p ∉ second :: back := (nodup_cons.mp hNodup).1
  have hSecondOut : second ∉ p :: back := by grind
  have hSame (j : Nat) (hj : j ≠ p) : update slots p (slots second) j = slots j :=
    update_of_ne hj ..
  have hChained : Chained home (live.erase second) (update slots p (slots second))
      (update chains p (p :: back)) := by
    refine h.replace (.inr ⟨rfl, ?_⟩) ?_ ?_ ?_
    · rw [update_self]
      exact hBack.congr fun j hj =>
        hSame j fun hEq => hpBack (mem_cons_of_mem second (hEq ▸ hj))
    · intro j hj
      rcases mem_cons.mp hj with rfl | hj
      · rw [update_self]
        exact (hSound second (by simp)).2
      · rw [hSame j fun hEq => hpBack (mem_cons_of_mem second (hEq ▸ hj))]
        exact (hSound j (by simp [hj])).2
    · intro j
      have hIn := fun hj => (hSound j hj).1
      have hjSecond : j = second → j ∉ p :: back := fun hEq => hEq ▸ hSecondOut
      rw [hChain, Finset.mem_erase]
      simp only [mem_cons] at hIn hjSecond ⊢
      grind only
    · intro j _ hj
      exact hSame j fun hEq => hj (by rw [hEq, hChain]; simp)
  refine ⟨hSecond, hChained, ?_, ?_⟩
  · have hNe : second ≠ p := fun hEq => hpBack (hEq ▸ mem_cons_self)
    have hMoved := contents_move (Finset.mem_erase.mpr ⟨hNe, hSecond⟩) (Finset.notMem_erase p live)
      (congrArg Slot.data (update_self p _ slots))
      fun j hj _ => by rw [hSame j (Finset.ne_of_mem_erase hj)]
    have hLive : insert p ((live.erase p).erase second) = live.erase second := by
      rw [Finset.erase_right_comm, Finset.insert_erase (Finset.mem_erase.mpr ⟨hNe.symm, hp⟩)]
    rw [← hLive, hMoved, contents_erase hp]
  · refine hChained.buckets_congr h fun k => ?_
    by_cases hk : k = p
    · simp [hk, hChain]
    · rw [update_of_ne hk]

theorem Chained.unlink_only (hChain : chains p = [p]) :
    Unlinked home live slots p slots (update chains p []) p true := by
  have hSome : chains p ≠ [] := by simp [hChain]
  have hp := (h.head hSome).1
  have hChained : Chained home (live.erase p) slots (update chains p []) := by
    refine h.replace (.inl rfl) (by simp) (fun j => ?_) fun _ _ _ => rfl
    rw [hChain]
    simp [and_comm]
  refine ⟨hp, hChained, contents_erase hp, ?_⟩
  refine hChained.buckets_succ h (update_self ..) hSome fun k hk => ?_
  rw [update_of_ne hk]

theorem unlink_spec {i : Nat} {front back : List Nat} (hChain : chains i = front ++ p :: back) :
    ∃ chains', Unlinked home live slots p (unlink slots front.getLast? p).1 chains'
      (unlink slots front.getLast? p).2.1 (unlink slots front.getLast? p).2.2 := by
  rcases eq_nil_or_concat front with rfl | ⟨front, prev, rfl⟩
  · have hSeg := (h.linked i).resolve_left (by simp [hChain])
    rw [hChain] at hSeg
    obtain rfl : i = p := Option.some.inj hSeg.1
    cases back with
    | nil =>
      have hNext : (slots i).next = none := hSeg.2
      simp only [getLast?_nil, unlink, hNext]
      exact ⟨_, h.unlink_only hChain⟩
    | cons second back =>
      have hNext : (slots i).next = some second := hSeg.2.1
      simp only [getLast?_nil, unlink, hNext]
      exact ⟨_, h.unlink_first hChain⟩
  · rw [concat_eq_append, append_assoc] at hChain
    simp only [concat_eq_append, getLast?_concat, unlink]
    exact ⟨_, h.unlink_after hChain⟩

end

/-! ### Filling the hole -/

/-- Move the record of the last slot `n` to the hole `e`, when `n` is no home any more.
The answer tells whether two chains became one. -/
def fillHole (home home' : α → Nat) (slots : Nat → Slot α) (fuel n e : Nat) :
    Option ((Nat → Slot α) × Bool) :=
  if e = n then some (slots, false)
  else
    let last := slots n
    let pos := home' last.data
    if pos = e then some (update slots e last, false)
    else
      let start := home' (slots pos).data
      if pos ≠ start then
        (moveLink (update (update slots e (slots pos)) pos last) (some pos)
          (some e) fuel start).map fun slots => (slots, false)
      else
        let same := home last.data = home (slots pos).data
        if same ∧ home last.data ≠ n then
          (moveLink (update slots e last) (some n) (some e) fuel pos).map
            fun slots => (slots, false)
        else
          (moveLink (update slots e last) (if same then some pos else none)
            (slots pos).next fuel e).map fun slots => (setNext slots pos (some e), !decide same)

structure Filled (home home' : α → Nat) (live : Finset Nat) (slots : Nat → Slot α) (n e : Nat)
    (slots' : Nat → Slot α) (chains' : Nat → List Nat) (merged : Bool) : Prop where
  chained : Chained home' ((insert e live).erase n) slots' chains'
  contents_eq : contents ((insert e live).erase n) slots' = contents live slots
  buckets_eq : buckets home live slots =
    buckets home' ((insert e live).erase n) slots' + merged.toNat

/-- The records of the chain of `n` join the chain of `t`. -/
theorem Chained.join (h : Chained home live slots chains) {n t : Nat} (hNe : t ≠ n)
    (hSome : chains n ≠ [])
    (hHome : ∀ j ∈ live, home' (slots j).data =
      if home (slots j).data = n then t else home (slots j).data)
    (live' : Finset Nat) (slots' : Nat → Slot α) (l : List Nat)
    (hSeg : Seg slots' (some t) (t :: l) none)
    (hLive : ∀ j, j ∈ live' ↔ j ∈ t :: l ∨ j ∈ live ∧ j ∉ chains n ∧ j ∉ chains t)
    (hData : ∀ j ∈ t :: l, home' (slots' j).data = t)
    (hSame : ∀ j ∈ live, j ∉ chains n → j ∉ chains t → slots' j = slots j) :
    ∃ chains', Chained home' live' slots' chains' ∧
      buckets home live slots = buckets home' live' slots' + (!(chains t).isEmpty).toNat := by
  set chains' := update (update chains n []) t (t :: l) with hChains'
  have hT : chains' t = t :: l := update_self ..
  have hN : chains' n = [] := by rw [hChains', update_of_ne hNe.symm, update_self]
  have hOther (i : Nat) (hi : ¬(i = t ∨ i = n)) : chains' i = chains i := by
    rw [not_or] at hi
    rw [hChains', update_of_ne hi.1, update_of_ne hi.2]
  have hOut {i j : Nat} (hj : j ∈ live) : home (slots j).data = i ↔ j ∈ chains i :=
    ⟨fun hEq => hEq ▸ h.complete j hj, fun hMem => (h.sound i j hMem).2⟩
  have hChained : Chained home' live' slots' chains' := by
    refine h.rebuild (fun i => i = t ∨ i = n) ?_ ?_ hOther ?_ ?_
    · rintro i (rfl | rfl)
      · exact .inr (hT ▸ hSeg)
      · exact .inl hN
    · rintro i (rfl | rfl) j hj
      · rw [hT] at hj
        exact ⟨(hLive j).mpr (.inl hj), hData j hj⟩
      · rw [hN] at hj
        exact absurd hj not_mem_nil
    · intro j hj hNot
      rw [not_or, hOut hj, hOut hj] at hNot
      refine ⟨(hLive j).mpr (.inr ⟨hj, hNot.2, hNot.1⟩), hSame j hj hNot.2 hNot.1, ?_⟩
      rw [hHome j hj, if_neg fun hEq => hNot.2 ((hOut hj).mp hEq)]
    · intro j hj
      rcases (hLive j).mp hj with hIn | ⟨hj, hNotN, hNotT⟩
      · exact .inl ⟨t, .inl rfl, hT.symm ▸ hIn⟩
      · exact .inr ⟨hj, by rw [not_or, hOut hj, hOut hj]; exact ⟨hNotT, hNotN⟩⟩
  refine ⟨chains', hChained, ?_⟩
  have hOld : update (update chains' t (chains t)) n (chains n) = chains := by
    funext i
    by_cases hin : i = n
    · rw [hin, update_self]
    · rw [update_of_ne hin]
      by_cases hit : i = t
      · rw [hit, update_self]
      · rw [update_of_ne hit, hOther i (by simp [hin, hit])]
  have hBuckets := hChained.buckets_split (hOld ▸ h) hNe hN (by simp [hT]) (by simp [hSome])
  rwa [isEmpty_eq_false_iff.mpr hSome, Bool.not_false, Bool.and_true] at hBuckets

section
variable {n : Nat} (he : e ∉ live) (hn : n ∈ live)
include he hn

theorem erase_insert_eq : (insert e live).erase n = insert e (live.erase n) :=
  Finset.erase_insert_of_ne fun hEq : e = n => he (hEq ▸ hn)

variable (h : Chained home live slots chains) (hOwn : home (slots n).data = n)
include h hOwn

/-- The chain of `n` moves to the slot `e`, which is its new home. -/
theorem Chained.rehead (hHome : ∀ j ∈ live, home' (slots j).data =
      if home (slots j).data = n then e else home (slots j).data)
    {slots' : Nat → Slot α} (hSlot : slots' e = slots n)
    (hSame : ∀ j ∈ live, j ≠ n → slots' j = slots j) :
    ∃ chains', Filled home home' live slots n e slots' chains' false := by
  have hMem := h.complete n hn
  rw [hOwn] at hMem
  have hSome := ne_nil_of_mem hMem
  obtain ⟨rest, hChain, hRest⟩ := h.chain_eq hSome
  have hNodup := h.nodup n
  have hSound := h.sound n
  rw [hChain] at hNodup hSound
  have hNone := h.eq_nil_of_notMem he
  have hNe : e ≠ n := fun hEq => he (hEq ▸ hn)
  have hnRest := (nodup_cons.mp hNodup).1
  have hRestSame (j : Nat) (hj : j ∈ rest) : slots' j = slots j :=
    hSame j (hSound j (mem_cons_of_mem n hj)).1 fun hEq => hnRest (hEq ▸ hj)
  have hSeg : Seg slots' (some e) (e :: rest) none :=
    ⟨rfl, by rw [hSlot]; exact hRest.congr hRestSame⟩
  have hLive (j : Nat) : j ∈ (insert e live).erase n ↔
      j ∈ e :: rest ∨ j ∈ live ∧ j ∉ chains n ∧ j ∉ chains e := by
    have hIn := fun hj => (hSound j hj).1
    rw [erase_insert_eq he hn, hNone, hChain, Finset.mem_insert, Finset.mem_erase]
    simp only [mem_cons, not_mem_nil] at hIn ⊢
    grind only
  have hData (j : Nat) (hj : j ∈ e :: rest) : home' (slots' j).data = e := by
    rcases mem_cons.mp hj with rfl | hj
    · rw [hSlot, hHome n hn, if_pos hOwn]
    · have hIn := hSound j (mem_cons_of_mem n hj)
      rw [hRestSame j hj, hHome j hIn.1, if_pos hIn.2]
  obtain ⟨chains', hChained, hBuckets⟩ := h.join hNe hSome hHome _ _ _ hSeg hLive hData
    fun j hj hOut _ => hSame j hj fun hEq => hOut (hEq ▸ hMem)
  refine ⟨chains', hChained, ?_, ?_⟩
  · rw [erase_insert_eq he hn]
    exact contents_move hn he (by rw [hSlot]) fun j hj hjn => by rw [hSame j hj hjn]
  · rw [hNone] at hBuckets
    exact hBuckets

/-- The chain of `n`, from the copy of its head in slot `e` on, is linked in behind slot
`t`, which is its new home. `A` is what follows the head up to the link to `find`, `B`
what follows `t`. -/
theorem Chained.append {t : Nat} (ht : t ∈ live) (hNe : t ≠ n)
    (hHome : ∀ j ∈ live, home' (slots j).data =
      if home (slots j).data = n then t else home (slots j).data)
    {find : Option Nat} {A B : List Nat} (hA : Seg slots (slots n).next A find)
    (hB : Seg slots (slots t).next B none)
    (hPerm : (n :: t :: (A ++ B)).Perm (chains n ++ chains t))
    (hFind : find = none ∨ find = some t) (hFuel : live.card ≤ fuel) :
    ∃ slots₁ chains', moveLink (update slots e (slots n)) find (slots t).next fuel e = some slots₁ ∧
      Filled home home' live slots n e (setNext slots₁ t (some e)) chains' (!(chains t).isEmpty) := by
  have hMem := h.complete n hn
  rw [hOwn] at hMem
  have hSome := ne_nil_of_mem hMem
  have hLiveIn (j : Nat) (hj : j ∈ chains n ++ chains t) : j ∈ live := by
    rcases mem_append.mp hj with hj | hj
    · exact (h.sound n j hj).1
    · exact (h.sound t j hj).1
  have hNodup : (n :: t :: (A ++ B)).Nodup := by
    refine hPerm.nodup_iff.mpr (nodup_append.mpr ⟨h.nodup n, h.nodup t, ?_⟩)
    rintro j hj _ hj' rfl
    exact hNe (h.index_unique hj' hj)
  have hInLive (j : Nat) (hj : j ∈ n :: t :: (A ++ B)) : j ∈ live :=
    hLiveIn j (hPerm.mem_iff.mp hj)
  have hLength : (n :: t :: (A ++ B)).length ≤ live.card := by
    rw [← toFinset_card_of_nodup hNodup]
    exact Finset.card_le_card fun j hj => hInLive j (mem_toFinset.mp hj)
  have heOut : e ∉ n :: t :: (A ++ B) := fun hIn => he (hInLive e hIn)
  simp only [mem_cons, mem_append, not_or] at heOut
  simp only [nodup_cons, mem_cons, mem_append, not_or, nodup_append] at hNodup
  obtain ⟨⟨-, hnA, hnB⟩, ⟨htA, htB⟩, hNodupA, -, hAB⟩ := hNodup
  have hCopy (j : Nat) (hj : j ≠ e) : update slots e (slots n) j = slots j :=
    update_of_ne hj ..
  have hPath : Seg (update slots e (slots n)) (some e) (e :: A) find :=
    ⟨rfl, by rw [update_self]; exact hA.congr fun j hj => hCopy j (by grind only)⟩
  have hShort : (e :: A).length ≤ fuel := by
    simp only [length_cons, length_append] at hLength ⊢
    omega
  have hFindOut (k : Nat) (hk : find = some k) : k ∉ e :: A := by
    rw [mem_cons, not_or]
    rcases hFind with hNone | hT
    · rw [hNone] at hk
      exact absurd hk (by simp)
    · obtain rfl := Option.some.inj (hk.symm.trans hT)
      exact ⟨Ne.symm heOut.2.1, htA⟩
  obtain ⟨slots₁, hMove, hSeg₁, hOther₁, hData₁⟩ := moveLink_spec (slots t).next hPath
    (nodup_cons.mpr ⟨heOut.2.2.1, hNodupA⟩) hFindOut hShort
  have hKept (j : Nat) (hjt : j ≠ t) (hj : j ∉ e :: A) : setNext slots₁ t (some e) j = slots j := by
    rw [setNext_of_ne hjt, hOther₁ j hj, hCopy j fun hEq => hj (by simp [hEq])]
  have hRecs (j : Nat) (hj : j ≠ e) : (setNext slots₁ t (some e) j).data = (slots j).data := by
    rw [setNext_data, hData₁, hCopy j hj]
  have hRecE : (setNext slots₁ t (some e) e).data = (slots n).data := by
    rw [setNext_data, hData₁, update_self]
  have hSeg : Seg (setNext slots₁ t (some e)) (some t) (t :: (e :: A ++ B)) none := by
    refine ⟨rfl, seg_append.mpr ⟨(slots t).next, ?_, ?_⟩⟩
    · rw [setNext_next]
      exact hSeg₁.congr fun j hj => setNext_of_ne (fun hEq => by grind only [mem_cons]) _
    · exact hB.congr fun j hj => hKept j (by grind only) (by grind only [mem_cons])
  have hMemPerm (j : Nat) := hPerm.mem_iff (a := j)
  simp only [mem_cons, mem_append] at hMemPerm hLiveIn
  have hLive (j : Nat) : j ∈ (insert e live).erase n ↔
      j ∈ t :: (e :: A ++ B) ∨ j ∈ live ∧ j ∉ chains n ∧ j ∉ chains t := by
    have := hMemPerm j
    have := hLiveIn j
    rw [erase_insert_eq he hn, Finset.mem_insert, Finset.mem_erase]
    simp only [mem_cons, mem_append]
    grind only
  have hData (j : Nat) (hj : j ∈ t :: (e :: A ++ B)) :
      home' (setNext slots₁ t (some e) j).data = t := by
    by_cases hje : j = e
    · rw [hje, hRecE, hHome n hn, if_pos hOwn]
    · have hIn : j ∈ chains n ∨ j ∈ chains t := (hMemPerm j).mp (by
        simp only [mem_cons, mem_append] at hj
        grind only)
      rw [hRecs j hje, hHome j (hLiveIn j hIn)]
      rcases hIn with hIn | hIn
      · rw [if_pos (h.sound n j hIn).2]
      · rw [(h.sound t j hIn).2, if_neg hNe]
  obtain ⟨chains', hChained, hBuckets⟩ := h.join hNe hSome hHome _ _ _ hSeg hLive hData
    fun j hj hjn hjt => hKept j (by grind only) (by
      have := hMemPerm j
      simp only [mem_cons]
      grind only)
  refine ⟨slots₁, chains', hMove, hChained, ?_, hBuckets⟩
  rw [erase_insert_eq he hn]
  exact contents_move hn he hRecE fun j hj _ => hRecs j fun hEq => he (hEq ▸ hj)

end

section
variable {n t : Nat} (hHome : ∀ j ∈ live, home' (slots j).data =
  if home (slots j).data = n then t else home (slots j).data)
include hHome

/-- The homes of the records do not depend on where they are. -/
theorem home_of_contents {live' : Finset Nat} {slots' : Nat → Slot α}
    (hContents : contents live' slots' = contents live slots) {j : Nat} (hj : j ∈ live') :
    home' (slots' j).data =
      if home (slots' j).data = n then t else home (slots' j).data := by
  have hMem : (slots' j).data ∈ contents live slots := hContents ▸ mem_contents.mpr ⟨j, hj, rfl⟩
  obtain ⟨k, hk, hData⟩ := mem_contents.mp hMem
  rw [← hData]
  exact hHome k hk

variable (h : Chained home live slots chains) (he : e ∉ live)
include h he

/-- The record of the last slot belongs to a chain of another number. -/
theorem Chained.fill_foreign (hn : n ∈ live) (hForeign : home (slots n).data ≠ n)
    (hFuel : live.card ≤ fuel) :
    ∃ slots' chains',
      moveLink (update slots e (slots n)) (some n) (some e) fuel (home (slots n).data) =
        some slots' ∧ Filled home home' live slots n e slots' chains' false := by
  obtain ⟨slots', chains', hMove, hMoved⟩ := h.relocate_copy he hn hForeign hFuel
  -- there is no chain of `n`, so that every home stays
  have hNone : chains' n = [] := (hMoved.nil_iff n).mpr (h.eq_nil_of_foreign hForeign)
  have hChained : Chained home' (insert e (live.erase n)) slots' chains' := by
    refine hMoved.chained.congr (fun _ _ => rfl) fun j hj => ?_
    rw [home_of_contents hHome hMoved.contents_eq hj, if_neg]
    intro hEq
    have hMem := hMoved.chained.complete j hj
    rw [hEq, hNone] at hMem
    exact not_mem_nil hMem
  rw [← erase_insert_eq he hn] at hChained
  refine ⟨slots', chains', hMove, hChained, ?_, ?_⟩
  · rw [erase_insert_eq he hn, hMoved.contents_eq]
  · exact (hChained.buckets_congr h fun i => (hMoved.nil_iff i).symm)

section
variable (hn : n ∈ live) (hOwn : home (slots n).data = n) (ht : t ∈ live) (hNe : t ≠ n)
include hn hOwn ht hNe

/-- The new home of the chain of `n` is held by a record of another chain. -/
theorem Chained.fill_occupied (hForeign : home (slots t).data ≠ t)
    (hOther : home (slots t).data ≠ n) (hFuel : live.card ≤ fuel) : ∃ slots' chains',
      moveLink (update (update slots e (slots t)) t (slots n)) (some t) (some e)
          fuel (home (slots t).data) = some slots' ∧
        Filled home home' live slots n e slots' chains' false := by
  have hnNe : n ≠ e := fun hEq => he (hEq ▸ hn)
  obtain ⟨slots₁, chains₁, hMove, hMoved⟩ := h.relocate he ht hForeign hFuel (slots n)
  have hLast : slots₁ n = slots n := by
    refine hMoved.frame n hNe.symm hnNe fun hMem => hOther ?_
    exact (h.sound _ n hMem).2.symm.trans hOwn
  have hte : t ≠ e := fun hEq => he (hEq ▸ ht)
  have htFree : t ∉ insert e (live.erase t) := by simp [hte]
  have hnIn : n ∈ insert e (live.erase t) :=
    Finset.mem_insert_of_mem (Finset.mem_erase.mpr ⟨hNe.symm, hn⟩)
  obtain ⟨chains', hFilled⟩ := Chained.rehead htFree hnIn hMoved.chained (by rw [hLast, hOwn])
    (fun j => home_of_contents hHome hMoved.contents_eq) (by rw [hMoved.slot, hLast])
    (fun _ _ _ => rfl)
  have hLive : (insert t (insert e (live.erase t))).erase n = (insert e live).erase n := by
    rw [Finset.insert_comm, Finset.insert_erase ht]
  have hBuckets : buckets home live slots = buckets home (insert e (live.erase t)) slots₁ :=
    hMoved.chained.buckets_congr h fun i => (hMoved.nil_iff i).symm
  refine ⟨slots₁, chains', hMove, hLive ▸ hFilled.chained, ?_, ?_⟩
  · rw [← hLive, hFilled.contents_eq, hMoved.contents_eq]
  · rw [← hLive, hBuckets, hFilled.buckets_eq]

/-- The new home of the chain of `n` holds a record that belongs there now. -/
theorem Chained.fill_joined (hThere : home' (slots t).data = t) (hFuel : live.card ≤ fuel) :
    ∃ slots₁ chains', moveLink (update slots e (slots n))
          (if n = home (slots t).data then some t else none) (slots t).next fuel e = some slots₁ ∧
        Filled home home' live slots n e (setNext slots₁ t (some e)) chains'
          (!decide (n = home (slots t).data)) := by
  have hMem := h.complete n hn
  rw [hOwn] at hMem
  obtain ⟨rest, hChain, hRest⟩ := h.chain_eq (ne_nil_of_mem hMem)
  by_cases hSame : n = home (slots t).data
  · have htIn := h.complete t ht
    rw [← hSame, hChain] at htIn
    obtain ⟨A, B, rfl⟩ := append_of_mem ((mem_cons.mp htIn).resolve_left hNe)
    have hNone : chains t = [] := h.eq_nil_of_foreign fun hEq => hNe (hEq.symm.trans hSame.symm)
    obtain ⟨middle, hA, rfl, hB⟩ := seg_append.mp hRest
    have hPerm : (n :: t :: (A ++ B)).Perm (chains n ++ chains t) := by
      rw [hNone, append_nil, hChain]
      exact (perm_middle.symm).cons n
    have hAppend := Chained.append he hn h hOwn ht hNe hHome hA hB hPerm (.inr rfl) hFuel
    rw [hNone] at hAppend
    simpa [← hSame] using hAppend
  · have hHead : home (slots t).data = t := by
      rw [hHome t ht, if_neg fun hEq => hSame hEq.symm] at hThere
      exact hThere
    have htIn := h.complete t ht
    rw [hHead] at htIn
    obtain ⟨B, hChainT, hB⟩ := h.chain_eq (ne_nil_of_mem htIn)
    have hPerm : (n :: t :: (rest ++ B)).Perm (chains n ++ chains t) := by
      rw [hChain, hChainT]
      exact (perm_middle.symm).cons n
    have hAppend := Chained.append he hn h hOwn ht hNe hHome hRest hB hPerm (.inl rfl) hFuel
    rw [hChainT] at hAppend
    simpa [hSame] using hAppend

end

/-- The hole gets filled, and every chain is one of the new homes. -/
theorem fillHole_spec {old new : α → Nat} (hLast : e ≠ n → n ∈ live)
    (hRange : ∀ j ∈ live, home' (slots j).data ∈ (insert e live).erase n)
    (hOld : ∀ j ∈ live, old (slots j).data = home (slots j).data)
    (hNew : ∀ j ∈ live, new (slots j).data = home' (slots j).data) (hFuel : live.card ≤ fuel) :
    ∃ slots' chains' merged, fillHole old new slots fuel n e = some (slots', merged) ∧
      Filled home home' live slots n e slots' chains' merged := by
  by_cases hen : e = n
  · subst hen
    have hSame : Chained home' live slots chains := by
      refine h.congr (fun _ _ => rfl) fun j hj => ?_
      rw [hHome j hj, if_neg fun hEq : home (slots j).data = e => he (hEq ▸ h.home_mem hj)]
    refine ⟨slots, chains, false, by rw [fillHole, if_pos rfl], ?_, ?_, ?_⟩
    · rwa [Finset.erase_insert he]
    · rw [Finset.erase_insert he]
    · rw [Finset.erase_insert he]
      exact hSame.buckets_congr h fun _ => Iff.rfl
  · have hn := hLast hen
    rw [fillHole, if_neg hen]
    simp only [hOld n hn, hNew n hn]
    by_cases hOwn : home (slots n).data = n
    · have hPos : home' (slots n).data = t := by rw [hHome n hn, if_pos hOwn]
      have htRange := hRange n hn
      rw [hPos, Finset.mem_erase, Finset.mem_insert] at htRange
      obtain ⟨htn, htIn⟩ := htRange
      rw [hPos]
      by_cases hte : t = e
      · subst hte
        obtain ⟨chains', hFilled⟩ := Chained.rehead he hn h hOwn hHome
          (update_self t (slots n) slots)
          (fun j hj _ => update_of_ne (fun hEq : j = t => he (hEq ▸ hj)) ..)
        exact ⟨_, chains', false, by rw [if_pos rfl], hFilled⟩
      · have ht := htIn.resolve_left hte
        rw [if_neg hte, hOld t ht, hNew t ht, hOwn]
        by_cases hThere : t = home' (slots t).data
        · rw [if_neg (by simpa using hThere), if_neg (by simp)]
          obtain ⟨slots₁, chains', hMove, hFilled⟩ :=
            Chained.fill_joined hHome h he hn hOwn ht htn hThere.symm hFuel
          exact ⟨_, chains', _, by rw [hMove]; rfl, hFilled⟩
        · rw [if_pos hThere]
          have hHomeT := hHome t ht
          have hOther : home (slots t).data ≠ n := fun hEq => hThere (by rw [hHomeT, if_pos hEq])
          rw [if_neg hOther] at hHomeT
          obtain ⟨slots', chains', hMove, hFilled⟩ := Chained.fill_occupied hHome h he hn hOwn ht htn
            (fun hEq => hThere (by rw [hHomeT, hEq])) hOther hFuel
          exact ⟨slots', chains', false, by rw [hHomeT, hMove]; rfl, hFilled⟩
    · have hPos : home' (slots n).data = home (slots n).data := by rw [hHome n hn, if_neg hOwn]
      have hSome := ne_nil_of_mem (h.complete n hn)
      obtain ⟨hpLive, hpOwn⟩ := h.head hSome
      have hpe : home (slots n).data ≠ e := fun hEq => he (hEq ▸ hpLive)
      have hpHome : home' (slots (home (slots n).data)).data = home (slots n).data := by
        rw [hHome _ hpLive, hpOwn, if_neg hOwn]
      obtain ⟨slots', chains', hMove, hFilled⟩ := Chained.fill_foreign hHome h he hn hOwn hFuel
      refine ⟨slots', chains', false, ?_, hFilled⟩
      rw [hPos, if_neg hpe, hNew _ hpLive, hpHome, if_neg (by simp), hOld _ hpLive, hpOwn,
        if_pos ⟨rfl, hOwn⟩, hMove]
      rfl

end

end Library.LinearHash
