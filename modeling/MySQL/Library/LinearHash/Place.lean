import MySQL.Library.LinearHash.Basic

/-! Moving slots and placing records. A record goes to its home slot; whatever that
slot held moves to the empty slot. -/
namespace Library.LinearHash
open Function List

universe u
variable {α : Type u} {home : α → Nat} {live : Finset Nat} {slots slots' : Nat → Slot α}
  {chains chains' : Nat → List Nat} {e p fuel : Nat} {r : α}

theorem contents_congr (h : ∀ j ∈ live, (slots' j).data = (slots j).data) :
    contents live slots' = contents live slots :=
  Multiset.map_congr rfl h

theorem contents_insert (he : e ∉ live) :
    contents (insert e live) slots = (slots e).data ::ₘ contents live slots := by
  simp [contents, he]

theorem contents_erase (hp : p ∈ live) :
    (slots p).data ::ₘ contents (live.erase p) slots = contents live slots := by
  rw [← contents_insert (Finset.notMem_erase p live), Finset.insert_erase hp]

theorem mem_contents {x : α} : x ∈ contents live slots ↔ ∃ j ∈ live, (slots j).data = x := by
  simp [contents]

/-- A record moved from slot `p` to the empty slot `e`. -/
theorem contents_move (hp : p ∈ live) (he : e ∉ live) (hMoved : (slots' e).data = (slots p).data)
    (hOther : ∀ j ∈ live, j ≠ p → (slots' j).data = (slots j).data) :
    contents (insert e (live.erase p)) slots' = contents live slots := by
  have heErase : e ∉ live.erase p := fun hMem => he (Finset.mem_of_mem_erase hMem)
  have hSame : contents (live.erase p) slots' = contents (live.erase p) slots :=
    contents_congr fun j hj => hOther j (Finset.mem_of_mem_erase hj) (Finset.ne_of_mem_erase hj)
  rw [contents_insert heErase, hSame, hMoved, contents_erase hp]

namespace Chained

section
variable (h : Chained home live slots chains)
include h

theorem buckets_eq_card {heads : Finset Nat} (hHeads : ∀ i, i ∈ heads ↔ chains i ≠ []) :
    buckets home live slots = heads.card := by
  have hSame : (live.filter fun i => home (slots i).data = i) = heads := by
    ext i
    rw [Finset.mem_filter, hHeads]
    constructor
    · rintro ⟨hLive, hHome⟩ hNone
      have hMem := h.complete i hLive
      rw [hHome, hNone] at hMem
      exact not_mem_nil hMem
    · exact h.head
  rw [buckets, hSame]

/-- The number of chains is the number of homes. -/
theorem buckets_eq_homes :
    buckets home live slots = ((contents live slots).map home).toFinset.card := by
  refine h.buckets_eq_card fun i => ?_
  rw [Multiset.mem_toFinset, Multiset.mem_map]
  constructor
  · rintro ⟨r, hr, rfl⟩
    obtain ⟨j, hj, rfl⟩ := mem_contents.mp hr
    exact ne_nil_of_mem (h.complete j hj)
  · intro hSome
    obtain ⟨hi, hHome⟩ := h.head hSome
    exact ⟨_, mem_contents.mpr ⟨i, hi, rfl⟩, hHome⟩

/-- Every live slot is in one chain. -/
theorem sum_length : ∑ i ∈ live, (chains i).length = live.card := by
  rw [Finset.card_eq_sum_card_fiberwise fun j hj => h.home_mem hj]
  refine Finset.sum_congr rfl fun i _ => ?_
  rw [← toFinset_card_of_nodup (h.nodup i)]
  congr 1
  ext j
  rw [mem_toFinset, Finset.mem_filter]
  exact ⟨h.sound i j, fun ⟨hj, hHome⟩ => hHome ▸ h.complete j hj⟩

theorem exists_heads : ∃ heads : Finset Nat, ∀ i, i ∈ heads ↔ chains i ≠ [] := by
  refine ⟨live.filter fun i => chains i ≠ [], fun i => ?_⟩
  rw [Finset.mem_filter]
  exact ⟨And.right, fun hSome => ⟨(h.head hSome).1, hSome⟩⟩

end

section
variable {live' : Finset Nat} {home' : α → Nat}

section
variable (h : Chained home live slots chains) (h' : Chained home' live' slots' chains')
include h h'

theorem buckets_congr (hSame : ∀ i, chains' i = [] ↔ chains i = []) :
    buckets home' live' slots' = buckets home live slots := by
  obtain ⟨heads, hHeads⟩ := h.exists_heads
  rw [h.buckets_eq_card hHeads, h'.buckets_eq_card]
  intro i
  rw [hHeads, ne_eq, ne_eq, hSame]

theorem buckets_succ (hNone : chains e = []) (hSome : chains' e ≠ [])
    (hSame : ∀ i, i ≠ e → (chains' i = [] ↔ chains i = [])) :
    buckets home' live' slots' = buckets home live slots + 1 := by
  obtain ⟨heads, hHeads⟩ := h.exists_heads
  have hNotMem : e ∉ heads := by simp [hHeads, hNone]
  have hHeads' : ∀ i, i ∈ insert e heads ↔ chains' i ≠ [] := by
    intro i
    by_cases hi : i = e
    · simp [hi, hSome]
    · simp [hi, hHeads, hSame i hi]
  rw [h.buckets_eq_card hHeads, h'.buckets_eq_card hHeads', Finset.card_insert_of_notMem hNotMem]

end

/-- The chain of `first` and the empty chain of `n` become two chains, of which one may
be empty. -/
theorem buckets_split {first n : Nat} {tl th : List Nat} (h : Chained home live slots chains)
    (h' : Chained home' live' slots' (update (update chains first tl) n th))
    (hNe : first ≠ n) (hn : chains n = []) (hFirst : chains first ≠ []) (hSome : tl ++ th ≠ []) :
    buckets home' live' slots' = buckets home live slots + (!tl.isEmpty && !th.isEmpty).toNat := by
  obtain ⟨heads, hHeads⟩ := h.exists_heads
  have hFirstMem : first ∈ heads := (hHeads first).mpr hFirst
  have hnNotMem : n ∉ heads := fun hMem => (hHeads n).mp hMem hn
  have hCard (heads' : Finset Nat) (hn' : n ∈ heads' ↔ th ≠ []) (hFirst' : first ∈ heads' ↔ tl ≠ [])
      (hOther : ∀ i, i ≠ n → i ≠ first → (i ∈ heads' ↔ i ∈ heads)) :
      buckets home' live' slots' = heads'.card := by
    refine h'.buckets_eq_card fun i => ?_
    by_cases hin : i = n
    · rw [hin, update_self, hn']
    · rw [update_of_ne hin]
      by_cases hif : i = first
      · rw [hif, update_self, hFirst']
      · rw [update_of_ne hif, hOther i hin hif, hHeads]
  rw [h.buckets_eq_card hHeads]
  cases tl with
  | nil =>
    cases th with
    | nil => exact absurd rfl hSome
    | cons k th =>
      rw [hCard (insert n (heads.erase first)) (by simp) (by simp [hNe])
        (fun i hin hif => by simp [hin, hif]), Finset.card_insert_of_notMem (by simp [hnNotMem]),
        Finset.card_erase_add_one hFirstMem]
      rfl
  | cons k tl =>
    cases th with
    | nil =>
      rw [hCard heads (by simp [hnNotMem]) (by simp [hFirstMem]) fun _ _ _ => Iff.rfl]
      rfl
    | cons k th =>
      rw [hCard (insert n heads) (by simp) (by simp [hFirstMem]) (fun i hin _ => by simp [hin]),
        Finset.card_insert_of_notMem hnNotMem]
      rfl

end

section
variable (h : Chained home live slots chains)
include h

theorem length_le (i : Nat) : (chains i).length ≤ live.card := by
  rw [← toFinset_card_of_nodup (h.nodup i)]
  refine Finset.card_le_card fun j hj => ?_
  exact (h.sound i j (mem_toFinset.mp hj)).1

/-- The links from any live slot run to an end. -/
theorem exists_tail {i : Nat} (hi : i ∈ live) :
    ∃ rest, Seg slots (some i) (i :: rest) none ∧ rest.length < live.card ∧
      ∀ j ∈ i :: rest, j ∈ live := by
  have hMem := h.complete i hi
  have hSeg := (h.linked _).resolve_left (ne_nil_of_mem hMem)
  have hLength := h.length_le (home (slots i).data)
  have hSound := h.sound (home (slots i).data)
  obtain ⟨front, rest, hChain⟩ := append_of_mem hMem
  rw [hChain] at hSeg hLength hSound
  obtain ⟨middle, -, rfl, hRest⟩ := seg_append.mp hSeg
  refine ⟨rest, ⟨rfl, hRest⟩, ?_, fun j hj => (hSound j (mem_append_right front hj)).1⟩
  simp only [length_append, length_cons] at hLength
  omega

theorem next_mem {i j : Nat} (hi : i ∈ live) (hNext : (slots i).next = some j) : j ∈ live := by
  obtain ⟨rest, ⟨-, hSeg⟩, -, hLive⟩ := h.exists_tail hi
  rw [hNext] at hSeg
  cases rest with
  | nil => exact absurd hSeg (by simp [Seg])
  | cons k rest =>
    obtain rfl := Option.some.inj hSeg.1
    exact hLive j (by simp)

end

/-- The home slot is empty. -/
theorem fill (h : Chained home live slots chains) (he : e ∉ live) (hHome : home r = e)
    (hSlot : slots e = ⟨none, r⟩) :
    Chained home (insert e live) slots (update chains e [e]) := by
  refine h.replace (.inr ⟨rfl, by rw [hSlot]; rfl⟩) (by simp [hSlot, hHome]) (fun j => ?_)
    (fun _ _ _ => rfl)
  rw [h.eq_nil_of_notMem he]
  simp

/-- The chain that starts in slot `p` gets one slot longer: the first two slots hold
records `x` and `y` of its home. -/
theorem push (h : Chained home live slots chains) (hp : p ∈ live)
    (hOwn : home (slots p).data = p) {x y : α} (hx : home x = p) (hy : home y = p)
    {slots' : Nat → Slot α} (hFirst : slots' p = ⟨some e, x⟩)
    (hSecond : slots' e = ⟨(slots p).next, y⟩) (hOther : ∀ j ∈ live, j ≠ p → slots' j = slots j) :
    ∃ rest, chains p = p :: rest ∧
      Chained home (insert e live) slots' (update chains p (p :: e :: rest)) := by
  have hMem := h.complete p hp
  rw [hOwn] at hMem
  obtain ⟨rest, hChain, hRest⟩ := h.chain_eq (ne_nil_of_mem hMem)
  have hNodup := h.nodup p
  have hSound := h.sound p
  rw [hChain] at hNodup hSound
  have hRestSame (j : Nat) (hj : j ∈ rest) : slots' j = slots j :=
    hOther j (hSound j (mem_cons_of_mem p hj)).1
      fun hEq => (nodup_cons.mp hNodup).1 (hEq ▸ hj)
  refine ⟨rest, hChain, h.replace (.inr ⟨rfl, by rw [hFirst], ?_⟩) ?_ ?_ ?_⟩
  · rw [hSecond]
    exact hRest.congr hRestSame
  · simp only [mem_cons, forall_eq_or_imp, hFirst, hSecond, hx, hy, true_and]
    intro j hj
    rw [hRestSame j hj]
    exact (hSound j (mem_cons_of_mem p hj)).2
  · intro j
    have hLive := fun hj => (hSound j hj).1
    rw [hChain, Finset.mem_insert]
    simp only [mem_cons] at hLive ⊢
    grind only
  · intro j hj hOut
    exact hOther j hj fun hEq => hOut (hEq ▸ hMem)

/-- The table after the record in slot `p`, which belongs to a chain of another number,
moved to the empty slot `e`, and `x` took its place. -/
structure Relocated (home : α → Nat) (live : Finset Nat) (slots : Nat → Slot α)
    (chains : Nat → List Nat) (p e : Nat) (x : Slot α) (slots' : Nat → Slot α)
    (chains' : Nat → List Nat) : Prop where
  slot : slots' p = x
  chained : Chained home (insert e (live.erase p)) slots' chains'
  contents_eq : contents (insert e (live.erase p)) slots' = contents live slots
  nil_iff : ∀ i, chains' i = [] ↔ chains i = []
  frame : ∀ j, j ≠ p → j ≠ e → j ∉ chains (home (slots p).data) → slots' j = slots j

section
variable (h : Chained home live slots chains) (he : e ∉ live) (hp : p ∈ live)
  (hForeign : home (slots p).data ≠ p) (hFuel : live.card ≤ fuel)
include h he hp hForeign hFuel

theorem relocate (x : Slot α) : ∃ slots' chains',
      moveLink (update (update slots e (slots p)) p x) (some p) (some e) fuel
          (home (slots p).data) = some slots' ∧
        Relocated home live slots chains p e x slots' chains' := by
  set g := home (slots p).data with hg
  have hMem : p ∈ chains g := h.complete p hp
  have hSome := ne_nil_of_mem hMem
  have hSeg := (h.linked g).resolve_left hSome
  have hNodup := h.nodup g
  have hLength := h.length_le g
  obtain ⟨front, back, hChain⟩ := append_of_mem hMem
  -- the chain starts in its home slot, so that something links to `p`
  obtain ⟨front', rfl⟩ : ∃ front', front = g :: front' := by
    cases front with
    | nil =>
      rw [hChain] at hSeg
      exact absurd (Option.some.inj hSeg.1) hForeign
    | cons k front =>
      rw [hChain] at hSeg
      obtain rfl := Option.some.inj hSeg.1
      exact ⟨front, rfl⟩
  rw [hChain] at hSeg hNodup hLength
  obtain ⟨middle, hFront, hMiddle, hBack⟩ := seg_append.mp hSeg
  subst hMiddle
  have hParts := nodup_append.mp hNodup
  have hpFront : p ∉ g :: front' := fun hIn => hParts.2.2 p hIn p mem_cons_self rfl
  have hpBack : p ∉ back := (nodup_cons.mp hParts.2.1).1
  have hLive {j : Nat} (hj : j ∈ chains g) : j ∈ live := (h.sound g j hj).1
  have heChain : e ∉ chains g := fun hIn => he (hLive hIn)
  have hNe : e ≠ p := fun hEq => he (hEq ▸ hp)
  rw [hChain] at heChain
  simp only [mem_append, mem_cons, not_or] at heChain
  set slots₁ := update (update slots e (slots p)) p x with hSlots₁
  have hOther₁ (j : Nat) (hjp : j ≠ p) (hje : j ≠ e) : slots₁ j = slots j := by
    rw [hSlots₁, update_of_ne hjp, update_of_ne hje]
  have hFront₁ : Seg slots₁ (some g) (g :: front') (some p) :=
    hFront.congr fun j hj => hOther₁ j (fun hEq => hpFront (hEq ▸ hj))
      (fun hEq => by subst hEq; simp_all)
  have hShort : (g :: front').length ≤ fuel := by
    rw [length_append] at hLength
    omega
  obtain ⟨slots', hMove, hFront', hOther', hData'⟩ := moveLink_spec (some e) hFront₁
    hParts.1 (fun k hk => by obtain rfl := Option.some.inj hk; exact hpFront) hShort
  have hp' : slots' p = x := by
    rw [hOther' p hpFront, hSlots₁, update_self]
  have he' : slots' e = slots p := by
    rw [hOther' e (by simp_all), hSlots₁, update_of_ne hNe, update_self]
  have hOther (j : Nat) (hjp : j ≠ p) (hje : j ≠ e) (hj : j ∉ g :: front') :
      slots' j = slots j := by
    rw [hOther' j hj, hOther₁ j hjp hje]
  have hDataOther (j : Nat) (hjp : j ≠ p) (hje : j ≠ e) : (slots' j).data = (slots j).data := by
    rw [hData', hOther₁ j hjp hje]
  have hNotLive {j : Nat} (hj : j ∈ live) : j ≠ e := fun hEq => he (hEq ▸ hj)
  have hBackSame (j : Nat) (hj : j ∈ back) : slots' j = slots j :=
    hOther j (fun hEq => hpBack (hEq ▸ hj)) (fun hEq => heChain.2.2 (hEq ▸ hj))
      fun hIn => hParts.2.2 j hIn j (mem_cons_of_mem p hj) rfl
  refine ⟨slots', update chains g (g :: front' ++ e :: back), hMove, hp',
    h.replace (.inr ?_) ?_ ?_ ?_, ?_, ?_, ?_⟩
  · refine seg_append.mpr ⟨some e, hFront', rfl, ?_⟩
    rw [he']
    exact hBack.congr hBackSame
  · have hKept {j : Nat} (hj : j ∈ chains g) (hjp : j ≠ p) : home (slots' j).data = g := by
      rw [hDataOther j hjp (hNotLive (hLive hj)), (h.sound g j hj).2]
    intro j hj
    rcases mem_append.mp hj with hj | hj
    · exact hKept (hChain ▸ mem_append_left _ hj) fun hEq => hpFront (hEq ▸ hj)
    · rcases mem_cons.mp hj with rfl | hj
      · rw [he']
      · exact hKept (hChain ▸ mem_append_right _ (mem_cons_of_mem p hj))
          fun hEq => hpBack (hEq ▸ hj)
  · intro j
    have hIn := @hLive j
    have hjp : j = p → j ∉ g :: front' ∧ j ∉ back := fun hEq => hEq ▸ ⟨hpFront, hpBack⟩
    rw [hChain] at hIn ⊢
    simp only [Finset.mem_insert, Finset.mem_erase, mem_append, mem_cons] at hIn hjp ⊢
    grind only
  · intro j hj hOut
    refine hOther j (fun hEq => hOut (hEq ▸ hMem)) (hNotLive hj) fun hIn => hOut ?_
    exact hChain ▸ mem_append_left _ hIn
  · refine contents_move hp he (by rw [he']) fun j hj hjp => ?_
    exact hDataOther j hjp (hNotLive hj)
  · intro i
    by_cases hi : i = g
    · rw [hi, hChain]
      simp
    · rw [update_of_ne hi]
  · intro j hjp hje hj
    exact hOther j hjp hje fun hIn => hj (hChain ▸ mem_append_left _ hIn)

/-- The slot that was moved keeps what it holds. -/
theorem relocate_copy : ∃ slots' chains',
      moveLink (update slots e (slots p)) (some p) (some e) fuel (home (slots p).data) =
          some slots' ∧
        Relocated home live slots chains p e (slots p) slots' chains' := by
  have hSame : update (update slots e (slots p)) p (slots p) =
      update slots e (slots p) := by
    rw [update_eq_self_iff, update_of_ne fun hEq : p = e => he (hEq ▸ hp)]
  have hRelocate := h.relocate he hp hForeign hFuel (slots p)
  rwa [hSame] at hRelocate

end

end Chained

/-- Put a record with home `idx` into its home slot. What that slot held goes to the
empty slot. The answer tells whether the record starts a chain. -/
def place (home : α → Nat) (slots : Nat → Slot α) (fuel empty idx : Nat) (r : α) :
    Option ((Nat → Slot α) × Bool) :=
  if idx = empty then some (update slots idx ⟨none, r⟩, true)
  else
    let saved := update slots empty (slots idx)
    let start := home (saved idx).data
    if idx = start then some (update saved idx ⟨some empty, r⟩, false)
    else
      (moveLink (update saved idx ⟨none, r⟩) (some idx) (some empty) fuel start).map
        fun slots => (slots, true)

structure Placed (home : α → Nat) (live : Finset Nat) (slots : Nat → Slot α) (e idx : Nat) (r : α) (slots' : Nat → Slot α)
    (chains' : Nat → List Nat) (fresh : Bool) : Prop where
  chained : Chained home (insert e live) slots' chains'
  contents_eq : contents (insert e live) slots' = r ::ₘ contents live slots
  buckets_eq : buckets home (insert e live) slots' = buckets home live slots + fresh.toNat
  first : slots' idx = ⟨if fresh then none else some e, r⟩
  chain : ∃ rest, chains' idx = idx :: if fresh then [] else e :: rest

theorem place_spec {look : α → Nat} {idx : Nat} (h : Chained home live slots chains)
    (hLook : ∀ j ∈ live, look (slots j).data = home (slots j).data) (he : e ∉ live)
    (hHome : home r = idx) (hIdx : idx ∈ insert e live) (hFuel : live.card ≤ fuel) :
    ∃ slots' chains' fresh, place look slots fuel e idx r = some (slots', fresh) ∧
      Placed home live slots e idx r slots' chains' fresh := by
  by_cases hEmpty : idx = e
  · subst hEmpty
    have hFree : Chained home live (update slots idx ⟨none, r⟩) chains :=
      h.congr (fun j hj => update_of_ne (fun hEq : j = idx => he (hEq ▸ hj)) ..)
        fun _ _ => rfl
    have hNone := h.eq_nil_of_notMem he
    have hFilled := hFree.fill he hHome (update_self ..)
    refine ⟨_, _, true, by rw [place, if_pos rfl], hFilled, ?_, ?_, by simp, [],
      update_self ..⟩
    · rw [contents_insert he, update_self]
      congr 1
      exact contents_congr fun j hj => by
        rw [update_of_ne (fun hEq : j = idx => he (hEq ▸ hj))]
    · refine h.buckets_succ hFilled hNone (by simp) fun i hi => ?_
      rw [update_of_ne hi]
  · have hp : idx ∈ live := (Finset.mem_insert.mp hIdx).resolve_left hEmpty
    have hSaved : update slots e (slots idx) idx = slots idx :=
      update_of_ne hEmpty ..
    rw [place, if_neg hEmpty]
    simp only [hSaved, hLook idx hp]
    by_cases hOwn : idx = home (slots idx).data
    · set slots₁ := update (update slots e _) idx ⟨some e, r⟩
        with hSlots₁
      have hFirst : slots₁ idx = ⟨some e, r⟩ := update_self ..
      have hSecond : slots₁ e = slots idx := by
        rw [hSlots₁, update_of_ne (Ne.symm hEmpty), update_self]
      have hOther (j : Nat) (hjIdx : j ≠ idx) (hje : j ≠ e) : slots₁ j = slots j := by
        rw [hSlots₁, update_of_ne hjIdx, update_of_ne hje]
      obtain ⟨rest, hChain, hPushed⟩ := h.push hp hOwn.symm hHome hOwn.symm hFirst hSecond
        fun j hj hjIdx => hOther j hjIdx fun hEq => he (hEq ▸ hj)
      refine ⟨slots₁, _, false, by rw [if_pos hOwn], hPushed, ?_, ?_, by simp [hFirst], rest,
        update_self ..⟩
      · have hRest : contents (live.erase idx) slots₁ = contents (live.erase idx) slots :=
          contents_congr fun j hj => by
            obtain ⟨hjIdx, hj⟩ := Finset.mem_erase.mp hj
            rw [hOther j hjIdx fun hEq => he (hEq ▸ hj)]
        have hOld : (slots idx).data ::ₘ contents (live.erase idx) slots = contents live slots :=
          contents_erase hp
        rw [contents_insert he, hSecond, ← contents_erase hp, hFirst, hRest, ← hOld,
          Multiset.cons_swap]
      · refine h.buckets_congr hPushed fun i => ?_
        by_cases hi : i = idx
        · simp [hi, hChain]
        · rw [update_of_ne hi]
    · obtain ⟨slots₁, chains₁, hMove, hMoved⟩ :=
        h.relocate he hp (Ne.symm hOwn) hFuel ⟨none, r⟩
      have hFree : idx ∉ insert e (live.erase idx) := by simp [hEmpty]
      have hFilled := hMoved.chained.fill hFree hHome hMoved.slot
      have hLive : insert idx (insert e (live.erase idx)) = insert e live := by
        rw [Finset.insert_comm, Finset.insert_erase hp]
      have hNone := h.eq_nil_of_foreign (Ne.symm hOwn)
      rw [hLive] at hFilled
      refine ⟨slots₁, _, true, by rw [if_neg hOwn, hMove]; rfl, hFilled, ?_, ?_,
        by simp [hMoved.slot], [], update_self ..⟩
      · rw [← hLive, contents_insert hFree, hMoved.slot, hMoved.contents_eq]
      · refine h.buckets_succ hFilled hNone (by simp) fun i hi => ?_
        rw [update_of_ne hi]
        exact hMoved.nil_iff i

end Library.LinearHash
