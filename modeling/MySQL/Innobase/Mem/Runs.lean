import MySQL.Innobase.Mem.Calls

/-! The allocator over any calls: its areas are those of the buffers in use, and free ones. -/
namespace MySQL.Innobase.Mem

open Finset Library Block Function Option

/-- The pointer that the caller gets, behind the header. -/
def ptrOf (b : Block) : Int := ((b.start + memAreaExtraSize : Nat) : Int)

theorem ptrOf_injective {b c : Block} (h : ptrOf b = ptrOf c) : b.start = c.start := by
  unfold ptrOf at h
  omega

/-- The blocks in use are those that callers have pointers to. -/
structure State.Valid (s : State) (used : Nat) (A F : Finset Block) : Prop where
  shape : Shape s.pool used A F
  noBuddies : NoBuddies F
  owner : ∀ b ∈ A, ∃ size, (ptrOf b, size) ∈ s.live
  live : ∀ ptr size, (ptr, size) ∈ s.live → 0 ≤ ptr → ptr < s.pool.size →
    ∃ b ∈ A, ptr = ptrOf b ∧ size + memAreaExtraSize ≤ b.size
  nodup : (s.live.map Prod.fst).Nodup

/-- What a call is asked for when the areas take `used` bytes: there is a free list for the request, and
the area that is freed does not become the last one before a tail that is no area. -/
def Call.Fits (used : Nat) (s : State) : Call → Prop
  | .alloc size _ => size + memAreaExtraSize ≤ 2 ^ 63
  | .free ptr =>
    let area := ptr.toNat - memAreaExtraSize
    TailPasses used s.pool ∨ growsTo used s.pool 64 ⟨area, ut2Log (memAreaGetSize (s.pool.word area))⟩ = false
  | .write .. => True

instance (used : Nat) (s : State) (call : Call) : Decidable (call.Fits used s) := by
  cases call <;> dsimp only [Call.Fits] <;> infer_instance

variable {s t : State} {used : Nat} {A F : Finset Block} {b : Block}

/-- A pointer into the pool is told from one of `ut_malloc` by its address. -/
theorem Shape.ptr_inside {p : Pool} (h : Shape p used A F) (hb : b ∈ A ∪ F) : 0 ≤ ptrOf b ∧ ptrOf b < p.size := by
  have hStop := h.tiles.stop b hb
  have hInPool := h.inPool
  have hLarge : 2 ^ 5 ≤ b.size := Nat.pow_le_pow_right (by omega) (h.exps b hb).1
  simp only [ptrOf, stop, memAreaExtraSize] at *
  omega

/-- A buffer that is allocated. -/
theorem State.Valid.alloc (h : s.Valid used A F) {size : Nat} (hSize : size + memAreaExtraSize ≤ 2 ^ 63) (os : Int) :
    ((os < 0 ∨ (s.pool.size : Int) ≤ os) → os ∉ s.live.map Prod.fst → (system.step s (.alloc size os)).isSome) ∧
    ∀ t, system.step s (.alloc size os) = some t → ∃ A' F', t.Valid used A' F' ∧ t.pool.size = s.pool.size := by
  rcases memAreaAlloc_spec h.shape h.noBuddies hSize with hAlloc | ⟨p', F', b, hAlloc, hSame, hShape, hNone, hFresh, hRoom⟩
  · simp only [system, hAlloc]
    refine ⟨fun hOut hNew => by rw [if_pos ⟨hOut, hNew⟩]; rfl, fun t hStep => ?_⟩
    split at hStep
    · rename_i hOs
      obtain rfl := some.inj hStep
      refine ⟨A, F, ⟨h.shape, h.noBuddies, fun b hb => ?_, fun ptr r hIn hLow hHigh => ?_, ?_⟩, rfl⟩
      · obtain ⟨r, hr⟩ := h.owner b hb
        exact ⟨r, List.mem_cons_of_mem _ hr⟩
      · rcases List.mem_cons.mp hIn with hEq | hIn
        · obtain ⟨rfl, rfl⟩ := Prod.mk.inj hEq
          simp only at hHigh
          omega
        · exact h.live ptr r hIn hLow hHigh
      · exact List.nodup_cons.mpr ⟨hOs.2, h.nodup⟩
    · cases hStep
  · simp only [system, hAlloc]
    refine ⟨fun _ _ => rfl, fun t hStep => ?_⟩
    obtain rfl := some.inj hStep
    have hNew : ptrOf b ∉ s.live.map Prod.fst := fun hIn => by
      obtain ⟨⟨ptr, r⟩, hLive, rfl⟩ := List.mem_map.mp hIn
      have hbMem : b ∈ insert b A ∪ F' := mem_union_left F' (mem_insert_self b A)
      have hInside := hShape.ptr_inside hbMem
      rw [hSame] at hInside
      obtain ⟨c, hc, hEq, -⟩ := h.live _ r hLive hInside.1 hInside.2
      have hSameArea : c = b := hShape.tiles.eq_of_start hbMem
        (mem_union_left F' (mem_insert_of_mem hc)) (ptrOf_injective hEq).symm
      exact hFresh (hSameArea ▸ hc)
    refine ⟨_, F', ⟨hShape, hNone, fun c hc => ?_, fun ptr r hIn hLow hHigh => ?_, ?_⟩, hSame⟩
    · rcases mem_insert.mp hc with rfl | hc
      · exact ⟨size, List.mem_cons_self⟩
      · obtain ⟨r, hr⟩ := h.owner c hc
        exact ⟨r, List.mem_cons_of_mem _ hr⟩
    · rcases List.mem_cons.mp hIn with hEq | hIn
      · obtain ⟨rfl, rfl⟩ := Prod.mk.inj hEq
        exact ⟨b, mem_insert_self b A, rfl, hRoom⟩
      · obtain ⟨c, hc, hEq, hLarge⟩ := h.live ptr r hIn hLow (hSame ▸ hHigh)
        exact ⟨c, mem_insert_of_mem hc, hEq, hLarge⟩
    · exact List.nodup_cons.mpr ⟨hNew, h.nodup⟩

theorem mem_filter_live {live : List (Int × Nat)} {ptr ptr' : Int} {r : Nat} :
    (ptr', r) ∈ live.filter (fun e => e.1 ≠ ptr) ↔ (ptr', r) ∈ live ∧ ptr' ≠ ptr := by
  simp [List.mem_filter]

/-- A buffer that is freed. -/
theorem State.Valid.free (h : s.Valid used A F) {ptr : Int} (hPtr : ptr ∈ s.live.map Prod.fst)
    (hFits : Call.Fits used s (.free ptr)) :
    ∃ t A' F', system.step s (.free ptr) = some t ∧ t.Valid used A' F' ∧ t.pool.size = s.pool.size := by
  have hNodup : ((s.live.filter fun e => e.1 ≠ ptr).map Prod.fst).Nodup :=
    h.nodup.sublist (List.filter_sublist.map Prod.fst)
  obtain ⟨⟨ptr, size⟩, hLive, rfl⟩ := List.mem_map.mp hPtr
  simp only [system, if_pos hPtr]
  by_cases hOut : ptr < 0 ∨ (s.pool.size : Int) ≤ ptr
  · -- the buffer was not one of the pool
    have hFree : memAreaFree 64 ptr s.pool = some s.pool := by
      rw [memAreaFree, memAreaFreeBody, if_pos hOut]
    rw [hFree]
    refine ⟨_, A, F, rfl, ⟨h.shape, h.noBuddies, fun b hb => ?_, fun ptr' r hIn => ?_, hNodup⟩, rfl⟩
    · obtain ⟨r, hr⟩ := h.owner b hb
      have hInside := h.shape.ptr_inside (mem_union_left F hb)
      exact ⟨r, mem_filter_live.mpr ⟨hr, by omega⟩⟩
    · exact h.live ptr' r (mem_filter_live.mp hIn).1
  · obtain ⟨b, hb, rfl, -⟩ := h.live ptr size hLive (by omega) (by omega)
    have hExp := h.shape.exps b (mem_union_left F hb)
    have hArea : (ptrOf b).toNat - memAreaExtraSize = b.start := by
      simp only [ptrOf, Int.toNat_natCast, Nat.add_sub_cancel]
    simp only [Call.Fits, hArea, h.shape.getSize (mem_union_left F hb)] at hFits
    rw [show ut2Log b.size = b.exp from ut2Log_two_pow (by omega) (by omega)] at hFits
    obtain ⟨p', F', hFree, hSame, hShape, hNone⟩ := memAreaFree_spec h.shape h.noBuddies hb
      (by omega : 31 - b.exp < 64) hFits
    rw [ptrOf, hFree]
    refine ⟨_, A.erase b, F', rfl, ⟨hShape, hNone, fun c hc => ?_, fun ptr' r hIn hLow hHigh => ?_, hNodup⟩, hSame⟩
    · obtain ⟨hNe, hcA⟩ := mem_erase.mp hc
      obtain ⟨r, hr⟩ := h.owner c hcA
      refine ⟨r, mem_filter_live.mpr ⟨hr, fun hEq => hNe ?_⟩⟩
      exact h.shape.tiles.eq_of_start (mem_union_left F hb) (mem_union_left F hcA) (ptrOf_injective hEq)
    · obtain ⟨hIn, hNe⟩ := mem_filter_live.mp hIn
      obtain ⟨c, hc, rfl, hLarge⟩ := h.live ptr' r hIn hLow (hSame ▸ hHigh)
      exact ⟨c, mem_erase.mpr ⟨fun hEq => hNe (hEq ▸ rfl), hc⟩, rfl, hLarge⟩

/-- A word inside a buffer is no header. -/
theorem Shape.write {p : Pool} (h : Shape p used A F) (hb : b ∈ A) {address : Nat} (hLow : b.start < address)
    (hHigh : address < b.stop) (value : Nat) :
    Shape { p with word := update p.word address value } used A F := by
  have hFrame (c : Block) (hc : c ∈ A ∪ F) : update p.word address value c.start = p.word c.start := by
    refine update_of_ne (fun hEq => ?_) _ _
    by_cases hSame : c = b
    · subst hSame
      omega
    · exact h.start_ne hc (mem_union_left F hb) hSame ⟨hLow.le, hHigh⟩ hEq
  exact ⟨h.tiles, h.disjoint, h.exps, fun c hc => (hFrame c (mem_union_left F hc)).trans (h.inUse c hc),
    fun c hc => (hFrame c (mem_union_right A hc)).trans (h.free c hc), h.listed, h.reserved, h.inPool, h.small,
    h.edge⟩

/-- What a caller writes into its own buffer leaves the headers as they are. -/
theorem State.Valid.write (h : s.Valid used A F) {ptr : Int} {address value : Nat}
    (hPtr : ptr ∈ s.live.map Prod.fst) (hInside : s.pool.Inside ptr address) :
    State.Valid ⟨{ s.pool with word := update s.pool.word address value }, s.live⟩ used A F := by
  obtain ⟨⟨ptr, size⟩, hLive, rfl⟩ := List.mem_map.mp hPtr
  obtain ⟨hLow, hHigh, hFirst, hLast⟩ := hInside
  obtain ⟨b, hb, rfl, -⟩ := h.live ptr size hLive hLow hHigh
  have hArea : (ptrOf b).toNat - memAreaExtraSize = b.start := by
    simp only [ptrOf, Int.toNat_natCast, Nat.add_sub_cancel]
  rw [hArea, h.shape.getSize (mem_union_left F hb)] at hLast
  simp only [ptrOf, memAreaExtraSize] at hFirst
  exact ⟨h.shape.write hb (by omega) hLast value, h.noBuddies, h.owner, h.live, h.nodup⟩

/-- The areas stay valid in every run. -/
theorem valid_of_run {pool : Pool} (hShape : Shape pool used ∅ F) (hNone : NoBuddies F)
    (run : system.Run (fun s call => call.Fits used s) ⟨pool, []⟩ s) : ∃ A F, s.Valid used A F ∧ s.pool.size = pool.size := by
  refine run.invariant (fun s => ∃ A F, s.Valid used A F ∧ s.pool.size = pool.size)
    ⟨∅, F, ⟨hShape, hNone, fun b hb => absurd hb (notMem_empty b), fun _ _ hIn => absurd hIn List.not_mem_nil,
      List.nodup_nil⟩, rfl⟩ ?_
  rintro a call t ⟨A, F, ha, hSame⟩ hFits hStep
  cases call with
  | alloc size os =>
    obtain ⟨A', F', ht, hSame'⟩ := (ha.alloc hFits os).2 t hStep
    exact ⟨A', F', ht, hSame'.trans hSame⟩
  | free ptr =>
    by_cases hPtr : ptr ∈ a.live.map Prod.fst
    · obtain ⟨t', A', F', hStep', ht, hSame'⟩ := ha.free hPtr hFits
      obtain rfl := some.inj (hStep'.symm.trans hStep)
      exact ⟨A', F', ht, hSame'.trans hSame⟩
    · simp only [system, if_neg hPtr] at hStep
      cases hStep
  | write ptr address value =>
    by_cases hInside : ptr ∈ a.live.map Prod.fst ∧ a.pool.Inside ptr address
    · simp only [system, if_pos hInside] at hStep
      obtain rfl := some.inj hStep
      exact ⟨A, F, ha.write hInside.1 hInside.2, hSame⟩
    · simp only [system, if_neg hInside] at hStep
      cases hStep

/-- What holds of the areas `A` in use and the free areas `F`, when `pool` is the pool as it
was created and its areas take `used` bytes. -/
structure Sound (pool : Pool) (used : Nat) (s : State) (A F : Finset Block) : Prop where
  tiles : Tiles (A ∪ F) used
  disjoint : Disjoint A F
  size : ∀ b ∈ A ∪ F, memAreaGetSize (s.pool.word b.start) = 2 ^ b.exp
  marked : ∀ b ∈ A ∪ F, memAreaGetFree (s.pool.word b.start) = true ↔ b ∈ F
  listed : ∀ n area, area ∈ s.pool.freeList n ↔ ⟨area, n⟩ ∈ F
  once : ∀ n, (s.pool.freeList n).Nodup
  noBuddies : ∀ b ∈ F, b.buddy ∉ F
  reserved : s.pool.reserved = ∑ b ∈ A, 2 ^ b.exp
  owner : ∀ b ∈ A, ∃ size, (((b.start + memAreaExtraSize : Nat) : Int), size) ∈ s.live
  live : ∀ ptr size, (ptr, size) ∈ s.live → 0 ≤ ptr → ptr < s.pool.size →
    ∃ b ∈ A, ptr = ((b.start + memAreaExtraSize : Nat) : Int) ∧ size + memAreaExtraSize ≤ 2 ^ b.exp
  restored : (∀ e ∈ s.live, e.1 < 0 ∨ (s.pool.size : Int) ≤ e.1) →
    ∀ n area, area ∈ s.pool.freeList n ↔ area ∈ pool.freeList n

theorem State.Valid.sound {pool : Pool} {F₀ : Finset Block} (hShape : Shape pool used ∅ F₀) (hNone : NoBuddies F₀)
    (h : s.Valid used A F) : Sound pool used s A F where
  tiles := h.shape.tiles
  disjoint := h.shape.disjoint
  size := fun _ hb => h.shape.getSize hb
  marked := fun _ hb => h.shape.getFree hb
  listed := h.shape.listed.mem
  once := h.shape.listed.nodup
  noBuddies := h.noBuddies
  reserved := h.shape.reserved
  owner := h.owner
  live := h.live
  restored := fun hNoneLive n area => by
    have hEmpty : A = ∅ := eq_empty_of_forall_notMem fun b hb => by
      obtain ⟨r, hr⟩ := h.owner b hb
      have hInside := h.shape.ptr_inside (mem_union_left F hb)
      have hOut := hNoneLive _ hr
      omega
    have hTiles := h.shape.tiles
    have hTiles₀ := hShape.tiles
    rw [hEmpty, empty_union] at hTiles
    rw [empty_union] at hTiles₀
    rw [h.shape.listed.mem, hShape.listed.mem, hTiles.eq_of_noBuddies hTiles₀ h.noBuddies hNone]

/-- The buddy allocator, for a pool of less than two gigabytes and calls that fit: in every run the areas
are sound, and an `alloc` or `free` returns. -/
theorem memPool_sound (word : Nat → Nat) (size : Nat) (hMin : 10000 < size) (hMax : size < 2 ^ 31) :
    ∃ used pool, memPoolCreate word size = some (used, pool) ∧ pool.size = size ∧
      used ≤ size ∧ size < used + memAreaMinSize ∧
      ∀ s, system.Run (fun s call => call.Fits used s) ⟨pool, []⟩ s → (∃ A F, Sound pool used s A F) ∧
        (∀ request os, Call.Fits used s (.alloc request os) → (os < 0 ∨ (s.pool.size : Int) ≤ os) →
          os ∉ s.live.map Prod.fst → (system.step s (.alloc request os)).isSome) ∧
        ∀ ptr ∈ s.live.map Prod.fst, Call.Fits used s (.free ptr) → (system.step s (.free ptr)).isSome := by
  obtain ⟨used, pool, F₀, hCreate, hSize, hRest, hShape, hNone⟩ := memPoolCreate_spec word hMin hMax
  refine ⟨used, pool, hCreate, hSize, hSize ▸ hShape.inPool, hRest, fun s run => ?_⟩
  obtain ⟨A, F, hValid, hSame⟩ := valid_of_run hShape hNone run
  refine ⟨⟨A, F, hValid.sound hShape hNone⟩, fun request os hRequest hOut hNew => ?_, fun ptr hPtr hFits => ?_⟩
  · exact (hValid.alloc hRequest os).1 hOut hNew
  · obtain ⟨t, -, -, hStep, -⟩ := hValid.free hPtr hFits
    rw [hStep]
    rfl

/-- Two buffers in a pool that is no power of two, and the larger of them freed. -/
theorem memPool_sound_two_buffers :
    ∃ used pool s A F, memPoolCreate (fun _ => 0) 20000 = some (used, pool) ∧
      system.Run (fun s call => call.Fits used s) ⟨pool, []⟩ s ∧ s.pool.reserved = 128 ∧ Sound pool used s A F := by
  obtain ⟨used, pool, hCreate, -, -, -, hRuns⟩ := memPool_sound (fun _ => 0) 20000 (by decide) (by decide)
  have hExec : ((memPoolCreate (fun _ => 0) 20000).bind fun r =>
      ((system.checked fun s call => call.Fits r.1 s).exec ⟨r.2, []⟩ [.alloc 100 (-1), .alloc 3000 (-1), .free 24]).map
        fun s => s.pool.reserved) = some 128 := by
    decide +kernel
  rw [hCreate, bind_some] at hExec
  obtain ⟨s, hRun, hReserved⟩ := map_eq_some_iff.mp hExec
  have run := System.run_of_exec_checked hRun
  obtain ⟨⟨A, F, hSound⟩, -⟩ := hRuns s run
  exact ⟨used, pool, s, A, F, hCreate, run, hReserved, hSound⟩

/-- With two gigabytes the shift of an `int` overflows: two free areas of a gigabyte each are buddies.
And of 20000 bytes the last 32 are no area: when the buffer before them is freed, they are taken for one. -/
theorem memPool_two_gigabytes :
    (∃ used pool, memPoolCreate (fun _ => 0) (2 ^ 31) = some (used, pool) ∧ pool.freeList 30 = [2 ^ 30, 0] ∧
      memAreaGetBuddy 0 (2 ^ 30) pool = some (2 ^ 30) ∧
      memAreaGetFree (pool.word 0) = true ∧ memAreaGetFree (pool.word (2 ^ 30)) = true ∧
      memAreaGetSize (pool.word 0) = 2 ^ 30 ∧ memAreaGetSize (pool.word (2 ^ 30)) = 2 ^ 30) ∧
    ∃ used pool s, memPoolCreate (fun _ => 0) 20000 = some (used, pool) ∧
      system.step ⟨pool, []⟩ (.alloc 100 (-1)) = some s ∧ 19480 ∈ s.live.map Prod.fst ∧
      system.step s (.free 19480) = none := by
  constructor
  · have hEval : (memPoolCreate (fun _ => 0) (2 ^ 31)).map (fun r => (r.2.freeList 30, memAreaGetBuddy 0 (2 ^ 30) r.2,
        memAreaGetFree (r.2.word 0), memAreaGetFree (r.2.word (2 ^ 30)), memAreaGetSize (r.2.word 0),
        memAreaGetSize (r.2.word (2 ^ 30)))) =
          some ([2 ^ 30, 0], some (2 ^ 30), true, true, 2 ^ 30, 2 ^ 30) := by
      decide +kernel
    obtain ⟨⟨used, pool⟩, hCreate, hData⟩ := map_eq_some_iff.mp hEval
    simp only [Prod.mk.injEq] at hData
    exact ⟨used, pool, hCreate, hData⟩
  · have hEval : (memPoolCreate (fun _ => 0) 20000).bind (fun r =>
        (system.step ⟨r.2, []⟩ (.alloc 100 (-1))).map fun s =>
          (decide (19480 ∈ s.live.map Prod.fst), (system.step s (.free 19480)).isSome)) = some (true, false) := by
      decide +kernel
    obtain ⟨⟨used, pool⟩, hCreate, hRest⟩ := bind_eq_some_iff.mp hEval
    obtain ⟨s, hAlloc, hData⟩ := map_eq_some_iff.mp hRest
    obtain ⟨hLive, hFree⟩ := Prod.mk.inj hData
    exact ⟨used, pool, s, hCreate, hAlloc, of_decide_eq_true hLive, isSome_eq_false_iff.mp hFree |> isNone_iff_eq_none.mp⟩

end MySQL.Innobase.Mem
