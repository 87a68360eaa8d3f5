import MySQL.Library.System

/-! The buddy allocator of `mem/mem0pool.c`. Addresses are counted from `pool->buf`; an
area is given by the address of its header. -/
namespace MySQL.Innobase.Mem

open Library Function

/-- `MEM_AREA_EXTRA_SIZE`, the size of a header -/
def memAreaExtraSize : Nat := 24

def memAreaMinSize : Nat := 2 * memAreaExtraSize

/-- The loop of `ut_2_log`; a word is 0 after 64 halvings. -/
def ut2LogLoop : (fuel n res : Nat) → Nat
  | 0, _, res => res
  | fuel + 1, n, res => if n / 2 = 0 then res else ut2LogLoop fuel (n / 2) (res + 1)

/-- `ut_2_log`: the logarithm, rounded upward -/
def ut2Log (n : Nat) : Nat := ut2LogLoop 64 (n - 1) 0 + 1

/-- `ut_2_exp`. The shift is one of an `int`: the machine takes five bits of the distance, and
the sign is extended when the result becomes a word of 64 bits. -/
def ut2Exp (n : Nat) : Nat :=
  if n % 32 = 31 then 2 ^ 64 - 2 ^ 31 else 2 ^ (n % 32)

/-- The loop of `ut_2_power_up`; in the source it does not end for a number above `2 ^ 63`. -/
def ut2PowerUpLoop : (fuel n res : Nat) → Nat
  | 0, _, res => res
  | fuel + 1, n, res => if res < n then ut2PowerUpLoop fuel n (res * 2) else res

def ut2PowerUp (n : Nat) : Nat := ut2PowerUpLoop 64 n 1

/-- `mem_area_get_size` of a header's `size_and_free` -/
def memAreaGetSize (sizeAndFree : Nat) : Nat := sizeAndFree / 2 * 2

/-- The lowest bit of the word says whether the area is free, the others are its size. -/
def memAreaSetSize (sizeAndFree size : Nat) : Nat := sizeAndFree % 2 ||| size

def memAreaGetFree (sizeAndFree : Nat) : Bool := sizeAndFree % 2 = 1

def memAreaSetFree (sizeAndFree : Nat) (free : Bool) : Nat := sizeAndFree / 2 * 2 ||| free.toNat

/-- `mem_pool_t`; `word` has the words of the memory from `buf` on, read at any address. -/
structure Pool where
  size : Nat
  reserved : Nat
  word : Nat → Nat
  freeList : Nat → List Nat

namespace Pool

def setSize (p : Pool) (area size : Nat) : Pool :=
  { p with word := update p.word area (memAreaSetSize (p.word area) size) }

def setFree (p : Pool) (area : Nat) (free : Bool) : Pool :=
  { p with word := update p.word area (memAreaSetFree (p.word area) free) }

def addFirst (p : Pool) (n area : Nat) : Pool :=
  { p with freeList := update p.freeList n (area :: p.freeList n) }

def remove (p : Pool) (n area : Nat) : Pool :=
  { p with freeList := update p.freeList n ((p.freeList n).erase area) }

end Pool

/-- A new pool is cut into the largest powers of two that fit. -/
def createLoop : (fuel used : Nat) → Pool → Option (Nat × Pool)
  | 0, _, _ => none
  | fuel + 1, used, p =>
    if memAreaMinSize ≤ p.size - used then
      let i := if p.size - used < ut2Exp (ut2Log (p.size - used)) then ut2Log (p.size - used) - 1
        else ut2Log (p.size - used)
      createLoop fuel (used + ut2Exp i)
        (((p.setSize used (ut2Exp i)).setFree used true).addFirst i used)
    else some (used, p)

/-- `mem_pool_create`, in memory that holds `word`; the answer is the number of bytes that
the areas take, and the pool. -/
def memPoolCreate (word : Nat → Nat) (size : Nat) : Option (Nat × Pool) :=
  if 10000 < size then createLoop 64 0 ⟨size, 0, word, fun _ => []⟩ else none

/-- An area is divided into two buddies of half its size. -/
def splitArea (i area : Nat) (p : Pool) : Pool :=
  let p := p.remove (i + 1) area
  let area2 := area + ut2Exp i
  let p := ((p.setSize area2 (ut2Exp i)).setFree area2 true).addFirst i area2
  (p.setSize area (ut2Exp i)).addFirst i area

/-- `mem_pool_fill_free_list`. The answer is none where the source calls `ut_error`. -/
def memPoolFillFreeList : (fuel i : Nat) → Pool → Option (Bool × Pool)
  | 0, _, _ => none
  | fuel + 1, i, p =>
    if 63 ≤ i then some (false, p)
    else
      match p.freeList (i + 1) with
      | area :: _ => some (true, splitArea i area p)
      | [] =>
        match memPoolFillFreeList fuel (i + 1) p with
        | none => none
        | some (false, p) => some (false, p)
        | some (true, p) =>
          match p.freeList (i + 1) with
          | area :: _ => some (true, splitArea i area p)
          | [] => none

def takeArea (n area : Nat) (p : Pool) : Option (Option Nat × Pool) :=
  if memAreaGetFree (p.word area) then
    let p := (p.setFree area false).remove n area
    some (some (area + memAreaExtraSize), { p with reserved := p.reserved + memAreaGetSize (p.word area) })
  else none

/-- `mem_area_alloc`. The answer has no address where the source asks `ut_malloc`, and there
is no answer where it calls `ut_error` or leaves the array of free lists. -/
def memAreaAlloc (size : Nat) (p : Pool) : Option (Option Nat × Pool) :=
  let n := ut2Log (max ((size + memAreaExtraSize) % 2 ^ 64) memAreaMinSize)
  if 64 ≤ n then none
  else
    match p.freeList n with
    | area :: _ => takeArea n area p
    | [] =>
      match memPoolFillFreeList 64 n p with
      | none => none
      | some (false, p) => some (none, p)
      | some (true, p) =>
        match p.freeList n with
        | area :: _ => takeArea n area p
        | [] => none

/-- The buddy that would lie behind the end of the pool does not exist. -/
def memAreaGetBuddy (area size : Nat) (p : Pool) : Option Nat :=
  if area % (2 * size) = 0 then if p.size < area + size + size then none else some (area + size)
  else some (area - size)

/-- The branch of `mem_area_free` for a buddy in a free list: the area that is freed next, and
the pool. -/
def joinBuddy (n size area buddy : Nat) (p : Pool) : Nat × Pool :=
  let joined :=
    if buddy < area then (p.setSize buddy (2 * size)).setFree buddy false else p.setSize area (2 * size)
  (if buddy < area then buddy else area,
    { joined.remove n buddy with reserved := p.reserved + ut2Exp n })

def releaseArea (n size area : Nat) (p : Pool) : Pool :=
  { (p.addFirst n area).setFree area true with reserved := p.reserved - size }

/-- The buddy is free and as large as the area. -/
def joinable (area size : Nat) (p : Pool) : Option Nat :=
  (memAreaGetBuddy area size p).filter fun buddy =>
    memAreaGetFree (p.word buddy) ∧ size = memAreaGetSize (p.word buddy)

/-- The check for an overrun of the buffer that is freed: what stands behind its area is read as the
header of another one. -/
def nextPasses (area size : Nat) (p : Pool) : Bool :=
  p.size ≤ area + size ∨
    ut2PowerUp (memAreaGetSize (p.word (area + size))) = memAreaGetSize (p.word (area + size))

/-- The body of `mem_area_free`: it returns with a pool, or calls itself with a pointer. There is
no answer where the source calls `ut_error`. -/
def memAreaFreeBody (ptr : Int) (p : Pool) : Option (Pool ⊕ Int × Pool) :=
  if ptr < 0 ∨ (p.size : Int) ≤ ptr then some (.inl p)
  else
    let area := ptr.toNat - memAreaExtraSize
    let size := memAreaGetSize (p.word area)
    if memAreaGetFree (p.word area) ∨ size = 0 then none
    else if nextPasses area size p = false then none
    else
      match joinable area size p with
      | some buddy =>
        let (next, p) := joinBuddy (ut2Log size) size area buddy p
        some (.inr (((next + memAreaExtraSize : Nat) : Int), p))
      | none => some (.inl (releaseArea (ut2Log size) size area p))

/-- Buddies are joined as long as both are free. -/
def memAreaFree : (fuel : Nat) → (ptr : Int) → Pool → Option Pool
  | 0, _, _ => none
  | fuel + 1, ptr, p =>
    match memAreaFreeBody ptr p with
    | none => none
    | some (.inl p) => some p
    | some (.inr (ptr, p)) => memAreaFree fuel ptr p

structure State where
  pool : Pool
  live : List (Int × Nat)

/-- What a client does: `alloc` a buffer, where `os` is what `ut_malloc` would answer; `free`
a buffer; `write` a word into a buffer. -/
inductive Call where
  | alloc (size : Nat) (os : Int)
  | free (ptr : Int)
  | write (ptr : Int) (address value : Nat)

def Pool.Inside (p : Pool) (ptr : Int) (address : Nat) : Prop :=
  0 ≤ ptr ∧ ptr < p.size ∧ ptr ≤ address ∧
    address < ptr.toNat - memAreaExtraSize + memAreaGetSize (p.word (ptr.toNat - memAreaExtraSize))

instance (p : Pool) (ptr : Int) (address : Nat) : Decidable (p.Inside ptr address) :=
  inferInstanceAs (Decidable (_ ∧ _ ∧ _ ∧ _))

def system : System State Call where
  step s
    | .alloc size os =>
      match memAreaAlloc size s.pool with
      | none => none
      | some (some ptr, p) => some ⟨p, ((ptr : Int), size) :: s.live⟩
      | some (none, p) =>
        if (os < 0 ∨ (p.size : Int) ≤ os) ∧ os ∉ s.live.map Prod.fst then some ⟨p, (os, size) :: s.live⟩
        else none
    | .free ptr =>
      if ptr ∈ s.live.map Prod.fst then
        (memAreaFree 64 ptr s.pool).map fun p => ⟨p, s.live.filter fun e => e.1 ≠ ptr⟩
      else none
    | .write ptr address value =>
      if ptr ∈ s.live.map Prod.fst ∧ s.pool.Inside ptr address then
        some { s with pool := { s.pool with word := update s.pool.word address value } }
      else none

end MySQL.Innobase.Mem
