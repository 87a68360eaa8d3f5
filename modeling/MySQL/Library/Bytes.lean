import Mathlib

/-! Memory as a function from addresses: ranges are loaded and stored as lists. Numbers
are stored with the least byte first. -/
namespace Library
open List Nat

universe u
variable {α : Type u}

def load (mem : Nat → α) (pos length : Nat) : List α := (List.range length).map fun i => mem (pos + i)

def store (mem : Nat → α) (pos : Nat) (data : List α) (i : Nat) : α :=
  if i < pos then mem i else data.getD (i - pos) (mem i)

section
variable (mem : Nat → α) (pos : Nat) (data : List α)

@[simp] theorem length_load (length : Nat) : (load mem pos length).length = length := by
  simp [load]

theorem load_add (m n : Nat) : load mem pos (m + n) = load mem pos m ++ load mem (pos + m) n := by
  simp [load, range_add, Nat.add_assoc, Function.comp_def]

theorem load_zero : load mem pos 0 = [] := rfl

theorem load_one : load mem pos 1 = [mem pos] := rfl

variable {mem pos data}

theorem load_congr {mem' : Nat → α} {length : Nat} (h : ∀ i < length, mem' (pos + i) = mem (pos + i)) :
    load mem' pos length = load mem pos length :=
  map_congr_left fun i hi => h i (mem_range.mp hi)

/-- Memory that agrees up to `n` agrees on every range before `n`. -/
theorem load_of_load {mem' : Nat → α} {n p length : Nat} (h : load mem' 0 n = load mem 0 n)
    (hLe : p + length ≤ n) : load mem' p length = load mem p length := by
  refine load_congr fun i hi => ?_
  have hAt : (load mem' 0 n)[p + i]? = (load mem 0 n)[p + i]? := by rw [h]
  have hLt : p + i < n := by omega
  simpa [load, getElem?_map, getElem?_range hLt] using hAt

theorem store_of_lt {i : Nat} (h : i < pos) : store mem pos data i = mem i := if_pos h

theorem store_of_ge {i : Nat} (h : pos + data.length ≤ i) : store mem pos data i = mem i := by
  rw [store, if_neg (by omega), getD_eq_default]
  omega

theorem store_add {i : Nat} (h : i < data.length) : store mem pos data (pos + i) = data.get ⟨i, h⟩ := by
  rw [store, if_neg (by omega), Nat.add_sub_cancel_left, getD_eq_getElem _ _ h]
  rfl

theorem load_store : load (store mem pos data) pos data.length = data := by
  refine ext_get (by simp) fun i h _ => ?_
  simp only [load, get_eq_getElem, getElem_map, getElem_range]
  rw [length_load] at h
  exact store_add h

theorem load_store_of_length {n : Nat} (h : data.length = n) : load (store mem pos data) pos n = data := by
  rw [← h]
  exact load_store

theorem load_store_of_le {p n : Nat} (h : p + n ≤ pos) :
    load (store mem pos data) p n = load mem p n :=
  load_congr fun i hi => store_of_lt (by omega)

theorem load_store_of_ge {p n : Nat} (h : pos + data.length ≤ p) :
    load (store mem pos data) p n = load mem p n :=
  load_congr fun i hi => store_of_ge (by omega)

/-- The first part of what was stored. -/
theorem load_store_append {front back : List α} :
    load (store mem pos (front ++ back)) pos front.length = front := by
  have h : load (store mem pos (front ++ back)) pos (front.length + back.length) = front ++ back := by
    rw [← length_append, load_store]
  rw [load_add] at h
  exact (append_inj h (by simp)).1

theorem store_nil : store mem pos [] = mem := by
  funext i
  rw [store]
  split <;> rfl

theorem store_append {front back : List α} :
    store (store mem pos front) (pos + front.length) back = store mem pos (front ++ back) := by
  funext i
  rcases Nat.lt_or_ge i _ with hFront | hBack
  · rw [store_of_lt hFront]
    rcases Nat.lt_or_ge i pos with hLess | hMore
    · rw [store_of_lt hLess, store_of_lt hLess]
    · rw [store, store, if_neg (by omega), if_neg (by omega), getD_append _ _ _ _ (by omega)]
  · rw [store, if_neg (by omega), store_of_ge hBack, store, if_neg (by omega),
      getD_append_right _ _ _ _ (by omega), sub_add_eq]

/-- What stands before a stored list is still there. -/
theorem load_store_before {n : Nat} :
    load (store mem (pos + n) data) pos (n + data.length) = load mem pos n ++ data := by
  rw [load_add, load_store_of_le (by omega), load_store]

/-- One cell is stored at the start of a range. -/
theorem load_store_one {x : α} (n : Nat) : load (store mem pos [x]) pos n = (load mem pos n).set 0 x := by
  cases n with
  | zero => rfl
  | succ n =>
    have hCell : load (store mem pos [x]) pos 1 = [x] := load_store
    have hBehind : load (store mem pos [x]) (pos + 1) n = load mem (pos + 1) n :=
      load_store_of_ge (Nat.le_refl _)
    rw [Nat.add_comm, load_add, load_add, hCell, hBehind, load_one]
    rfl

/-- A cell that was overwritten is restored. -/
theorem load_store_restore {x : α} (n : Nat) :
    load (store (store mem pos [x]) pos [mem pos]) pos n = load mem pos n := by
  rw [load_store_one, load_store_one, set_set]
  cases n with
  | zero => rfl
  | succ n =>
    rw [Nat.add_comm, load_add, load_one]
    rfl

/-- The first part of a range that was moved. -/
theorem load_store_load {n m p : Nat} (h : n ≤ m) :
    load (store mem pos (load mem p m)) pos n = load mem p n := by
  have hStore : load (store mem pos (load mem p n ++ load mem (p + n) (m - n))) pos
      (load mem p n).length = load mem p n := load_store_append
  rwa [← load_add, length_load, Nat.add_sub_cancel' h] at hStore

/-- A range of what was moved from `first` to the start. -/
theorem load_moved (mem : Nat → α) {first total : Nat} (pos length : Nat) (hFirst : first ≤ pos)
    (hTotal : pos + length ≤ first + total) :
    load (store mem 0 (load mem first total)) (pos - first) length = load mem pos length := by
  refine map_congr_left fun i hi => ?_
  rw [mem_range] at hi
  have hLt : pos - first + i < (load mem first total).length := by
    rw [length_load]
    omega
  have hAt : store mem 0 (load mem first total) (0 + (pos - first + i)) = _ := store_add hLt
  rw [Nat.zero_add] at hAt
  rw [hAt]
  simp only [load, get_eq_getElem, getElem_map, getElem_range]
  congr 1
  omega

end

def lowBytes : (width n : Nat) → List UInt8
  | 0, _ => []
  | width + 1, n => UInt8.ofNat n :: lowBytes width (n / 256)

def ofLowBytes : List UInt8 → Nat
  | [] => 0
  | byte :: bytes => byte.toNat + 256 * ofLowBytes bytes

@[simp] theorem length_lowBytes (width n : Nat) : (lowBytes width n).length = width := by
  induction width generalizing n with
  | zero => rfl
  | succ width ih => simp [lowBytes, ih]

theorem ofLowBytes_lowBytes {width n : Nat} (h : n < 256 ^ width) : ofLowBytes (lowBytes width n) = n := by
  induction width generalizing n with
  | zero =>
    rw [Nat.pow_zero] at h
    rw [lowBytes, ofLowBytes]
    omega
  | succ width ih =>
    rw [Nat.pow_succ] at h
    rw [lowBytes, ofLowBytes, ih (Nat.div_lt_of_lt_mul (by omega)), UInt8.toNat_ofNat']
    omega

end Library
