import Mathlib

/-! The substring search of multi-byte character sets (ctype-mb.c). It steps over characters, but
takes their lengths from the bytes in front of the last place where a match may begin. -/
namespace MySQL.Ctype
open List

/-- A character set with characters of up to three bytes, and a collation of it. `ismbchar` gets
the bytes up to `end` and returns the length of the multi-byte character that they begin with,
or 0. -/
structure MbCharset where
  ismbchar : List UInt8 → Nat
  strnncoll : List UInt8 → List UInt8 → BitVec 32
  same : ∀ bytes, strnncoll bytes bytes = 0
  inside : ∀ bytes, ismbchar bytes ≤ min 3 bytes.length
  determined : ∀ bytes more, ismbchar bytes ≠ 0 →
    ismbchar (bytes.take (ismbchar bytes) ++ more) = ismbchar bytes

structure MyMatch where
  beg : Nat
  end_ : Nat
  mblen : Nat
  deriving DecidableEq

namespace MbCharset
variable (cs : MbCharset)

def charLength (bytes : List UInt8) : Nat := if cs.ismbchar bytes = 0 then 1 else cs.ismbchar bytes

theorem charLength_pos (bytes : List UInt8) : 0 < cs.charLength bytes := by
  unfold charLength
  split <;> omega

/-- The loop, `room` bytes in front of `end`: the place of a match in bytes and in characters. -/
def instrLoop (s b : List UInt8) (room offset res : Nat) : Option (Nat × Nat) :=
  if room = 0 then none
  else if cs.strnncoll (b.take s.length) s = 0 then some (offset, res)
  else
    let mblen := cs.charLength (b.take room)
    instrLoop s (b.drop mblen) (room - mblen) (offset + mblen) (res + 1)
termination_by room
decreasing_by
  have := cs.charLength_pos (b.take room)
  omega

def myInstrMb (b s : List UInt8) (nmatch : Nat) : Nat × List MyMatch :=
  if s.length ≤ b.length then
    if s.length = 0 then (1, [⟨0, 0, 0⟩].take nmatch)
    else
      match cs.instrLoop s b (b.length - s.length + 1) 0 0 with
      | some (offset, res) => (2, [⟨0, offset, res⟩, ⟨offset, offset + s.length, 0⟩].take nmatch)
      | none => (0, [])
  else (0, [])

def boundary (b : List UInt8) : Nat → Nat
  | 0 => 0
  | k + 1 => boundary b k + cs.charLength (b.drop (boundary b k))

/-- At the `k`-th character begins a substring that compares equal to `s`. -/
def MatchesAt (b s : List UInt8) (k : Nat) : Prop :=
  cs.boundary b k + s.length ≤ b.length ∧
    cs.strnncoll ((b.drop (cs.boundary b k)).take s.length) s = 0

/-- The answer is 2 exactly if some character begins a match, and then the first one is reported. -/
structure FindsFirst (b s : List UInt8) (nmatch : Nat) : Prop where
  found : (cs.myInstrMb b s nmatch).1 = 2 ↔ ∃ k, cs.MatchesAt b s k
  first : ∀ k, cs.MatchesAt b s k → (∀ i < k, ¬ cs.MatchesAt b s i) →
    (cs.myInstrMb b s nmatch).2 =
      [⟨0, cs.boundary b k, k⟩, ⟨cs.boundary b k, cs.boundary b k + s.length, 0⟩].take nmatch

/-- If a character of three bytes begins in front of the last place where a match may begin and has
`s` behind its first byte, then `s` is found before. -/
def EndsClear (b s : List UInt8) : Prop :=
  ∀ k, cs.boundary b k + s.length + 1 = b.length → cs.ismbchar (b.drop (cs.boundary b k)) = 3 →
    cs.strnncoll ((b.drop (cs.boundary b k + 1)).take s.length) s = 0 → ∃ i ≤ k, cs.MatchesAt b s i

theorem boundary_mono (b : List UInt8) : Monotone (cs.boundary b) :=
  monotone_nat_of_le_succ fun _ => Nat.le_add_right _ _

/-- A shorter view cuts a character off, or finds it as it is. -/
theorem charLength_take (b : List UInt8) (room : Nat) : cs.charLength (b.take room) = cs.charLength b ∨
    cs.charLength (b.take room) = 1 ∧ room < cs.ismbchar b := by
  have hTake := cs.inside (b.take room)
  rw [length_take] at hTake
  by_cases hShort : cs.ismbchar (b.take room) = 0
  · by_cases hLong : cs.ismbchar b = 0
    · simp [charLength, hShort, hLong]
    · refine .inr ⟨by simp [charLength, hShort], ?_⟩
      by_contra hRoom
      have hSame := cs.determined b ((b.take room).drop (cs.ismbchar b)) hLong
      have hFirst : b.take (cs.ismbchar b) = (b.take room).take (cs.ismbchar b) := by
        rw [take_take, min_eq_left (by omega)]
      rw [hFirst, take_append_drop] at hSame
      omega
  · have hSame := cs.determined _ (b.drop (cs.ismbchar (b.take room))) hShort
    rw [take_take, min_eq_left (by omega), take_append_drop] at hSame
    simp [charLength, hSame]

structure Finds (b s : List UInt8) (k : Nat) (found : Option (Nat × Nat)) : Prop where
  here : ∀ offset j, found = some (offset, j) → offset = cs.boundary b j ∧ cs.MatchesAt b s j
  before : ∀ i, k ≤ i → (∀ offset j, found = some (offset, j) → i < j) → ¬ cs.MatchesAt b s i

variable {cs} {b s : List UInt8} {k : Nat}

theorem Finds.back {found : Option (Nat × Nat)} (h : cs.Finds b s (k + 1) found)
    (hHere : ¬ cs.MatchesAt b s k) : cs.Finds b s k found := by
  refine ⟨h.here, fun i hi hBefore => ?_⟩
  rcases Nat.eq_or_lt_of_le hi with rfl | hLess
  · exact hHere
  · exact h.before i hLess hBefore

/-- Where the string is too short, nothing begins any more. -/
theorem finds_none (h : b.length < cs.boundary b k + s.length) : cs.Finds b s k none := by
  refine ⟨nofun, fun i hi _ hMatch => ?_⟩
  have hLe := cs.boundary_mono b hi
  have hFits := hMatch.1
  omega

/-- The loop goes from character to character and stops at the first match. -/
theorem instrLoop_finds (hClear : cs.EndsClear b s) {room : Nat}
    (hRoom : room = b.length + 1 - s.length - cs.boundary b k) (hBefore : ∀ i < k, ¬ cs.MatchesAt b s i) :
    cs.Finds b s k (cs.instrLoop s (b.drop (cs.boundary b k)) room (cs.boundary b k) k) := by
  induction room using Nat.strong_induction_on generalizing k with
  | _ room ih =>
    rw [instrLoop]
    split_ifs with hZero hEqual
    · exact finds_none (by omega)
    · exact ⟨fun | _, _, rfl => ⟨rfl, by omega, hEqual⟩,
        fun i hi hBefore => absurd hi (Nat.not_le.mpr (hBefore _ _ rfl))⟩
    · have hHere : ¬ cs.MatchesAt b s k := fun hMatch => hEqual hMatch.2
      have hUpTo : ∀ i < k + 1, ¬ cs.MatchesAt b s i := fun i hi =>
        (Nat.lt_succ_iff_lt_or_eq.mp hi).elim (hBefore i) fun hSame => hSame ▸ hHere
      refine Finds.back ?_ hHere
      have hNext : cs.boundary b (k + 1) =
        cs.boundary b k + cs.charLength (b.drop (cs.boundary b k)) := rfl
      rcases cs.charLength_take (b.drop (cs.boundary b k)) room with hSame | ⟨hOne, hCut⟩
      · have hPos := cs.charLength_pos (b.drop (cs.boundary b k))
        have hRest := ih (room - cs.charLength (b.drop (cs.boundary b k))) (by omega) (k := k + 1)
          (by omega) hUpTo
        simpa only [hSame, drop_drop, hNext] using hRest
      · -- the character reaches beyond `end`, which is one or two bytes away
        have hInside := cs.inside (b.drop (cs.boundary b k))
        have hShort : cs.Finds b s (k + 1) none := by
          refine finds_none ?_
          rw [hNext, charLength, if_neg (by omega)]
          omega
        rw [hOne, instrLoop, drop_drop]
        split_ifs with hEnd hFalse
        · exact hShort
        · obtain ⟨i, hi, hMatch⟩ := hClear k (by omega) (by omega) hFalse
          exact absurd hMatch (hUpTo i (by omega))
        · have hPos := cs.charLength_pos ((b.drop (cs.boundary b k + 1)).take (room - 1))
          rw [instrLoop, if_pos (by omega)]
          exact hShort

/-- The loop comes to a character that leaves room for the ones before it. -/
theorem instrLoop_reaches {n : Nat} (hBefore : ∀ i < n, ¬ cs.MatchesAt b s i)
    (hFits : cs.boundary b n + s.length < b.length) (hk : k ≤ n) :
    cs.instrLoop s b (b.length - s.length + 1) 0 0 = cs.instrLoop s (b.drop (cs.boundary b k))
      (b.length + 1 - s.length - cs.boundary b k) (cs.boundary b k) k := by
  induction k with
  | zero =>
    rw [show b.length + 1 - s.length - cs.boundary b 0 = b.length - s.length + 1 by simp only [boundary]; omega]
    rfl
  | succ k ih =>
    have hNext : cs.boundary b (k + 1) =
      cs.boundary b k + cs.charLength (b.drop (cs.boundary b k)) := rfl
    have hMono := cs.boundary_mono b hk
    have hPos := cs.charLength_pos (b.drop (cs.boundary b k))
    have hNot : cs.strnncoll ((b.drop (cs.boundary b k)).take s.length) s ≠ 0 := fun hEqual =>
      hBefore k (by omega) ⟨by omega, hEqual⟩
    have hSame : cs.charLength ((b.drop (cs.boundary b k)).take (b.length + 1 - s.length - cs.boundary b k)) =
        cs.charLength (b.drop (cs.boundary b k)) := by
      refine (cs.charLength_take _ _).resolve_right fun hCut => ?_
      have hLong : cs.charLength (b.drop (cs.boundary b k)) = cs.ismbchar (b.drop (cs.boundary b k)) :=
        if_neg (by omega)
      omega
    rw [ih (by omega), instrLoop, if_neg (by omega), if_neg hNot]
    simp only [hSame, drop_drop, ← hNext]
    congr 1
    omega

theorem findsFirst_of_endsClear (hSome : s ≠ []) (hClear : cs.EndsClear b s) (nmatch : Nat) :
    cs.FindsFirst b s nmatch := by
  have hNothing (hNone : cs.Finds b s 0 none) (k : Nat) : ¬ cs.MatchesAt b s k :=
    hNone.before k (Nat.zero_le k) nofun
  suffices h : ((cs.myInstrMb b s nmatch).1 = 2 ↔ ∃ k, cs.MatchesAt b s k) ∧
      ∀ k, cs.MatchesAt b s k → (∀ i < k, ¬ cs.MatchesAt b s i) → (cs.myInstrMb b s nmatch).2 =
        [⟨0, cs.boundary b k, k⟩, ⟨cs.boundary b k, cs.boundary b k + s.length, 0⟩].take nmatch from
    ⟨h.1, h.2⟩
  rw [myInstrMb, if_neg (mt length_eq_zero_iff.mp hSome)]
  split_ifs with hFits
  · have hFinds : cs.Finds b s 0 (cs.instrLoop s b (b.length - s.length + 1) 0 0) :=
      instrLoop_finds hClear (by simp only [boundary]; omega) fun i hi => absurd hi (Nat.not_lt_zero i)
    generalize cs.instrLoop s b _ 0 0 = found at hFinds
    rcases found with - | ⟨offset, j⟩
    · exact ⟨⟨nofun, fun ⟨k, hk⟩ => absurd hk (hNothing hFinds k)⟩,
        fun k hk => absurd hk (hNothing hFinds k)⟩
    · obtain ⟨rfl, hMatch⟩ := hFinds.here _ _ rfl
      refine ⟨⟨fun _ => ⟨j, hMatch⟩, fun _ => rfl⟩, fun k hk hLeast => ?_⟩
      have hLow : ¬ k < j := fun hLess =>
        hFinds.before k (Nat.zero_le k) (fun | _, _, rfl => hLess) hk
      have hHigh : ¬ j < k := fun hLess => hLeast j hLess hMatch
      obtain rfl : k = j := by omega
      rfl
  · have hNone := hNothing (finds_none (by simp only [boundary]; omega))
    exact ⟨⟨nofun, fun ⟨k, hk⟩ => absurd hk (hNone k)⟩, fun k hk => absurd hk (hNone k)⟩

/-- A character that is cut off by `end` is stepped into, and what stands there is taken for a match. -/
theorem not_findsFirst_of_cut {nmatch : Nat} (hCut : cs.boundary b k + s.length + 1 = b.length)
    (hThree : cs.ismbchar (b.drop (cs.boundary b k)) = 3)
    (hInside : cs.strnncoll ((b.drop (cs.boundary b k + 1)).take s.length) s = 0)
    (hBefore : ∀ i ≤ k, ¬ cs.MatchesAt b s i) (hSome : s ≠ []) : ¬ cs.FindsFirst b s nmatch := by
  intro hFinds
  have hNone : ¬ ∃ i, cs.MatchesAt b s i := by
    rintro ⟨i, hMatch⟩
    rcases Nat.lt_or_ge k i with hLess | hLe
    · have hMono : cs.boundary b (k + 1) ≤ cs.boundary b i := cs.boundary_mono b hLess
      have hNext : cs.boundary b (k + 1) = cs.boundary b k + 3 := by
        rw [boundary, charLength, if_neg (by omega), hThree]
      have hFits := hMatch.1
      omega
    · exact hBefore i hLe hMatch
  have hNot : cs.strnncoll ((b.drop (cs.boundary b k)).take s.length) s ≠ 0 := fun hEqual =>
    hBefore k le_rfl ⟨by omega, hEqual⟩
  have hTwo : cs.charLength ((b.drop (cs.boundary b k)).take 2) = 1 := by
    have hShort := cs.inside ((b.drop (cs.boundary b k)).take 2)
    rw [length_take] at hShort
    rcases cs.charLength_take (b.drop (cs.boundary b k)) 2 with hSame | hCut
    · simp only [charLength, hThree] at hSame ⊢
      split_ifs at hSame ⊢ <;> omega
    · exact hCut.1
  have hLoop : cs.instrLoop s b (b.length - s.length + 1) 0 0 = some (cs.boundary b k + 1, k + 1) := by
    rw [instrLoop_reaches (fun i hi => hBefore i hi.le) (by omega) le_rfl,
      show b.length + 1 - s.length - cs.boundary b k = 2 by omega, instrLoop, if_neg (by omega), if_neg hNot]
    simp only [hTwo, drop_drop]
    rw [instrLoop, if_neg (by omega), if_pos hInside]
  refine hNone (hFinds.found.mp ?_)
  rw [myInstrMb, if_pos (by omega), if_neg (mt length_eq_zero_iff.mp hSome), hLoop]

end MbCharset

abbrev isUjis (c : UInt8) : Prop := 0xa1 ≤ c ∧ c ≤ 0xfe

abbrev isKata (c : UInt8) : Prop := 0xa1 ≤ c ∧ c ≤ 0xdf

def ismbcharUjis : List UInt8 → Nat
  | c :: c₁ :: rest =>
    if c < 0x80 then 0
    else if isUjis c ∧ isUjis c₁ then 2
    else if c = 0x8e ∧ isKata c₁ then 2
    else if c = 0x8f ∧ isUjis c₁ ∧ ∃ c₂ ∈ rest.head?, isUjis c₂ then 3
    else 0
  | _ => 0

/-- The character set ujis with its binary collation, as far as what compares equal. -/
def ujisBin : MbCharset where
  ismbchar := ismbcharUjis
  strnncoll s t := if s = t then 0 else 1
  same _ := if_pos rfl
  inside bytes := by
    fun_cases ismbcharUjis bytes <;> grind
  determined bytes more h := by
    revert h
    fun_cases ismbcharUjis bytes with
    | case4 _ _ rest => cases rest <;> simp [ismbcharUjis] <;> grind
    | _ => simp [ismbcharUjis] <;> grind

def kanji : List UInt8 := [0x8f, 0xb0, 0xa1]

end MySQL.Ctype
