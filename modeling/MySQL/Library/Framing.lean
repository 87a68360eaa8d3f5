import Mathlib

/-! Messages in numbered packets of at most `max` elements. A packet with fewer than `max`
is the last one of its message, so a message whose length is a multiple of `max` ends with
an empty packet. -/
namespace Library.Framing
open List Nat

universe u
variable {α : Type u} (header : (length nr : Nat) → List α) (max : Nat)

def packet (nr : Nat) (data : List α) : List α := header data.length nr ++ data

def encode (nr : Nat) (message : List α) : List α :=
  if 0 < max ∧ max ≤ message.length then
    packet header nr (message.take max) ++ encode (nr + 1) (message.drop max)
  else packet header nr message
termination_by message.length
decreasing_by
  rw [List.length_drop]
  omega

def count (message : List α) : Nat := message.length / max + 1

def encodeAll (nr : Nat) : List (List α) → List α
  | [] => []
  | message :: messages =>
    encode header max nr message ++ encodeAll (nr + count max message) messages

def countAll (messages : List (List α)) : Nat := (messages.map (count max)).sum

variable {header max}

variable {message : List α}

theorem encode_of_lt (nr : Nat) (h : message.length < max) :
    encode header max nr message = packet header nr message := by
  rw [encode, if_neg (by omega)]

theorem encode_of_le (nr : Nat) (hMax : 0 < max) (h : max ≤ message.length) :
    encode header max nr message =
      packet header nr (message.take max) ++ encode header max (nr + 1) (message.drop max) := by
  rw [encode, if_pos ⟨hMax, h⟩]

theorem count_of_lt (h : message.length < max) : count max message = 1 := by
  rw [count, div_eq_of_lt h]

theorem count_of_le (hMax : 0 < max) (h : max ≤ message.length) :
    count max message = 1 + count max (message.drop max) := by
  rw [count, count, length_drop, div_eq_sub_div hMax h]
  omega

theorem add_length_drop (h : max ≤ message.length) : max + (message.drop max).length = message.length := by
  rw [length_drop, Nat.add_sub_cancel' h]

theorem encodeAll_append (nr : Nat) (front back : List (List α)) :
    encodeAll header max nr (front ++ back) =
      encodeAll header max nr front ++ encodeAll header max (nr + countAll max front) back := by
  induction front generalizing nr with
  | nil => rfl
  | cons message front ih =>
    rw [cons_append, encodeAll, encodeAll, ih, append_assoc, countAll, countAll,
      map_cons, sum_cons, add_assoc]

theorem countAll_append (front back : List (List α)) :
    countAll max (front ++ back) = countAll max front + countAll max back := by
  rw [countAll, map_append, List.sum_append_nat, countAll, countAll]

/-- Induction along the packets of a message: a short last packet, or a full one first. -/
theorem packet_induction {P : List α → Prop} (hMax : 0 < max)
    (hLast : ∀ message, message.length < max → P message)
    (hFull : ∀ message, max ≤ message.length → P (message.drop max) → P message)
    (message : List α) : P message := by
  induction h : message.length using Nat.strongRecOn generalizing message with
  | ind n ih =>
    rcases lt_or_ge message.length max with hShort | hLong
    · exact hLast message hShort
    · refine hFull message hLong (ih (message.drop max).length ?_ _ rfl)
      rw [length_drop]
      omega

/-- Every packet has a header. -/
theorem count_le_length (hMax : 0 < max) (hHeader : ∀ length nr, header length nr ≠ []) (nr : Nat)
    (message : List α) : count max message ≤ (encode header max nr message).length := by
  have hPos (length nr : Nat) : 0 < (header length nr).length := length_pos_iff.mpr (hHeader length nr)
  induction message using packet_induction hMax generalizing nr with
  | hLast message hShort =>
    have hHead := hPos message.length nr
    rw [count_of_lt hShort, encode_of_lt nr hShort, packet, length_append]
    omega
  | hFull message hLong ih =>
    have hHead := hPos (message.take max).length nr
    have hRest := ih (nr + 1)
    rw [count_of_le hMax hLong, encode_of_le nr hMax hLong, packet, length_append, length_append]
    omega

theorem length_encode (hMax : 0 < max) {size : Nat} (hHeader : ∀ length nr, (header length nr).length = size)
    (nr : Nat) (message : List α) :
    (encode header max nr message).length = message.length + size * count max message := by
  induction message using packet_induction hMax generalizing nr with
  | hLast message hShort =>
    rw [encode_of_lt nr hShort, packet, length_append, hHeader, count_of_lt hShort]
    omega
  | hFull message hLong ih =>
    have hRest := ih (nr + 1)
    have hSum : (message.take max).length + (message.drop max).length = message.length := by
      rw [← length_append, take_append_drop]
    rw [encode_of_le nr hMax hLong, packet, length_append, length_append, hHeader, hRest,
      count_of_le hMax hLong, mul_add]
    omega

/-- Add blocks to what was not yet used until there are `n` elements. -/
def pull (n : Nat) (unread : List α) : List (List α) → List α × List (List α)
  | [] => (unread, [])
  | block :: blocks => if n ≤ unread.length then (unread, block :: blocks) else pull n (unread ++ block) blocks

variable {n : Nat} {unread : List α}

theorem pull_of_le (h : n ≤ unread.length) (blocks : List (List α)) :
    pull n unread blocks = (unread, blocks) := by
  cases blocks with
  | nil => rfl
  | cons block blocks => rw [pull, if_pos h]

theorem pull_cons (h : unread.length < n) (block : List α) (blocks : List (List α)) :
    pull n unread (block :: blocks) = pull n (unread ++ block) blocks := by
  rw [pull, if_neg (Nat.not_le_of_lt h)]

theorem pull_flatten (n : Nat) (unread : List α) (blocks : List (List α)) :
    (pull n unread blocks).1 ++ (pull n unread blocks).2.flatten = unread ++ blocks.flatten := by
  induction blocks generalizing unread with
  | nil => rfl
  | cons block blocks ih =>
    rw [pull]
    split
    · rfl
    · rw [ih, flatten_cons, append_assoc]

variable {blocks : List (List α)}

theorem le_length_pull (h : n ≤ (unread ++ blocks.flatten).length) :
    n ≤ (pull n unread blocks).1.length := by
  induction blocks generalizing unread with
  | nil => simpa [pull] using h
  | cons block blocks ih =>
    rw [pull]
    split
    · assumption
    · exact ih (by rwa [append_assoc])

/-- More elements are pulled after fewer. -/
theorem pull_pull {m : Nat} (h : m ≤ n) (unread : List α) (blocks : List (List α)) :
    pull n (pull m unread blocks).1 (pull m unread blocks).2 = pull n unread blocks := by
  induction blocks generalizing unread with
  | nil => rfl
  | cons block blocks ih =>
    by_cases hEnough : m ≤ unread.length
    · rw [pull_of_le hEnough]
    · rw [pull_cons (by omega), ih, pull_cons (by omega)]

/-- What was used already makes no difference. -/
theorem pull_append (n : Nat) (used unread : List α) (blocks : List (List α)) :
    pull (used.length + n) (used ++ unread) blocks =
      (used ++ (pull n unread blocks).1, (pull n unread blocks).2) := by
  induction blocks generalizing unread with
  | nil => rfl
  | cons block blocks ih =>
    rw [pull, pull, length_append]
    by_cases hEnough : n ≤ unread.length
    · rw [if_pos (by omega), if_pos hEnough]
    · rw [if_neg (by omega), if_neg hEnough, append_assoc, ih]

/-- Blocks that are not needed are left. -/
theorem pull_append_right {front : List (List α)} (h : n ≤ (unread ++ front.flatten).length)
    (back : List (List α)) :
    pull n unread (front ++ back) = ((pull n unread front).1, (pull n unread front).2 ++ back) := by
  induction front generalizing unread with
  | nil =>
    rw [flatten_nil, append_nil] at h
    rw [nil_append, pull_of_le h, pull_of_le h, nil_append]
  | cons block front ih =>
    by_cases hEnough : n ≤ unread.length
    · rw [pull_of_le hEnough, pull_of_le hEnough]
    · rw [cons_append, pull_cons (by omega), pull_cons (by omega), ih]
      rwa [append_assoc]

theorem pull_suffix (n : Nat) (unread : List α) (blocks : List (List α)) :
    (pull n unread blocks).2 <:+ blocks := by
  induction blocks generalizing unread with
  | nil => exact suffix_rfl
  | cons block blocks ih =>
    rw [pull]
    split
    · exact suffix_rfl
    · exact (ih _).trans (suffix_cons block blocks)

/-- What comes first in a stream is pulled. -/
theorem pull_target {target tail : List α} (h : unread ++ blocks.flatten = target ++ tail) :
    ∃ rest, (pull target.length unread blocks).1 = target ++ rest ∧
      rest ++ (pull target.length unread blocks).2.flatten = tail := by
  set pulled := pull target.length unread blocks
  have hEnough : target.length ≤ pulled.1.length :=
    le_length_pull (by rw [h, length_append]; omega)
  have hAll : pulled.1 ++ pulled.2.flatten = target ++ tail := (pull_flatten _ _ _).trans h
  obtain ⟨rest, hRest, hTail⟩ | ⟨rest, hRest, hTail⟩ := append_eq_append_iff.mp hAll
  · have hNil : rest = [] := by
      have hLength := congrArg length hRest
      rw [length_append] at hLength
      exact length_eq_zero_iff.mp (by omega)
    rw [hNil, append_nil] at hRest
    rw [hNil, nil_append] at hTail
    exact ⟨[], by rw [append_nil, ← hRest], by rw [nil_append, hTail]⟩
  · exact ⟨rest, hRest, hTail.symm⟩

/-- A longer stream is pulled after its first part. -/
theorem pull_append_target {front back rest : List α} {blocks' blocks'' : List (List α)}
    (hFront : pull front.length unread blocks = (front ++ rest, blocks')) {rest' : List α}
    (hBack : pull back.length rest blocks' = (back ++ rest', blocks'')) :
    pull (front ++ back).length unread blocks = (front ++ back ++ rest', blocks'') := by
  have hLe : front.length ≤ (front ++ back).length := by
    rw [length_append]
    omega
  have hAll := pull_pull hLe unread blocks
  rw [hFront] at hAll
  rw [← hAll, length_append, pull_append, hBack, append_assoc]

theorem length_flatten_le (h : ∀ block ∈ blocks, block.length ≤ max) :
    blocks.flatten.length ≤ blocks.length * max := by
  rw [length_flatten]
  simpa using sum_le_card_nsmul (blocks.map length) max (by simpa using h)

end Library.Framing
