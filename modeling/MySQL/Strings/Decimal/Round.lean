import MySQL.Strings.Decimal.Basic

/-! `decimal_round`. The two decimals may be one (`target` is `none`), and then
the words are moved within one array. -/
namespace MySQL.Decimals
open Function

inductive RoundMode where
  | truncate
  | halfEven
  | halfUp
  | ceiling
  | floor
  deriving DecidableEq, Repr

def makeZero (d : Decimal) : Decimal :=
  { d with buf := update d.buf 0 0, intg := 1, frac := 0, sign := false }

def roundDigit (mode : RoundMode) (sign : Bool) : Nat :=
  match mode with
  | .halfUp | .halfEven => 5
  | .ceiling => if sign then 10 else 0
  | .floor => if sign then 0 else 10
  | .truncate => 10

/-- Copy `n` words to places `shift` higher, the last word first. Without a
source the words come from the same array. -/
def copyUp (source : Option (Nat → Nat)) (shift : Nat) : Nat → (Nat → Nat) → Nat → Nat
  | 0, buf => buf
  | n + 1, buf => copyUp source shift n (update buf (n + shift) (source.getD buf n))

def zeroWords (pos : Nat) : Nat → (Nat → Nat) → Nat → Nat
  | 0, buf => buf
  | n + 1, buf => zeroWords (pos + 1) n (update buf pos 0)

theorem zeroWords_apply (buf : Nat → Nat) (pos n i : Nat) :
    zeroWords pos n buf i = if pos ≤ i ∧ i < pos + n then 0 else buf i := by
  induction n generalizing buf pos with
  | zero =>
    have hNot : ¬(pos ≤ i ∧ i < pos + 0) := by omega
    rw [zeroWords, if_neg hNot]
  | succ n ih =>
    rw [zeroWords, ih]
    by_cases hi : i = pos
    · subst hi
      simp
    · rw [update_of_ne hi]
      congr 1
      apply propext
      omega

/-- Add a carry to the words before `pos`: the last word touched, the words and
the carry that is left. -/
def carryUp : Nat → (Nat → Nat) → Nat × (Nat → Nat) × Bool
  | 0, buf => (0, buf, true)
  | pos + 1, buf =>
    if 10 ^ 9 ≤ buf pos + 1 then carryUp pos (update buf pos (buf pos + 1 - 10 ^ 9))
    else (pos, update buf pos (buf pos + 1), false)

def lastNonzero (buf : Nat → Nat) : Nat → Option Nat
  | 0 => if buf 0 ≠ 0 then some 0 else none
  | pos + 1 => if buf (pos + 1) ≠ 0 then some (pos + 1) else lastNonzero buf pos

/-- Round at the end of the `kept` words. The result is the word rounded at and
the words, or nothing if no word and no carry are left. -/
def roundAtWord (mode : RoundMode) (digit : Nat) (buf : Nat → Nat) (kept dropped : Nat) :
    Option (Nat × (Nat → Nat)) :=
  let doInc : Bool :=
    match digit with
    | 0 => ∃ k < dropped, buf (kept + k) ≠ 0
    | 5 =>
      let x := buf kept / 10 ^ 8
      5 < x ∨ x = 5 ∧ (mode = .halfUp ∨ 0 < kept ∧ buf (kept - 1) % 2 = 1)
    | _ => false
  if doInc then
    if 0 < kept then some (kept - 1, update buf (kept - 1) (buf (kept - 1) + 1))
    else some (0, update buf 0 (10 ^ 9))
  else if kept = 0 then none
  else some (kept - 1, buf)

def roundInWord (mode : RoundMode) (digit word place : Nat) : Nat :=
  let x := word / 10 ^ place
  let y := x % 10
  let x' :=
    if digit < y ∨ digit = 5 ∧ y = 5 ∧ (mode = .halfUp ∨ x / 10 % 2 = 1) then x + 10 else x
  10 ^ place * (x' - y)

/-- The end of `decimal_round`. `pos` is the word that `buf1` addresses. -/
def finishRound (d : Decimal) (pos : Nat) (scale : Int) : Decimal :=
  let firstDig := d.intg % 9
  { d with
    intg := if firstDig ≠ 0 ∧ 10 ^ firstDig ≤ d.buf pos then d.intg + 1 else d.intg
    frac := scale.toNat }

def settleRound (d : Decimal) (pos intg0 : Nat) (frac0 scale : Int) (error : DecError) :
    Decimal × DecError :=
  if 10 ^ 9 ≤ d.buf pos then
    let (pos, buf, carry) := carryUp pos (update d.buf pos (d.buf pos - 10 ^ 9))
    if carry then
      let full : Bool := d.len ≤ frac0 + intg0
      let frac0 := if full then frac0 - 1 else frac0
      let scale := if full then frac0 * 9 else scale
      let buf := copyUp none 1 (intg0 + max frac0 0).toNat buf
      (finishRound { d with buf := update buf 0 1, intg := d.intg + 1 } 0 scale,
        if full then .truncated else error)
    else (finishRound { d with buf } pos scale, error)
  else
    match lastNonzero d.buf pos with
    | some pos => (finishRound d pos scale, error)
    | none =>
      ({ d with
          intg := 1
          frac := scale.toNat
          sign := false
          buf := zeroWords 0 (frac0 + 1).toNat d.buf }, .ok)

/-- Round to the words that stay, `frac1` being the words of the old fraction. -/
def roundWords (d : Decimal) (mode : RoundMode) (digit intg0 frac1 : Nat) (frac0 scale : Int)
    (error : DecError) : Decimal × DecError :=
  let kept := (intg0 + frac0).toNat
  let rounded :=
    if scale = frac0 * 9 then roundAtWord mode digit d.buf kept (frac1 - frac0).toNat
    else
      some (kept - 1, update d.buf (kept - 1)
        (roundInWord mode digit (d.buf (kept - 1)) (frac0 * 9 - scale - 1).toNat))
  match rounded with
  | none => (makeZero d, .ok)
  | some (pos, buf) =>
    let buf := if frac0 < 0 then zeroWords (pos + 1) (intg0 - (pos + 1)) buf else buf
    settleRound { d with buf } pos intg0 frac0 scale error

def decimalRound (source : Decimal) (target : Option Decimal) (scale : Int) (mode : RoundMode) :
    Decimal × DecError :=
  let result := target.getD source
  let frac0 : Int := if 0 < scale then roundUp scale.toNat else scale.tdiv 9
  let frac1 := roundUp source.frac
  let intg0 := roundUp source.intg
  let intg1 :=
    roundUp (source.intg + if 0 < intg0 + frac0 ∧ source.buf 0 = 10 ^ 9 - 1 then 1 else 0)
  let digit := roundDigit mode source.sign
  let short : Bool := result.len < frac0 + intg0
  let frac0 : Int := if short then result.len - intg0 else frac0
  let scale := if short then frac0 * 9 else scale
  let error := if short then .truncated else .ok
  if scale + source.intg < 0 then (makeZero result, .ok)
  else
    let moved : Bool := target.isSome ∨ intg0 < intg1
    let result :=
      if moved then
        { result with
          buf := copyUp (target.map fun _ => source.buf) (intg1 - intg0)
            (intg0 + max (frac1 : Int) frac0).toNat (update result.buf 0 0)
          sign := source.sign
          intg := min intg1 result.len * 9 }
      else result
    let intg0 := if moved then intg1 else intg0
    if frac1 < frac0 then
      ({ result with
          buf := zeroWords (intg0 + frac1) (frac0 - frac1).toNat result.buf
          frac := scale.toNat }, error)
    else if source.frac ≤ scale then ({ result with frac := scale.toNat }, error)
    else roundWords result mode digit intg0 frac1 frac0 scale error

end MySQL.Decimals
