import MySQL.Library.PackedDigits
import MySQL.Strings.Decimal.Basic

/-! `decimal2bin` and `bin2decimal`, which store decimals in a fixed number of
bytes. The two pointers of each function become the bytes written or left to
read and the position in the array of words. -/
namespace MySQL.Decimals
open Library

/-- The bytes of a group of fewer than nine digits. -/
def dig2bytes (digits : Nat) : Nat :=
  [0, 1, 1, 2, 2, 3, 3, 4, 4, 4].getD digits 0

def binBytes (digits : Nat) : Nat :=
  digits / 9 * 4 + dig2bytes (digits - digits / 9 * 9)

def decimalSize (precision scale : Nat) : Nat :=
  roundUp (precision - scale) + roundUp scale

def decimalBinSize (precision scale : Nat) : Nat :=
  binBytes (precision - scale) + binBytes scale

/-- `x ^ mask`, the mask being `-1` or `0`. -/
def masked (mask : Bool) (x : Int) : Int :=
  if mask then -x - 1 else x

def maskByte (mask : Bool) : Nat :=
  if mask then 255 else 0

/-- `mi_int1store` to `mi_int4store` -/
def miStore (n : Nat) (x : Int) : List Nat :=
  (List.range n).reverse.map fun k => (x / 256 ^ k % 256).toNat

/-- `to[0] ^= 0x80` -/
def flipFirst : List Nat → List Nat
  | [] => []
  | b :: rest => (b ^^^ 0x80) :: rest

/-- How the integer part is stored: bytes of padding, then a word of `intg1x`
digits and `intg1` full words, from `pos` on. -/
structure IntgPart where
  pad : Nat
  pos : Nat
  intg1 : Nat
  intg1x : Nat
  overflow : Bool

/-- The integer part that is written: padded in front, or cut there. -/
def fitIntg (limit intg fromIntg pos : Nat) : IntgPart :=
  let intg0 := intg / 9
  let intg0x := intg - intg0 * 9
  let intg1 := fromIntg / 9
  let intg1x := fromIntg - intg1 * 9
  if limit < fromIntg then
    { pad := 0
      pos := pos + (intg1 + if 0 < intg1x then 1 else 0) - (intg0 + if 0 < intg0x then 1 else 0)
      intg1 := intg0
      intg1x := intg0x
      overflow := true }
  else
    { pad := binBytes intg - binBytes fromIntg
      pos := pos
      intg1 := intg1
      intg1x := intg1x
      overflow := false }

/-- How the fraction is stored: `frac1` full words and a word of `frac1x`
digits, then padding up to `fsize0` bytes. -/
structure FracPart where
  frac1 : Nat
  frac1x : Nat
  fsize0 : Nat
  truncated : Bool

/-- The fraction that is written: padded behind, or cut there. -/
def fitFrac (scale frac : Nat) : FracPart :=
  let frac0 := scale / 9
  let frac0x := scale - frac0 * 9
  let frac1 := frac / 9
  let frac1x := frac - frac1 * 9
  let fsize0 := binBytes scale
  let fsize1 := binBytes frac
  if fsize0 < fsize1 then ⟨frac0, frac0x, fsize0, true⟩
  else if fsize1 < fsize0 ∧ frac1x ≠ 0 then
    if frac0 = frac1 then ⟨frac1, frac0x, fsize1, false⟩ else ⟨frac1 + 1, 0, fsize0, false⟩
  else ⟨frac1, frac1x, fsize0, false⟩

/-- Count the digits that fit in the same number of bytes. -/
def widenDigits (lim bytes : Nat) : (fuel digits : Nat) → Nat
  | 0, digits => digits
  | fuel + 1, digits =>
    if digits < lim ∧ dig2bytes digits = bytes then widenDigits lim bytes fuel (digits + 1)
    else digits

def storeLead (mask : Bool) (word digits : Nat) : List Nat :=
  if digits ≠ 0 then miStore (dig2bytes digits) (masked mask (word % 10 ^ digits : Nat)) else []

def storeWords (mask : Bool) (buf : Nat → Nat) (pos n : Nat) : List Nat :=
  (List.range n).flatMap fun j => miStore 4 (masked mask (buf (pos + j)))

def storeTail (mask : Bool) (word digits lim : Nat) : List Nat :=
  if digits ≠ 0 then
    let digits' := widenDigits lim (dig2bytes digits) 9 digits
    miStore (dig2bytes digits) (masked mask (word / 10 ^ (9 - digits') : Nat))
  else []

/-- The bytes sort like the numbers: the first bit is flipped, and all bits of negative numbers. -/
def decimal2bin (d : Decimal) (precision scale : Nat) : List Nat × DecError :=
  let intg := precision - scale
  let frac0 := scale / 9
  let frac0x := scale - frac0 * 9
  let fsize1 := binBytes d.frac
  let (pos, fromIntg) := removeLeadingZeroes d
  let zero : Bool := fromIntg + fsize1 = 0
  let mask := !zero && d.sign
  let buf := if zero then fun _ => 0 else d.buf
  let i := fitIntg (if zero then 1 else intg) intg fromIntg pos
  let f := fitFrac scale d.frac
  let error := if f.truncated then .truncated else if i.overflow then .overflow else .ok
  let first := i.pos + if i.intg1x ≠ 0 then 1 else 0
  let written :=
    List.replicate i.pad (maskByte mask) ++ storeLead mask (buf i.pos) i.intg1x ++
      storeWords mask buf first (i.intg1 + f.frac1) ++
      storeTail mask (buf (first + i.intg1 + f.frac1)) f.frac1x
        (if f.frac1 < frac0 then 9 else frac0x)
  let fill :=
    if fsize1 < f.fsize0 then
      min (f.fsize0 - fsize1) (decimalBinSize precision scale - written.length)
    else 0
  (flipFirst (written ++ List.replicate fill (maskByte mask)), error)

def fixIntgFracError (len intg1 frac1 : Nat) : Nat × Nat × DecError :=
  if len < intg1 + frac1 then
    if len < intg1 then (len, 0, .overflow) else (intg1, len - intg1, .truncated)
  else (intg1, frac1, .ok)

/-- `mi_sint1korr` to `mi_sint4korr` -/
def miSintKorr (n : Nat) (bytes : List Nat) : Int :=
  let value : Int := fromBytes (bytes.take n)
  if 128 ≤ bytes.headD 0 then value - 256 ^ n else value

/-- The bytes that are left, and the words that were read. -/
structure Reader where
  bytes : List Nat
  buf : Nat → Nat
  pos : Nat
  intg : Nat

def readIntg (mask : Bool) (n digits : Nat) (r : Reader) : Reader :=
  let word := (masked mask (miSintKorr n r.bytes)).toNat
  let bytes := r.bytes.drop n
  let buf := Function.update r.buf r.pos word
  if 0 < r.pos ∨ word ≠ 0 then ⟨bytes, buf, r.pos + 1, r.intg⟩
  else ⟨bytes, buf, r.pos, r.intg - digits⟩

/-- Read a word of the fraction, whose digits begin at the highest place. -/
def readFrac (mask : Bool) (n digits : Nat) (r : Reader) : Reader :=
  let word := (masked mask (miSintKorr n r.bytes)).toNat * 10 ^ (9 - digits)
  ⟨r.bytes.drop n, Function.update r.buf r.pos word, r.pos + 1, r.intg⟩

/-- Leading zero words are not stored. -/
def bin2decimal (source : List Nat) (target : Decimal) (precision scale : Nat) : Decimal × DecError :=
  let intg := precision - scale
  let intg0 := intg / 9
  let frac0 := scale / 9
  let intg0x := intg - intg0 * 9
  let frac0x := scale - frac0 * 9
  let intgWords := intg0 + if 0 < intg0x then 1 else 0
  let fracWords := frac0 + if 0 < frac0x then 1 else 0
  let mask : Bool := source.headD 0 < 128
  let bytes := flipFirst (source.take (decimalBinSize precision scale))
  let (intg1, frac1, error) := fixIntgFracError target.len intgWords fracWords
  let (bytes, intg0, intg0x, frac0, frac0x) :=
    if error = .ok then (bytes, intg0, intg0x, frac0, frac0x)
    else if intg1 < intgWords then
      (bytes.drop (dig2bytes intg0x + 4 * (intg0 - intg1)), intg1, 0, 0, 0)
    else (bytes, intg0, intg0x, frac1, 0)
  let r : Reader := ⟨bytes, target.buf, 0, intg0 * 9 + intg0x⟩
  let r := if intg0x ≠ 0 then readIntg mask (dig2bytes intg0x) intg0x r else r
  let r := (readIntg mask 4 9)^[intg0] r
  let r := (readFrac mask 4 9)^[frac0] r
  let r := if frac0x ≠ 0 then readFrac mask (dig2bytes frac0x) frac0x r else r
  ({ target with sign := mask, intg := r.intg, frac := frac0 * 9 + frac0x, buf := r.buf }, error)

end MySQL.Decimals
