import MySQL.Library.System

/-! Day numbers: `calc_daynr` and `get_date_from_daynr`. -/
namespace MySQL.Time

open Library

def calcDaysInYear (year : Nat) : Nat :=
  if year &&& 3 = 0 ∧ (year % 100 ≠ 0 ∨ year % 400 = 0 ∧ year ≠ 0) then 366 else 365

/-- `calc_daynr`. A year of two digits is one from 1970 to 2069, and the months before month 0 wrap. -/
def calcDaynr (year month day : Nat) : Int :=
  if year = 0 ∧ month = 0 ∧ day = 0 then 0 else
    let year :=
      if year < 200 then if year + 1900 < 1900 + 70 then year + 1900 + 100 else year + 1900 else year
    let delsum : Int := 365 * year + 31 * ((month : Int) - 1) % 2 ^ 32 + day
    if month ≤ 2 then delsum + ((year - 1) / 4 : Nat) - (((year - 1) / 100 + 1) * 3 / 4 : Nat)
    else delsum - ((month * 4 + 23) / 10 : Nat) + (year / 4 : Nat) - ((year / 100 + 1) * 3 / 4 : Nat)

structure Date where
  year : Nat
  month : Nat
  day : Nat
  deriving DecidableEq, Repr

def Date.daynr (date : Date) : Int := calcDaynr date.year date.month date.day

/-- `days_in_month`, with the 0 that ends it -/
def daysInMonth : List Nat := [31, 28, 31, 30, 31, 30, 31, 31, 30, 31, 30, 31, 0]

/-- The search for the month. There is none if it runs off the table. -/
def findMonth : (lengths : List Nat) → (month day : Nat) → Option (Nat × Nat)
  | [], _, _ => none
  | length :: lengths, month, day =>
    if length < day then findMonth lengths (month + 1) (day - length) else some (month, day)

/-- Month and day from the day of a year of `daysInYear` days. The leap day is the 28th of February, plus 1. -/
def monthAndDay (daysInYear dayOfYear : Nat) : Option (Nat × Nat) :=
  if daysInYear = 366 ∧ 31 + 28 < dayOfYear then do
    let (month, day) ← findMonth daysInMonth 1 (dayOfYear - 1)
    some (month, day + if dayOfYear - 1 = 31 + 28 then 1 else 0)
  else findMonth daysInMonth 1 dayOfYear

/-- `get_date_from_daynr`. Each turn of the loop lowers the day of the year, which thus bounds the turns. -/
def getDateFromDaynr (daynr : Int) : Option Date :=
  if daynr ≤ 365 ∨ 3652500 ≤ daynr then some ⟨0, 0, 0⟩ else do
    let year := (daynr * 100 / 36525).toNat
    let temp := ((year - 1) / 100 + 1) * 3 / 4
    let dayOfYear := ((daynr - year * 365 - ((year - 1) / 4 : Nat) + temp) % 2 ^ 32).toNat
    let (year, dayOfYear) ← whileLoop (fun p => calcDaysInYear p.1 < p.2)
      (fun p => (p.1 + 1, p.2 - calcDaysInYear p.1)) (dayOfYear + 1) (year, dayOfYear)
    let (month, day) ← monthAndDay (calcDaysInYear year) dayOfYear
    some ⟨year, month, day⟩

def IsLeap (year : Nat) : Prop := year % 4 = 0 ∧ (year % 100 ≠ 0 ∨ year % 400 = 0)

instance (year : Nat) : Decidable (IsLeap year) := inferInstanceAs (Decidable (_ ∧ _))

def monthLength (leap : Bool) (month : Nat) : Nat :=
  if month = 2 then if leap then 29 else 28
  else if month = 4 ∨ month = 6 ∨ month = 9 ∨ month = 11 then 30 else 31

structure Date.Valid (date : Date) : Prop where
  month : 1 ≤ date.month ∧ date.month ≤ 12
  day : 1 ≤ date.day ∧ date.day ≤ monthLength (IsLeap date.year) date.month

def Date.next (date : Date) : Date :=
  if date.day < monthLength (IsLeap date.year) date.month then { date with day := date.day + 1 }
  else if date.month < 12 then { date with month := date.month + 1, day := 1 }
  else ⟨date.year + 1, 1, 1⟩

def leapDays (year : Nat) : Int := (year / 4 : Nat) - ((year / 100 + 1) * 3 / 4 : Nat)

def yearStart (year : Nat) : Int := 365 * year + leapDays (year - 1)

def dayOfYear (leap : Bool) (month day : Nat) : Nat :=
  31 * (month - 1) + day - if month ≤ 2 then 0 else (month * 4 + 23) / 10 - leap.toNat

def Date.yearDay (date : Date) : Nat := dayOfYear (IsLeap date.year) date.month date.day

section
variable {y m d : Nat}

theorem calcDaysInYear_eq (h : 0 < y) : calcDaysInYear y = 365 + (decide (IsLeap y)).toNat := by
  have hAnd : y &&& 3 = y % 4 := Nat.and_two_pow_sub_one_eq_mod y 2
  have hYear : y ≠ 0 := h.ne'
  by_cases hLeap : IsLeap y
  · rw [decide_eq_true hLeap, calcDaysInYear, hAnd, if_pos ⟨hLeap.1, hLeap.2.imp_right (⟨·, hYear⟩)⟩]
    rfl
  · rw [decide_eq_false hLeap, calcDaysInYear, hAnd, if_neg (fun h => hLeap ⟨h.1, h.2.imp_right (·.1)⟩)]
    rfl

theorem leapDays_eq (h : 0 < y) : leapDays y = leapDays (y - 1) + (decide (IsLeap y)).toNat := by
  have hHundreds (c : Nat) : (c + 1) * 3 / 4 = c - c / 4 := by omega
  simp only [leapDays, hHundreds, Nat.div_div_eq_div_mul]
  by_cases hLeap : IsLeap y
  · rw [decide_eq_true hLeap, Bool.toNat_true]
    simp only [IsLeap] at hLeap
    omega
  · rw [decide_eq_false hLeap, Bool.toNat_false]
    simp only [IsLeap] at hLeap
    omega

theorem yearStart_succ (h : 0 < y) : yearStart (y + 1) = yearStart y + calcDaysInYear y := by
  have hLeap := leapDays_eq h
  rw [calcDaysInYear_eq h, yearStart, yearStart, Nat.add_sub_cancel]
  omega

theorem yearStart_mono {x : Nat} (hx : 0 < x) (h : x ≤ y) : yearStart x ≤ yearStart y := by
  induction y, h using Nat.le_induction with
  | base => rfl
  | succ y hLe ih =>
    rw [yearStart_succ (hx.trans_le hLe)]
    omega

/-- Only one year has a day of this number. -/
theorem yearStart_unique {x k j : Nat} (hx : 0 < x) (hy : 0 < y) (hk : 1 ≤ k ∧ k ≤ calcDaysInYear x)
    (hj : 1 ≤ j ∧ j ≤ calcDaysInYear y) (hSame : yearStart x + k = yearStart y + j) : x = y ∧ k = j := by
  obtain rfl : x = y := by
    rcases lt_trichotomy x y with hLess | hEq | hLess
    · have hNext := yearStart_mono x.succ_pos hLess
      rw [Nat.succ_eq_add_one, yearStart_succ hx] at hNext
      omega
    · exact hEq
    · have hNext := yearStart_mono y.succ_pos hLess
      rw [Nat.succ_eq_add_one, yearStart_succ hy] at hNext
      omega
  exact ⟨rfl, by omega⟩

theorem calcDaynr_eq (hy : 200 ≤ y) (hm : 1 ≤ m ∧ m ≤ 12) (hd : 1 ≤ d) :
    calcDaynr y m d = yearStart y + dayOfYear (IsLeap y) m d := by
  have hMonths : 31 * ((m : Int) - 1) % 2 ^ 32 = 31 * ((m : Int) - 1) := by omega
  have hLeap := leapDays_eq (by omega : 0 < y)
  rw [calcDaynr, if_neg (by omega), if_neg (not_lt.mpr hy), hMonths, yearStart, dayOfYear]
  simp only [leapDays] at hLeap ⊢
  split_ifs with hEarly
  · omega
  · omega

end

/-- The formula of `calc_daynr` follows the months, and `get_date_from_daynr` goes back from it. -/
theorem dayOfYear_table : ∀ leap : Bool, ∀ m < 12, ∀ d < monthLength leap (m + 1),
    1 ≤ dayOfYear leap (m + 1) (d + 1) ∧ dayOfYear leap (m + 1) (d + 1) ≤ 365 + leap.toNat ∧
    monthAndDay (365 + leap.toNat) (dayOfYear leap (m + 1) (d + 1)) = some (m + 1, d + 1) ∧
    if d + 1 < monthLength leap (m + 1) then dayOfYear leap (m + 1) (d + 1) + 1 = dayOfYear leap (m + 1) (d + 2)
    else if m + 1 < 12 then dayOfYear leap (m + 1) (d + 1) + 1 = dayOfYear leap (m + 2) 1
    else dayOfYear leap (m + 1) (d + 1) = 365 + leap.toNat := by
  decide +kernel

section
variable {y : Nat} {date : Date}

/-- The table at a date -/
theorem Date.Valid.table (h : date.Valid) (hYear : 0 < date.year) :
    1 ≤ date.yearDay ∧ date.yearDay ≤ calcDaysInYear date.year ∧
    monthAndDay (calcDaysInYear date.year) date.yearDay = some (date.month, date.day) ∧
    if date.day < monthLength (IsLeap date.year) date.month then
      date.yearDay + 1 = dayOfYear (IsLeap date.year) date.month (date.day + 1)
    else if date.month < 12 then date.yearDay + 1 = dayOfYear (IsLeap date.year) (date.month + 1) 1
    else date.yearDay = calcDaysInYear date.year := by
  obtain ⟨m, hm⟩ := Nat.exists_eq_add_of_le' h.month.1
  obtain ⟨d, hd⟩ := Nat.exists_eq_add_of_le' h.day.1
  have hMonth := h.month
  have hDay := h.day
  rw [hm] at hMonth hDay
  rw [Date.yearDay, hm, hd, calcDaysInYear_eq hYear]
  exact dayOfYear_table _ m (by omega) d (by omega)

theorem Date.Valid.daynr_eq (h : date.Valid) (hYear : 200 ≤ date.year) :
    date.daynr = yearStart date.year + date.yearDay :=
  calcDaynr_eq hYear h.month h.day.1

theorem Date.Valid.next (h : date.Valid) (hYear : 200 ≤ date.year) :
    date.next.Valid ∧ 200 ≤ date.next.year ∧ date.next.daynr = date.daynr + 1 := by
  have hMonth := h.month
  obtain ⟨-, -, -, hTable⟩ := h.table (by omega)
  have hFirst (leap : Bool) (m : Nat) : 1 ≤ monthLength leap m := by
    rw [monthLength]
    split_ifs <;> decide
  rw [h.daynr_eq hYear, Date.next]
  split_ifs at hTable ⊢ with hLess hSame
  · refine ⟨⟨hMonth, Nat.le_add_left 1 _, hLess⟩, hYear, ?_⟩
    rw [Date.daynr, calcDaynr_eq hYear hMonth (Nat.le_add_left 1 _)]
    omega
  · refine ⟨⟨⟨Nat.le_add_left 1 _, hSame⟩, le_rfl, hFirst _ _⟩, hYear, ?_⟩
    rw [Date.daynr, calcDaynr_eq hYear ⟨Nat.le_add_left 1 _, hSame⟩ le_rfl]
    omega
  · refine ⟨⟨⟨le_rfl, Nat.le_add_left 1 _⟩, le_rfl, hFirst _ _⟩, Nat.le_succ_of_le hYear, ?_⟩
    rw [Date.daynr, calcDaynr_eq (Nat.le_succ_of_le hYear) ⟨le_rfl, Nat.le_add_left 1 _⟩ le_rfl,
      yearStart_succ (by omega), hTable]
    rfl

/-- The year of the day is found from a year before it. -/
theorem getDateFromDaynr_eq {k : Nat} (hy : 200 ≤ y ∧ y ≤ 9999) (hk : 1 ≤ k ∧ k ≤ calcDaysInYear y) :
    getDateFromDaynr (yearStart y + k) =
      (monthAndDay (calcDaysInYear y) k).map (fun p => ⟨y, p.1, p.2⟩) := by
  obtain ⟨n, hn⟩ : ∃ n, n = yearStart y + k := ⟨_, rfl⟩
  have hLow : 73048 ≤ yearStart y := yearStart_mono (by decide : 0 < 200) hy.1
  have hHigh : yearStart (y + 1) ≤ 3652424 := yearStart_mono y.succ_pos (by omega : y + 1 ≤ 10000)
  rw [yearStart_succ (by omega)] at hHigh
  rw [← hn, getDateFromDaynr, if_neg (by omega)]
  obtain ⟨e, he⟩ : ∃ e, e = (n * 100 / 36525).toNat := ⟨_, rfl⟩
  obtain ⟨j, hj⟩ : ∃ j, j = ((n - e * 365 - ((e - 1) / 4 : Nat) + (((e - 1) / 100 + 1) * 3 / 4 : Nat))
      % 2 ^ 32).toNat := ⟨_, rfl⟩
  dsimp only
  rw [← he, ← hj]
  -- the years up to the guess have at most 365.25 days each
  have hStart : yearStart e + j = n ∧ 1 ≤ j ∧ 1 ≤ e := by
    have hBefore : 1 ≤ n - e * 365 - ((e - 1) / 4 : Nat) + (((e - 1) / 100 + 1) * 3 / 4 : Nat) := by omega
    rw [Int.emod_eq_of_lt (by omega) (by omega)] at hj
    rw [yearStart, leapDays]
    omega
  obtain ⟨⟨y', k'⟩, hLoop, ⟨hSum, hFirst, hYear⟩, hExit⟩ := whileLoop_spec (fun p => calcDaysInYear p.1 < p.2)
    (fun p => (p.1 + 1, p.2 - calcDaysInYear p.1)) (fun p => yearStart p.1 + p.2 = n ∧ 1 ≤ p.2 ∧ 1 ≤ p.1)
    (fun p => p.2) (s := (e, j)) (fun p hInv hTest => by
      have hNext := yearStart_succ hInv.2.2
      have hLess := of_decide_eq_true hTest
      simp only [calcDaysInYear_eq hInv.2.2] at *
      omega) hStart (Nat.lt_succ_self j)
  obtain ⟨rfl, rfl⟩ := yearStart_unique hYear (by omega) ⟨hFirst, not_lt.mp (of_decide_eq_false hExit)⟩ hk
    (hSum.trans hn)
  simp only [hLoop, bind, Option.bind]
  cases monthAndDay _ k' <;> rfl

theorem Date.Valid.getDateFromDaynr (h : date.Valid) (hYear : 200 ≤ date.year ∧ date.year ≤ 9999) :
    getDateFromDaynr date.daynr = some date := by
  obtain ⟨hFirst, hLast, hMonth, -⟩ := h.table (by omega)
  rw [h.daynr_eq hYear.1, getDateFromDaynr_eq hYear ⟨hFirst, hLast⟩, hMonth]
  rfl

/-- Every day from the first one on has a date. -/
theorem exists_daynr_eq (n : Nat) : ∃ date : Date, date.Valid ∧ 200 ≤ date.year ∧
    date.daynr = calcDaynr 200 1 1 + n := by
  induction n with
  | zero => exact ⟨⟨200, 1, 1⟩, ⟨by decide, by decide⟩, le_rfl, by decide⟩
  | succ n ih =>
    obtain ⟨date, hValid, hYear, hDate⟩ := ih
    obtain ⟨hNext, hLater, hNumber⟩ := hValid.next hYear
    exact ⟨date.next, hNext, hLater, by omega⟩

end

/-- Days follow each other, and day numbers and dates of the years 200 to 9999 are in bijection. -/
theorem daynr_getDateFromDaynr :
    (∀ date : Date, date.Valid → 200 ≤ date.year → date.year ≤ 9999 →
      date.next.daynr = date.daynr + 1 ∧ getDateFromDaynr date.daynr = some date) ∧
    ∀ n, calcDaynr 200 1 1 ≤ n → n ≤ calcDaynr 9999 12 31 →
      ∃ date, getDateFromDaynr n = some date ∧ date.Valid ∧ date.daynr = n := by
  refine ⟨fun date h hLow hHigh => ⟨(h.next hLow).2.2, h.getDateFromDaynr ⟨hLow, hHigh⟩⟩, ?_⟩
  intro n hLow hHigh
  obtain ⟨date, hValid, hYear, hDate⟩ := exists_daynr_eq (n - calcDaynr 200 1 1).toNat
  obtain rfl : date.daynr = n := by omega
  refine ⟨date, hValid.getDateFromDaynr ⟨hYear, ?_⟩, hValid, rfl⟩
  by_contra hLate
  have hEnd : calcDaynr 9999 12 31 = yearStart 10000 := by decide
  have hStart := yearStart_mono (by decide : 0 < 10000) (by omega : 10000 ≤ date.year)
  have hFirst := (hValid.table (by omega)).1
  rw [hValid.daynr_eq hYear] at hHigh
  omega

theorem daynr_leapDay : getDateFromDaynr 730544 = some ⟨2000, 2, 29⟩ :=
  (daynr_getDateFromDaynr.1 ⟨2000, 2, 29⟩ ⟨by decide, by decide⟩ (by decide) (by decide)).2

end MySQL.Time
