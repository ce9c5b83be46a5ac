import Mathlib.Data.List.Basic
import Mathlib.Algebra.GroupWithZero.Nat

/-!
# Times of items

`dateAndTimeNow` writes the time of an item with the pattern `dd-MM-yyyy HH:MM`,
whose last field is the month again; the merge reads it with `dd-MM-yyyy HH:mm`.
The calendar is the Gregorian one in a fixed time zone, with minutes counted from
the first day of year 1.
-/

namespace ShopingList

/-- The fields of a moment of the wall clock. -/
structure Moment where
  year : Nat
  month : Nat
  day : Nat
  hour : Nat
  minute : Nat
  deriving DecidableEq, Repr

namespace Moment

def isLeap (year : Nat) : Bool := (year % 4 = 0 && year % 100 ≠ 0) || year % 400 = 0

def daysInMonth (year month : Nat) : Nat :=
  if month = 2 then (if isLeap year then 29 else 28)
  else if month = 4 ∨ month = 6 ∨ month = 9 ∨ month = 11 then 30
  else 31

def Valid (m : Moment) : Prop :=
  1 ≤ m.year ∧ 1 ≤ m.month ∧ m.month ≤ 12 ∧ 1 ≤ m.day ∧
    m.day ≤ daysInMonth m.year m.month ∧ m.hour < 24 ∧ m.minute < 60

instance (m : Moment) : Decidable m.Valid := inferInstanceAs (Decidable (_ ∧ _))

/-- Days of the year before the month. -/
def daysBefore (year month : Nat) : Nat :=
  ((List.range (month - 1)).map fun k => daysInMonth year (k + 1)).sum

/-- Minutes since the start of year 1. -/
def minutes (m : Moment) : Nat :=
  let y := m.year - 1
  let days := 365 * y + y / 4 - y / 100 + y / 400 + daysBefore m.year m.month + (m.day - 1)
  (days * 24 + m.hour) * 60 + m.minute

end Moment

/-- The last `width` decimal digits. -/
def digits : Nat → Nat → List Char
  | 0, _ => []
  | width + 1, n => digits width (n / 10) ++ [Char.ofNat ('0'.toNat + n % 10)]

/-- `yyyy`: four digits, or more for a later year. -/
def yearDigits (year : Nat) : List Char := digits (max 4 (Nat.toDigits 10 year).length) year

/-- The decimal number, if there are only digits. -/
def number (cs : List Char) : Option Nat :=
  cs.foldl (fun n c => n.bind fun n =>
    if c.isDigit then some (10 * n + (c.toNat - '0'.toNat)) else none) (some 0)

namespace DateAndTime

def dateAndTimeNow (now : Moment) : String :=
  String.ofList (digits 2 now.day ++ '-' :: digits 2 now.month ++ '-' :: yearDigits now.year ++
    ' ' :: digits 2 now.hour ++ ':' :: digits 2 now.month)

end DateAndTime

/-- An `NSDate` object. -/
structure NSDate where
  addr : Nat
  instant : Nat
  deriving DecidableEq, Repr

/-- `dateFromString:` of a formatter for `dd-MM-yyyy HH:mm`; the date object is
made at `addr`, nil stands for a string that does not parse. -/
def dateFromString (addr : Nat) (string : Option String) : Option NSDate :=
  match string.map String.toList with
  | some (d1 :: d2 :: '-' :: m1 :: m2 :: '-' :: rest) =>
    -- the year has at least four digits, the fields after it have two
    match rest.reverse with
    | n2 :: n1 :: ':' :: h2 :: h1 :: ' ' :: y4 :: y3 :: y2 :: y1 :: years => do
      let m : Moment := ⟨← number (years.reverse ++ [y1, y2, y3, y4]), ← number [m1, m2], ← number [d1, d2],
        ← number [h1, h2], ← number [n1, n2]⟩
      if m.Valid then return ⟨addr, m.minutes⟩ else none
    | _ => none
  | _ => none

/-- `a > b` on references to dates: the addresses are compared, nil is 0. -/
def pointerGt (a b : Option NSDate) : Bool :=
  decide ((b.map NSDate.addr).getD 0 < (a.map NSDate.addr).getD 0)

end ShopingList
