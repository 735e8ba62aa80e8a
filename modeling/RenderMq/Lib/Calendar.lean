import Mathlib.Algebra.BigOperators.Group.List.Basic
import Mathlib.Algebra.GroupWithZero.Nat
import Mathlib.Algebra.Order.Group.Int
import Mathlib.Algebra.Ring.Int.Defs
import Mathlib.Data.Int.ConditionallyCompleteOrder
import Mathlib.Order.SuccPred.Archimedean

/-!
# The calendar

Days are counted from the first day of the year zero. A date is a year, a month and a day, the last two
from zero, and there is no date that is not in the calendar.

The date of a day is found by its year and then by the lengths of the months. `toDay_ofDay` says that
this date is of no other day.
-/

namespace Calendar

/-! ## Years -/

def isLeap (year : Int) : Bool :=
  decide (year % 4 = 0) && (decide (year % 100 ≠ 0) || decide (year % 400 = 0))

def yearLength (year : Int) : Int := if isLeap year then 366 else 365

/-- The first day of a year. -/
def yearStart (year : Int) : Int :=
  365 * year + (year + 3) / 4 - (year + 99) / 100 + (year + 399) / 400

theorem isLeap_iff (year : Int) :
    isLeap year = true ↔ year % 4 = 0 ∧ (year % 100 ≠ 0 ∨ year % 400 = 0) := by
  simp [isLeap]

theorem yearStart_succ (year : Int) : yearStart (year + 1) = yearStart year + yearLength year := by
  unfold yearStart yearLength
  split
  · next hleap =>
    have hleap := (isLeap_iff year).mp hleap
    omega
  · next hleap =>
    have hleap := mt (isLeap_iff year).mpr hleap
    omega

theorem yearStart_strictMono : StrictMono yearStart := by
  refine strictMono_int_of_lt_succ fun year => ?_
  rw [yearStart_succ]
  unfold yearLength
  split
  · omega
  · omega

/-- The year of a day. The first guess is too early by a year at most. -/
def yearOf (day : Int) : Int :=
  let guess := 400 * (day - 1) / 146097
  if day < yearStart (guess + 1) then guess else guess + 1

theorem yearOf_spec (day : Int) : yearStart (yearOf day) ≤ day ∧ day < yearStart (yearOf day + 1) := by
  have hlow : yearStart (400 * (day - 1) / 146097) ≤ day := by
    unfold yearStart
    omega
  have hhigh : day < yearStart (400 * (day - 1) / 146097 + 1 + 1) := by
    unfold yearStart
    omega
  unfold yearOf
  dsimp only
  split
  · next hday => exact ⟨hlow, hday⟩
  · next hday => exact ⟨not_lt.mp hday, hhigh⟩

theorem le_yearOf_iff (year day : Int) : year ≤ yearOf day ↔ yearStart year ≤ day := by
  obtain ⟨hlow, hhigh⟩ := yearOf_spec day
  constructor
  · exact fun h => (yearStart_strictMono.monotone h).trans hlow
  · exact fun h => Int.lt_add_one_iff.mp (yearStart_strictMono.lt_iff_lt.mp (h.trans_lt hhigh))

/-! ## Months -/

def monthLengths (leap : Bool) : List Nat :=
  [31, if leap then 29 else 28, 31, 30, 31, 30, 31, 31, 30, 31, 30, 31]

theorem sum_monthLengths (year : Int) : ((monthLengths (isLeap year)).sum : Int) = yearLength year := by
  unfold yearLength
  cases isLeap year with
  | false => rfl
  | true => rfl

/-- The place of a number in sections of some lengths, one after the other. -/
def locate : List Nat → Nat → Nat × Nat
  | [], n => (0, n)
  | size :: sizes, n =>
    if n < size then (0, n) else ((locate sizes (n - size)).1 + 1, (locate sizes (n - size)).2)

theorem locate_lt {sizes : List Nat} {n : Nat} (h : n < sizes.sum) :
    ∃ size, sizes[(locate sizes n).1]? = some size ∧ (locate sizes n).2 < size := by
  induction sizes generalizing n with
  | nil => cases h
  | cons size sizes ih =>
    rw [List.sum_cons] at h
    rw [locate]
    split
    · next hn => exact ⟨size, rfl, hn⟩
    · next hn => exact ih (by omega)

theorem sum_take_locate (sizes : List Nat) (n : Nat) :
    (sizes.take (locate sizes n).1).sum + (locate sizes n).2 = n := by
  induction sizes generalizing n with
  | nil => exact Nat.zero_add n
  | cons size sizes ih =>
    rw [locate]
    split
    · exact Nat.zero_add n
    · next hn =>
      rw [List.take_succ_cons, List.sum_cons, Nat.add_assoc, ih]
      omega

/-! ## Dates -/

/-- A date. The first month is zero, and so is the first day of a month. -/
structure Date where
  year : Int
  month : Nat
  day : Nat
  inMonth : ∃ length, (monthLengths (isLeap year))[month]? = some length ∧ day < length

theorem Date.month_lt (date : Date) : date.month < 12 := by
  obtain ⟨length, hlength, _⟩ := date.inMonth
  obtain ⟨hlt, _⟩ := List.getElem?_eq_some_iff.mp hlength
  exact hlt

theorem Date.day_lt (date : Date) : date.day < 31 := by
  obtain ⟨length, hlength, hday⟩ := date.inMonth
  have hshort : ∀ leap, ∀ n ∈ monthLengths leap, n ≤ 31 := by decide
  exact lt_of_lt_of_le hday (hshort _ _ (List.mem_of_getElem? hlength))

/-- The first day of a month. -/
def monthStart (year : Int) (month : Nat) : Int :=
  yearStart year + ((monthLengths (isLeap year)).take month).sum

def Date.toDay (date : Date) : Int := monthStart date.year date.month + date.day

/-- The day of the year. -/
def dayOfYear (day : Int) : Nat := (day - yearStart (yearOf day)).toNat

theorem dayOfYear_lt (day : Int) : dayOfYear day < (monthLengths (isLeap (yearOf day))).sum := by
  obtain ⟨hlow, hhigh⟩ := yearOf_spec day
  have hlength := sum_monthLengths (yearOf day)
  rw [yearStart_succ] at hhigh
  unfold dayOfYear
  omega

/-- The date of a day. -/
def ofDay (day : Int) : Date where
  year := yearOf day
  month := (locate (monthLengths (isLeap (yearOf day))) (dayOfYear day)).1
  day := (locate (monthLengths (isLeap (yearOf day))) (dayOfYear day)).2
  inMonth := locate_lt (dayOfYear_lt day)

/-- **The calendar.** A day is the day of its date. -/
theorem toDay_ofDay (day : Int) : (ofDay day).toDay = day := by
  have hplace := sum_take_locate (monthLengths (isLeap (yearOf day))) (dayOfYear day)
  have hlow := (yearOf_spec day).1
  have hday : (dayOfYear day : Int) = day - yearStart (yearOf day) := by
    unfold dayOfYear
    omega
  unfold Date.toDay monthStart ofDay
  dsimp only
  omega

/-- The day of the week, from a Sunday on. -/
def weekday (day : Int) : Nat := ((day + 6) % 7).toNat

theorem weekday_lt (day : Int) : weekday day < 7 := by
  unfold weekday
  omega

example : ((ofDay 728603).year, (ofDay 728603).month, (ofDay 728603).day, weekday 728603) =
    (1994, 10, 5, 0) := by decide

end Calendar
