import Mathlib.Algebra.BigOperators.Intervals
import Mathlib.Tactic.IntervalCases

/-!
# The Gregorian calendar

Proleptic: the 4/100/400 rule holds of every year. A date is numbered by counting the lengths of
the months before it, from the first of January of a chosen year. `dayNumber_next` says that the
numbers follow each other, and `daysBeforeYear_eq` gives the count of whole years in closed form.
-/

namespace HaoSys.Lib.Calendar

open Finset

def IsLeap (y : Int) : Prop := 4 ∣ y ∧ (¬100 ∣ y ∨ 400 ∣ y)

instance : DecidablePred IsLeap := fun y =>
  inferInstanceAs (Decidable (4 ∣ y ∧ (¬100 ∣ y ∨ 400 ∣ y)))

/-- The length of month `m`, with January as month 1. -/
def monthDays (y : Int) (m : Nat) : Nat :=
  match m with
  | 2 => if IsLeap y then 29 else 28
  | 4 | 6 | 9 | 11 => 30
  | _ => 31

def daysBeforeMonth (y : Int) (m : Nat) : Nat := ∑ k ∈ Ico 1 m, monthDays y k

def yearDays (y : Int) : Nat := daysBeforeMonth y 13

/-- Signed: years before `origin` count backwards. -/
def daysBeforeYear (origin y : Int) : Int :=
  ∑ k ∈ range (y - origin).toNat, (yearDays (origin + k) : Int) -
    ∑ k ∈ range (origin - y).toNat, (yearDays (y + k) : Int)

structure Date where
  year : Int
  month : Nat
  day : Nat
  deriving DecidableEq

namespace Date

structure Valid (d : Date) : Prop where
  month : 1 ≤ d.month ∧ d.month ≤ 12
  day : 1 ≤ d.day ∧ d.day ≤ monthDays d.year d.month

def next (d : Date) : Date :=
  if d.day < monthDays d.year d.month then { d with day := d.day + 1 }
  else if d.month < 12 then ⟨d.year, d.month + 1, 1⟩
  else ⟨d.year + 1, 1, 1⟩

/-- The days from the first of January of `origin`. -/
def dayNumber (origin : Int) (d : Date) : Int :=
  daysBeforeYear origin d.year + daysBeforeMonth d.year d.month + d.day - 1

end Date

/-! ## Counting -/

theorem daysBeforeMonth_one (y : Int) : daysBeforeMonth y 1 = 0 := rfl

theorem daysBeforeMonth_succ (y : Int) {m : Nat} (hm : 1 ≤ m) :
    daysBeforeMonth y (m + 1) = daysBeforeMonth y m + monthDays y m :=
  sum_Ico_succ_top hm _

theorem daysBeforeYear_succ (origin y : Int) :
    daysBeforeYear origin (y + 1) = daysBeforeYear origin y + yearDays y := by
  unfold daysBeforeYear
  by_cases h : origin ≤ y
  · have hpast : (origin - (y + 1)).toNat = 0 ∧ (origin - y).toNat = 0 := by omega
    have hlast : (y + 1 - origin).toNat = (y - origin).toNat + 1 := by omega
    have hyear : origin + ((y - origin).toNat : Int) = y := by omega
    rw [hpast.1, hpast.2, hlast, sum_range_succ, hyear, sum_range_zero, sum_range_zero]
    omega
  · have hpast : (y + 1 - origin).toNat = 0 ∧ (y - origin).toNat = 0 := by omega
    have hfirst : (origin - y).toNat = (origin - (y + 1)).toNat + 1 := by omega
    have hshift : ∀ k : Nat, y + ((k + 1 : Nat) : Int) = y + 1 + (k : Int) := by
      intro k
      omega
    rw [hpast.1, hpast.2, hfirst, sum_range_succ']
    simp only [hshift, Nat.cast_zero, Int.add_zero]
    omega

theorem monthDays_bounds (y : Int) (m : Nat) : 28 ≤ monthDays y m ∧ monthDays y m ≤ 31 := by
  unfold monthDays
  split
  · split <;> omega
  all_goals omega

/-! ## From a date to the next -/

theorem Date.valid_next {d : Date} (h : d.Valid) : d.next.Valid := by
  obtain ⟨⟨hm, hm'⟩, hd, -⟩ := h
  unfold Date.next
  split
  · next hlt => exact ⟨⟨hm, hm'⟩, by simp only; omega, hlt⟩
  · split
    · next hlt =>
      have := monthDays_bounds d.year (d.month + 1)
      exact ⟨⟨by simp only; omega, hlt⟩, Nat.le_refl 1, by simp only; omega⟩
    · exact ⟨⟨Nat.le_refl 1, Nat.le_add_left 1 11⟩, Nat.le_refl 1, by simp [monthDays]⟩

/-- **The next date has the next number.** -/
theorem Date.dayNumber_next (origin : Int) {d : Date} (h : d.Valid) :
    d.next.dayNumber origin = d.dayNumber origin + 1 := by
  obtain ⟨⟨hm, hm'⟩, hd, hd'⟩ := h
  unfold Date.next Date.dayNumber
  split
  · simp only
    omega
  · next hlast =>
    have hmonth := daysBeforeMonth_succ d.year hm
    split
    · simp only [hmonth]
      omega
    · next h12 =>
      have hm12 : d.month = 12 := by omega
      have hyear := daysBeforeYear_succ origin d.year
      rw [hm12] at hmonth hlast hd' ⊢
      change yearDays d.year = _ at hmonth
      simp only [hyear, daysBeforeMonth_one, hmonth]
      omega

/-! ## Closed forms -/

/-- The day the leap years add to a year. -/
def leapDay (y : Int) : Nat := if IsLeap y then 1 else 0

/-- The leap years from year 1 to `y`. -/
def leapYears (y : Int) : Int := y / 4 - y / 100 + y / 400

theorem leapYears_pred (y : Int) : leapYears y = leapYears (y - 1) + leapDay y := by
  unfold leapYears leapDay
  split
  · next h =>
    unfold IsLeap at h
    omega
  · next h =>
    unfold IsLeap at h
    omega

theorem monthDays_march (y : Int) {m : Nat} (h : 3 ≤ m ∧ m ≤ 12) :
    (153 * (m - 3) + 2) / 5 + monthDays y m = (153 * (m - 2) + 2) / 5 ∨ m = 12 := by
  obtain ⟨h3, h12⟩ := h
  interval_cases m <;> simp [monthDays]

/-- From March on, `(153 * m + 2) / 5` counts the months of 31, 30, 31, 30, 31 days. -/
theorem daysBeforeMonth_march (y : Int) {m : Nat} (h : 3 ≤ m ∧ m ≤ 12) :
    daysBeforeMonth y m = 59 + leapDay y + (153 * (m - 3) + 2) / 5 := by
  obtain ⟨h3, h12⟩ := h
  induction m, h3 using Nat.le_induction with
  | base =>
    have hfeb := daysBeforeMonth_succ y (m := 2) (by omega)
    have hjan := daysBeforeMonth_succ y (m := 1) (by omega)
    rw [hfeb, hjan, daysBeforeMonth_one]
    unfold leapDay
    simp only [monthDays]
    split <;> rfl
  | succ m h3 ih =>
    have hmonth := monthDays_march y ⟨h3, by omega⟩
    rw [daysBeforeMonth_succ y (by omega), ih (by omega)]
    omega

theorem daysBeforeMonth_two (y : Int) : daysBeforeMonth y 2 = 31 := rfl

theorem yearDays_eq (y : Int) : yearDays y = 365 + leapDay y := by
  unfold yearDays
  rw [daysBeforeMonth_succ y (by decide), daysBeforeMonth_march y ⟨by decide, by decide⟩]
  simp only [monthDays]
  omega

/-- **Whole years**: 365 days each, and one for each leap year. -/
theorem daysBeforeYear_eq (origin y : Int) :
    daysBeforeYear origin y =
      365 * (y - origin) + leapYears (y - 1) - leapYears (origin - 1) := by
  have hstep : ∀ k, daysBeforeYear origin (k + 1) - daysBeforeYear origin k =
      365 + (leapYears k - leapYears (k - 1)) := by
    intro k
    rw [daysBeforeYear_succ, yearDays_eq, leapYears_pred k]
    omega
  induction y using Int.inductionOn' (b := origin) with
  | zero =>
    unfold daysBeforeYear
    rw [Int.sub_self]
    omega
  | succ k _ ih =>
    have := hstep k
    rw [Int.add_sub_cancel]
    omega
  | pred k _ ih =>
    have := hstep (k - 1)
    rw [Int.sub_add_cancel] at this
    omega

/-! ## A number has one year -/

theorem daysBeforeYear_mono (origin : Int) {y z : Int} (h : y ≤ z) :
    daysBeforeYear origin y ≤ daysBeforeYear origin z := by
  rw [daysBeforeYear_eq, daysBeforeYear_eq]
  unfold leapYears
  omega

/-- The days of a year, its last ones past the end of the month included. -/
theorem daysBeforeMonth_add_le (y : Int) {m d : Nat} (hm : 1 ≤ m ∧ m ≤ 12) (hd : d ≤ 31) :
    daysBeforeMonth y m + d ≤ yearDays y := by
  rw [yearDays_eq]
  by_cases h3 : 3 ≤ m
  · rw [daysBeforeMonth_march y ⟨h3, hm.2⟩]
    omega
  · have h12 : m = 1 ∨ m = 2 := by omega
    rcases h12 with rfl | rfl
    · rw [daysBeforeMonth_one]
      omega
    · rw [daysBeforeMonth_two]
      omega

/-- **Equal numbers lie in one year**, for dates that may run past the end of their month. -/
theorem Date.year_eq {origin : Int} {d e : Date} (hd : 1 ≤ d.month ∧ d.month ≤ 12)
    (hd' : 1 ≤ d.day ∧ d.day ≤ 31) (he : 1 ≤ e.month ∧ e.month ≤ 12)
    (he' : 1 ≤ e.day ∧ e.day ≤ 31) (h : d.dayNumber origin = e.dayNumber origin) :
    d.year = e.year := by
  have hdlast := daysBeforeMonth_add_le d.year hd hd'.2
  have helast := daysBeforeMonth_add_le e.year he he'.2
  have hdyear := daysBeforeYear_succ origin d.year
  have heyear := daysBeforeYear_succ origin e.year
  unfold Date.dayNumber at h
  rcases Int.lt_trichotomy d.year e.year with hlt | heq | hgt
  · have := daysBeforeYear_mono origin (Int.add_one_le_of_lt hlt)
    omega
  · exact heq
  · have := daysBeforeYear_mono origin (Int.add_one_le_of_lt hgt)
    omega

end HaoSys.Lib.Calendar
