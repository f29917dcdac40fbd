import HaoSys.Lib.Calendar

/-!
# The real time clock (`driver/rtc.c`)

`daysFromCivil` is the source's closed form for the number of a day. It mixes
`int` and `unsigned`: the year is counted from March, in eras of 400 years.
-/

namespace HaoSys.Driver

open HaoSys.Lib.Calendar

/-- `days_from_civil`. The `-3` becomes unsigned in the sum with `m`. -/
def daysFromCivil (y : Int32) (m d : UInt32) : Int64 :=
  let y := y - (if m ≤ 2 then 1 else 0)
  let era := (if 0 ≤ y then y else y - 399) / 400
  let yoe := (y - era * 400).toUInt32
  let doy := (153 * (m + (if m > 2 then -3 else 9)) + 2) / 5 + d - 1
  let doe := yoe * 365 + yoe / 4 - yoe / 100 + doy
  era.toInt64 * 146097 + doe.toUInt64.toInt64 - 719468

/-- No `int` of `daysFromCivil` overflows: `y - 1` in January and February, `y - 399` before
year 0. -/
def YearFits (y : Int32) (m : UInt32) : Prop :=
  -2 ^ 31 ≤ y.toInt - (if m ≤ 2 then 1 else 0) - 399

/-! ## The parts of the closed form -/

/-- The year that starts in March. -/
def marchYear (y : Int) (m : Nat) : Int := if m ≤ 2 then y - 1 else y

/-- The month, counted from March. -/
def marchMonth (m : Nat) : Nat := if m ≤ 2 then m + 9 else m - 3

theorem int32_toInt_sub {a b : Int32}
    (h : -2 ^ 31 ≤ a.toInt - b.toInt ∧ a.toInt - b.toInt < 2 ^ 31) :
    (a - b).toInt = a.toInt - b.toInt := by
  rw [Int32.toInt_sub, Int.bmod_eq_of_le (by omega) (by omega)]

theorem int32_toUInt32_toNat {a : Int32} (h : 0 ≤ a.toInt) :
    (a.toUInt32.toNat : Int) = a.toInt := by
  have hle : (0 : Int32) ≤ a := Int32.le_iff_toInt_le.mpr h
  rw [Int32.toNat_toUInt32_of_le hle]
  exact Int.toNat_of_nonneg h

theorem yearFits_iff {y : Int32} {m : UInt32} :
    YearFits y m ↔ -2 ^ 31 ≤ marchYear y.toInt m.toNat - 399 := by
  have hm : m ≤ 2 ↔ m.toNat ≤ 2 := UInt32.le_iff_toNat_le
  unfold YearFits marchYear
  by_cases h2 : m.toNat ≤ 2
  · rw [if_pos (hm.mpr h2), if_pos h2]
  · rw [if_neg (mt hm.mp h2), if_neg h2, Int.sub_zero]

theorem toInt_year {y : Int32} {m : UInt32} (h : YearFits y m) :
    (y - (if m ≤ 2 then 1 else 0)).toInt = marchYear y.toInt m.toNat := by
  have hlt := y.toInt_lt
  have hm : m ≤ 2 ↔ m.toNat ≤ 2 := UInt32.le_iff_toNat_le
  unfold YearFits at h
  unfold marchYear
  by_cases h2 : m.toNat ≤ 2
  · rw [if_pos (hm.mpr h2)] at h ⊢
    rw [if_pos h2, int32_toInt_sub ⟨by simp; omega, by simp; omega⟩]
    rfl
  · rw [if_neg (mt hm.mp h2), if_neg h2, Int32.sub_zero]

/-- `y >= 0 ? y : y - 399`, divided towards zero, is the quotient towards minus infinity. -/
theorem toInt_era {y : Int32} (h : -2 ^ 31 ≤ y.toInt - 399) :
    ((if 0 ≤ y then y else y - 399) / 400).toInt = y.toInt / 400 := by
  have hlt := y.toInt_lt
  have h0 : (0 : Int32) ≤ y ↔ 0 ≤ y.toInt := Int32.le_iff_toInt_le
  have h400 : (400 : Int32) ≠ -1 := by decide
  have hc : (400 : Int32).toInt = 400 := rfl
  rw [Int32.toInt_div_of_ne_right _ _ h400, hc]
  by_cases hy : 0 ≤ y.toInt
  · rw [if_pos (h0.mpr hy), Int.tdiv_eq_ediv_of_nonneg hy]
  · have hsub : (y - 399).toInt = y.toInt - 399 := int32_toInt_sub ⟨h, by
      have : (399 : Int32).toInt = 399 := rfl
      omega⟩
    have hsign : Int.sign 400 = 1 := rfl
    rw [if_neg (mt h0.mp hy), hsub, Int.tdiv_eq_ediv, hsign]
    split <;> omega

/-- The year of the era. -/
theorem toNat_yearOfEra {y era : Int32} (h : era.toInt = y.toInt / 400) :
    ((y - era * 400).toUInt32.toNat : Int) = y.toInt % 400 := by
  have hlt := y.toInt_lt
  have hle := y.le_toInt
  have hc : (400 : Int32).toInt = 400 := rfl
  -- the product lies within 400 of `y`, or below `-2 ^ 31`, where it wraps twice
  have hsub : (y - era * 400).toInt = y.toInt % 400 := by
    rw [Int32.toInt_sub, Int32.toInt_mul, Int.sub_bmod_bmod, hc, h,
      Int.bmod_eq_of_le (by omega) (by omega)]
    omega
  rw [int32_toUInt32_toNat (by omega), hsub]

/-- The day of the year, from the first of March. -/
theorem toNat_dayOfYear {m d : UInt32} (hm : 1 ≤ m.toNat ∧ m.toNat ≤ 12)
    (hd : 1 ≤ d.toNat ∧ d.toNat ≤ 31) :
    ((153 * (m + (if m > 2 then -3 else 9)) + 2) / 5 + d - 1).toNat =
      (153 * marchMonth m.toNat + 2) / 5 + d.toNat - 1 := by
  have hmonth : (m + (if m > 2 then -3 else 9)).toNat = marchMonth m.toNat := by
    have h2 : m > 2 ↔ 2 < m.toNat := UInt32.lt_iff_toNat_lt
    unfold marchMonth
    by_cases h : 2 < m.toNat
    · rw [if_pos (h2.mpr h), if_neg (by omega), UInt32.toNat_add]
      have h3 : (-3 : UInt32).toNat = 2 ^ 32 - 3 := rfl
      omega
    · rw [if_neg (mt h2.mp h), if_pos (by omega), UInt32.toNat_add]
      have h9 : (9 : UInt32).toNat = 9 := rfl
      omega
  have hlt : marchMonth m.toNat ≤ 11 := by
    unfold marchMonth
    split <;> omega
  have hscaled : (153 * (m + (if m > 2 then -3 else 9)) + 2).toNat =
      153 * marchMonth m.toNat + 2 := by
    have h153 : (153 : UInt32).toNat = 153 := rfl
    have h2 : (2 : UInt32).toNat = 2 := rfl
    rw [UInt32.toNat_add, UInt32.toNat_mul, hmonth, h153, h2]
    omega
  have hsum : ((153 * (m + (if m > 2 then -3 else 9)) + 2) / 5 + d).toNat =
      (153 * marchMonth m.toNat + 2) / 5 + d.toNat := by
    have h5 : (5 : UInt32).toNat = 5 := rfl
    rw [UInt32.toNat_add, UInt32.toNat_div, hscaled, h5, Nat.mod_eq_of_lt (by omega)]
  have hone : (1 : UInt32).toNat = 1 := rfl
  rw [UInt32.toNat_sub_of_le _ _ (UInt32.le_iff_toNat_le.mpr (by omega)), hsum, hone]

/-- The day of the era. -/
theorem toNat_dayOfEra {yoe doy : UInt32} (hy : yoe.toNat < 400) (hd : doy.toNat < 400) :
    (yoe * 365 + yoe / 4 - yoe / 100 + doy).toNat =
      yoe.toNat * 365 + yoe.toNat / 4 - yoe.toNat / 100 + doy.toNat := by
  have h365 : (yoe * 365).toNat = yoe.toNat * 365 := by
    have hc : (365 : UInt32).toNat = 365 := rfl
    rw [UInt32.toNat_mul, hc, Nat.mod_eq_of_lt (by omega)]
  have h4 : (yoe / 4).toNat = yoe.toNat / 4 := UInt32.toNat_div _ _
  have h100 : (yoe / 100).toNat = yoe.toNat / 100 := UInt32.toNat_div _ _
  have hadd : (yoe * 365 + yoe / 4).toNat = yoe.toNat * 365 + yoe.toNat / 4 := by
    rw [UInt32.toNat_add, h365, h4, Nat.mod_eq_of_lt (by omega)]
  have hsub : (yoe * 365 + yoe / 4 - yoe / 100).toNat =
      yoe.toNat * 365 + yoe.toNat / 4 - yoe.toNat / 100 := by
    rw [UInt32.toNat_sub_of_le _ _ (UInt32.le_iff_toNat_le.mpr (by omega)), hadd, h100]
  rw [UInt32.toNat_add, hsub, Nat.mod_eq_of_lt (by omega)]

/-- The sum of `daysFromCivil`, in 64 bits. -/
theorem toInt_days {era : Int32} {doe : UInt32} :
    (era.toInt64 * 146097 + doe.toUInt64.toInt64 - 719468).toInt =
      era.toInt * 146097 + doe.toNat - 719468 := by
  have hlt := era.toInt_lt
  have hle := era.le_toInt
  have hd := doe.toNat_lt
  have hc : (146097 : Int64).toInt = 146097 := rfl
  have hc' : (719468 : Int64).toInt = 719468 := rfl
  have hdoe : doe.toUInt64.toInt64.toInt = doe.toNat := by
    have hwide : doe.toUInt64.toBitVec.toNat = doe.toNat := UInt32.toNat_toUInt64 doe
    change doe.toUInt64.toBitVec.toInt = doe.toNat
    rw [BitVec.toInt_eq_toNat_of_lt (by omega), hwide]
  rw [Int64.toInt_sub, Int64.toInt_add, Int64.toInt_mul, Int32.toInt_toInt64, hc, hc', hdoe,
    Int.bmod_add_bmod, Int.bmod_sub_bmod, Int.bmod_eq_of_le (by omega) (by omega)]

/-! ## Agreement with the calendar -/

/-- The closed form counts months and leap years from March. -/
theorem dayNumber_march (y : Int) {m : Nat} (hm : 1 ≤ m ∧ m ≤ 12) (d : Nat) :
    (⟨y, m, d⟩ : Date).dayNumber 1970 =
      365 * marchYear y m + leapYears (marchYear y m) +
        (153 * marchMonth m + 2) / 5 + d - 1 - 719468 := by
  unfold Date.dayNumber marchYear marchMonth
  simp only
  rw [daysBeforeYear_eq]
  have horigin : leapYears (1970 - 1) = 477 := by decide
  rw [horigin]
  have hleap := leapYears_pred y
  by_cases h2 : m ≤ 2
  · rw [if_pos h2, if_pos h2]
    have : m = 1 ∨ m = 2 := by omega
    rcases this with rfl | rfl
    · rw [daysBeforeMonth_one]
      omega
    · rw [daysBeforeMonth_two]
      omega
  · rw [if_neg h2, if_neg h2, daysBeforeMonth_march y ⟨by omega, hm.2⟩]
    omega

/-- **`days_from_civil` numbers the days**, also past the end of a month. -/
theorem toInt_daysFromCivil {y : Int32} {m d : UInt32} (hm : 1 ≤ m.toNat ∧ m.toNat ≤ 12)
    (hd : 1 ≤ d.toNat ∧ d.toNat ≤ 31) (hfits : YearFits y m) :
    (daysFromCivil y m d).toInt = (⟨y.toInt, m.toNat, d.toNat⟩ : Date).dayNumber 1970 := by
  have hyear := toInt_year hfits
  have hround : -2 ^ 31 ≤ (y - (if m ≤ 2 then 1 else 0)).toInt - 399 := by
    rw [hyear]
    exact yearFits_iff.mp hfits
  have hera := toInt_era hround
  have hyoe := toNat_yearOfEra hera
  have hdoy := toNat_dayOfYear hm hd
  have hmarch : marchMonth m.toNat ≤ 11 := by
    unfold marchMonth
    split <;> omega
  rw [hyear] at hera hyoe
  rw [dayNumber_march _ hm]
  unfold daysFromCivil leapYears
  simp only
  rw [toInt_days, toNat_dayOfEra (by omega) (by omega), hera, hdoy]
  omega

/-- If a year fits, so does that of the next date. -/
theorem yearFits_next {y y' : Int32} {m m' d d' : UInt32}
    (hnext : (⟨y'.toInt, m'.toNat, d'.toNat⟩ : Date) =
      (⟨y.toInt, m.toNat, d.toNat⟩ : Date).next) (hfits : YearFits y m) : YearFits y' m' := by
  have hmarch : marchYear y.toInt m.toNat ≤ marchYear y'.toInt m'.toNat := by
    unfold Date.next at hnext
    simp only at hnext
    unfold marchYear
    split at hnext
    · obtain ⟨hy, hmonth, -⟩ := Date.mk.inj hnext
      rw [hy, hmonth]
    · split at hnext <;> obtain ⟨hy, hmonth, -⟩ := Date.mk.inj hnext <;> rw [hy, hmonth]
      · split <;> split <;> omega
      · split <;> split <;> omega
  rw [yearFits_iff] at hfits ⊢
  omega

/-- **The days of `days_from_civil`.** For every date whose year fits the `int` expressions, the
result is the signed number of days from 1 January 1970, counted by the lengths of the months
with the 4/100/400 rule; and the next date has the next number. -/
theorem daysFromCivil_counts (y : Int32) (m d : UInt32)
    (hvalid : (⟨y.toInt, m.toNat, d.toNat⟩ : Date).Valid) (hfits : YearFits y m) :
    (daysFromCivil y m d).toInt = (⟨y.toInt, m.toNat, d.toNat⟩ : Date).dayNumber 1970 ∧
      ∀ y' m' d', (⟨y'.toInt, m'.toNat, d'.toNat⟩ : Date) =
          (⟨y.toInt, m.toNat, d.toNat⟩ : Date).next →
        (daysFromCivil y' m' d').toInt = (daysFromCivil y m d).toInt + 1 := by
  have hnumber : ∀ {y m d}, (⟨y.toInt, m.toNat, d.toNat⟩ : Date).Valid → YearFits y m →
      (daysFromCivil y m d).toInt = (⟨y.toInt, m.toNat, d.toNat⟩ : Date).dayNumber 1970 :=
    fun hvalid hfits => toInt_daysFromCivil hvalid.month
      ⟨hvalid.day.1, Nat.le_trans hvalid.day.2 (monthDays_bounds _ _).2⟩ hfits
  refine ⟨hnumber hvalid hfits, fun y' m' d' hnext => ?_⟩
  have hvalid' := hnext ▸ Date.valid_next hvalid
  rw [hnumber hvalid' (yearFits_next hnext hfits), hnumber hvalid hfits, hnext,
    Date.dayNumber_next 1970 hvalid]

/-- The leap day of 2000, and the day after it. -/
theorem daysFromCivil_counts_leap :
    (daysFromCivil 2000 2 29).toInt = 11016 ∧ (daysFromCivil 2000 3 1).toInt = 11016 + 1 := by
  have hvalid : (⟨(2000 : Int32).toInt, (2 : UInt32).toNat, (29 : UInt32).toNat⟩ : Date).Valid :=
    ⟨by decide, by decide⟩
  have hfits : YearFits 2000 2 := by
    unfold YearFits
    decide
  have hday : (daysFromCivil 2000 2 29).toInt = 11016 := by decide
  obtain ⟨-, hnext⟩ := daysFromCivil_counts 2000 2 29 hvalid hfits
  exact ⟨hday, hday ▸ hnext 2000 3 1 (by decide)⟩

end HaoSys.Driver
