import MetadataArchive.Time.Instant
import Mathlib.Tactic.Common
import Mathlib.Tactic.IntervalCases

/-!
# The calendar

Every day number has its date in the calendar (`Day.isValid_ofEpochDay`), and that date has its
number (`Day.toEpochDay_ofEpochDay`). The years of an era of four centuries begin at whole numbers
of days (`yearStart`), and the year of a day is the last one that has begun by then; within the year
the month and the day are looked up among 366 days.
-/

set_option autoImplicit false

namespace MetadataArchive.Day

/-- The day of the era on which a year begins, counted from March. -/
def yearStart (y : Int) : Int := 365 * y + y / 4 - y / 100

/-- The days of an era without its leap days, that is 365 for each year that is over. -/
def commonDays (n : Int) : Int := n - n / 1460 + n / 36524 - n / 146096

theorem commonDays_mono {m n : Int} (h : m ≤ n) : commonDays m ≤ commonDays n := by
  have hcentury : m / 36524 ≤ n / 36524 := Int.ediv_le_ediv (by decide) h
  have hera (k : Int) : k / 146096 = k / 36524 / 4 := by
    rw [Int.ediv_ediv_of_nonneg (by decide)]
    rfl
  simp only [commonDays, hera]
  omega

theorem commonDays_yearStart : ∀ y < 400, 365 * (y : Nat) ≤ commonDays (yearStart y) ∧
    (0 < y → commonDays (yearStart (y : Nat) - 1) < 365 * (y : Nat)) := by
  decide +kernel

/-- The year of a day of an era is the last that has begun. -/
theorem yearStart_le {n y : Int} (hn : 0 ≤ n) (hn' : n < 146097) (hy : commonDays n / 365 = y) :
    0 ≤ y ∧ y < 400 ∧ yearStart y ≤ n ∧ (y < 399 → n < yearStart (y + 1)) := by
  have hbounds : 0 ≤ y ∧ y < 400 := by
    have hzero : commonDays 0 ≤ commonDays n := commonDays_mono hn
    have hlast : commonDays n ≤ commonDays 146096 := commonDays_mono (by omega)
    rw [show commonDays 0 = 0 by decide] at hzero
    rw [show commonDays 146096 = 145999 by decide] at hlast
    omega
  obtain ⟨k, rfl⟩ := Int.eq_ofNat_of_zero_le hbounds.1
  refine ⟨hbounds.1, hbounds.2, Int.not_lt.1 fun hlt => ?_, fun hlt => Int.not_le.1 fun hle => ?_⟩
  · -- The day before the year begins has too few common days.
    have hpos : 0 < k := Nat.pos_of_ne_zero fun hzero => by
      subst hzero
      have hstart : yearStart (0 : Nat) = 0 := by decide
      omega
    have hmono : commonDays n ≤ commonDays (yearStart k - 1) := commonDays_mono (by omega)
    have hbefore := (commonDays_yearStart k (by omega)).2 hpos
    omega
  · have hmono : commonDays (yearStart (k + 1)) ≤ commonDays n := commonDays_mono hle
    have hnext := (commonDays_yearStart (k + 1) (by omega)).1
    simp only [Int.natCast_add, Int.natCast_one] at hnext
    omega

/-- The month of a day of a year, counted from March. -/
def monthOf (day : Int) : Int := (5 * day + 2) / 153

/-- The day of the year on which a month begins. -/
def monthStart (month : Int) : Int := (153 * month + 2) / 5

/-- The length of a month, counted from March, where the last one has 29 days. -/
def longMonth (month : Int) : Int :=
  if month = 1 ∨ month = 3 ∨ month = 6 ∨ month = 8 then 30 else if month = 11 then 29 else 31

theorem monthOf_spec : ∀ day < 366, 0 ≤ monthOf (day : Nat) ∧ monthOf (day : Nat) ≤ 11 ∧
    0 ≤ (day : Nat) - monthStart (monthOf (day : Nat)) ∧
    (day : Nat) - monthStart (monthOf (day : Nat)) < longMonth (monthOf (day : Nat)) ∧
    ((day : Nat) - monthStart (monthOf (day : Nat)) = 28 → monthOf (day : Nat) = 11 →
      day = 365) := by
  decide +kernel

/-- The parts of a day number: the era, the year in it, the month and the day, all counted from
March and from zero. -/
theorem ofEpochDay_parts (n : Int) : ∃ era y month day : Int,
    0 ≤ y ∧ y < 400 ∧ 0 ≤ month ∧ month ≤ 11 ∧ 0 ≤ day ∧ day < longMonth month ∧
    (day = 28 → month = 11 → isLeapYear (y + era * 400 + 1) = true) ∧
    n = era * 146097 + yearStart y + monthStart month + day - 719468 ∧
    ofEpochDay n = ⟨y + era * 400 + (if month < 10 then 0 else 1),
      (if month < 10 then month + 3 else month - 9).toNat, (day + 1).toNat⟩ := by
  have hunfold : ofEpochDay n =
      let era := (n + 719468).fdiv 146097
      let y := commonDays (n + 719468 - era * 146097) / 365
      let day := n + 719468 - era * 146097 - yearStart y
      let month := if monthOf day < 10 then monthOf day + 3 else monthOf day - 9
      ⟨if month ≤ 2 then y + era * 400 + 1 else y + era * 400, month.toNat,
        (day - monthStart (monthOf day) + 1).toNat⟩ := rfl
  have hera : (n + 719468).fdiv 146097 = (n + 719468) / 146097 :=
    Int.fdiv_eq_ediv_of_nonneg _ (by decide)
  dsimp only at hunfold
  rw [hera] at hunfold
  generalize hera' : (n + 719468) / 146097 = era at hunfold
  generalize hy : commonDays (n + 719468 - era * 146097) / 365 = y at hunfold
  obtain ⟨hy₀, hy₁, hstart, hnext⟩ := yearStart_le (by omega) (by omega) hy
  have hlength : n + 719468 - era * 146097 - yearStart y < 366 ∧
      (n + 719468 - era * 146097 - yearStart y = 365 → isLeapYear (y + era * 400 + 1) = true) := by
    have hquarter : (y + 1) / 4 = if (y + 1) % 4 = 0 then y / 4 + 1 else y / 4 := by
      split <;> omega
    have hcentury : (y + 1) / 100 = if (y + 1) % 100 = 0 then y / 100 + 1 else y / 100 := by
      split <;> omega
    have hleap : isLeapYear (y + era * 400 + 1) = true ↔
        (y + 1) % 4 = 0 ∧ ((y + 1) % 100 ≠ 0 ∨ y = 399) := by
      simp only [isLeapYear, Bool.and_eq_true, Bool.or_eq_true, decide_eq_true_eq]
      omega
    rw [hleap]
    simp only [yearStart, hquarter, hcentury] at hstart hnext ⊢
    clear hy
    split at hnext <;> split at hnext <;> omega
  obtain ⟨k, hk⟩ := Int.eq_ofNat_of_zero_le
    (show 0 ≤ n + 719468 - era * 146097 - yearStart y by omega)
  rw [hk] at hunfold hlength
  obtain ⟨hmonth, hmonth', hday, hday', hlast⟩ := monthOf_spec k (by omega)
  refine ⟨era, y, monthOf k, k - monthStart (monthOf k), hy₀, hy₁, hmonth, hmonth', hday, hday',
    fun h h' => hlength.2 (by have := hlast h h'; omega), by omega, ?_⟩
  rw [hunfold]
  split <;> simp only [Day.mk.injEq, and_true] <;> split <;> omega

/-- **A day number is that of its date.** -/
theorem toEpochDay_ofEpochDay (n : Int) : (ofEpochDay n).toEpochDay = n := by
  obtain ⟨era, y, month, day, hy, hy', hmonth, hmonth', hday, -, -, hn, hparts⟩ :=
    ofEpochDay_parts n
  have hunfold (year month day : Int) (hmonth : 0 ≤ month) (hday : 0 ≤ day) :
      toEpochDay ⟨year, month.toNat, day.toNat⟩ =
        let y := if month ≤ 2 then year - 1 else year
        let era := y.fdiv 400
        era * 146097 + (yearStart (y - era * 400) +
          (monthStart (if month ≤ 2 then month + 9 else month - 3) + day - 1)) - 719468 := by
    have hcast : month.toNat ≤ 2 ↔ month ≤ 2 := by omega
    simp only [toEpochDay, yearStart, monthStart, hcast, Int.toNat_of_nonneg hmonth,
      Int.toNat_of_nonneg hday]
    omega
  rw [hparts, hunfold _ _ _ (by split <;> omega) (by omega)]
  have hyear : (if (if month < 10 then month + 3 else month - 9) ≤ 2 then
      y + era * 400 + (if month < 10 then 0 else 1) - 1
    else y + era * 400 + (if month < 10 then 0 else 1)) = y + era * 400 := by
    split <;> split <;> omega
  have hmonth : (if (if month < 10 then month + 3 else month - 9) ≤ 2 then
      (if month < 10 then month + 3 else month - 9) + 9
    else (if month < 10 then month + 3 else month - 9) - 3) = month := by
    split <;> split <;> omega
  have hera : (y + era * 400).fdiv 400 = era := by
    rw [Int.fdiv_eq_ediv_of_nonneg _ (by decide)]
    omega
  dsimp only
  rw [hyear, hmonth, hera, Int.add_sub_cancel]
  omega

/-- **The date of a day number** is in the calendar, if its year is. -/
theorem isValid_ofEpochDay {n : Int} (h : yearInRange (ofEpochDay n).year = true) :
    (ofEpochDay n).isValid = true := by
  obtain ⟨era, y, month, day, -, -, hmonth, hmonth', hday, hday', hleap, -, hparts⟩ :=
    ofEpochDay_parts n
  simp only [isValid, h, Bool.true_and, Bool.and_eq_true, decide_eq_true_eq]
  rw [hparts]
  dsimp only
  refine ⟨⟨⟨by split <;> omega, by split <;> omega⟩, by omega⟩, ?_⟩
  obtain ⟨k, rfl⟩ := Int.eq_ofNat_of_zero_le hmonth
  have hk : k < 12 := by omega
  interval_cases k <;> simp [longMonth, daysInMonth] at hday' hleap ⊢ <;> try omega
  -- February has its twenty-ninth day in leap years only.
  cases hyear : isLeapYear (y + era * 400 + 1) with
  | true => exact Int.add_one_le_iff.2 hday'
  | false =>
    have hshort : day ≠ 28 := fun h => by simp [hyear] at hleap; exact hleap h
    simp only [Bool.false_eq_true, if_false]
    omega

end MetadataArchive.Day
