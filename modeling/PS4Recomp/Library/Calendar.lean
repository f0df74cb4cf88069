import Mathlib.Algebra.Order.Ring.Int
import Mathlib.Algebra.Order.SuccPred
import Mathlib.Order.Monotone.Basic
import Mathlib.Tactic.IntervalCases

/-!
# The proleptic Gregorian calendar

* `IsLeap`, `monthLength` — leap years and the days of a month;
* `Date`, `Date.Valid` — dates of any year;
* `yearStart`, `monthStart`, `Date.number` — the days before a year and a month, and the days from
  1970-01-01 to a date;
* `Date.number_lt` — a later date has a larger number, `Date.number_inj` — dates with one number are the same.
-/

namespace PS4Recomp.Library

/-- The leap years. -/
def IsLeap (y : ℤ) : Prop := y % 4 = 0 ∧ (y % 100 ≠ 0 ∨ y % 400 = 0)

instance (y : ℤ) : Decidable (IsLeap y) :=
  inferInstanceAs (Decidable (y % 4 = 0 ∧ (y % 100 ≠ 0 ∨ y % 400 = 0)))

/-- The days of a month. -/
def monthLength (y : ℤ) (m : ℕ) : ℤ :=
  if m = 2 then if IsLeap y then 29 else 28
  else if m = 4 ∨ m = 6 ∨ m = 9 ∨ m = 11 then 30 else 31

/-- A date. -/
structure Date where
  year : ℤ
  month : ℕ
  day : ℕ
  deriving DecidableEq, Repr

/-- The days from 0001-01-01 to the start of a year. -/
def yearStart (y : ℤ) : ℤ := 365 * (y - 1) + (y - 1) / 4 - (y - 1) / 100 + (y - 1) / 400

/-- The days of a year before a month. -/
def monthStart (y : ℤ) : ℕ → ℤ
  | 0 => 0
  | m + 1 => monthStart y m + if m = 0 then 0 else monthLength y m

namespace Date

/-- A day that the calendar has. -/
def Valid (d : Date) : Prop :=
  1 ≤ d.month ∧ d.month ≤ 12 ∧ 1 ≤ d.day ∧ (d.day : ℤ) ≤ monthLength d.year d.month

instance (d : Date) : Decidable d.Valid :=
  inferInstanceAs (Decidable (1 ≤ d.month ∧ d.month ≤ 12 ∧ 1 ≤ d.day ∧ (d.day : ℤ) ≤ monthLength d.year d.month))

/-- The days from 1970-01-01. -/
def number (d : Date) : ℤ := yearStart d.year + monthStart d.year d.month + d.day - 719163

/-- The order of dates. -/
def Before (a b : Date) : Prop :=
  a.year < b.year ∨ a.year = b.year ∧ (a.month < b.month ∨ a.month = b.month ∧ a.day < b.day)

end Date

theorem yearStart_succ (y : ℤ) : yearStart (y + 1) = yearStart y + 365 + if IsLeap y then 1 else 0 := by
  by_cases h : IsLeap y
  · rw [if_pos h, yearStart, yearStart]
    rw [IsLeap] at h
    omega
  · rw [if_neg h, yearStart, yearStart]
    rw [IsLeap] at h
    omega

theorem yearStart_le {y z : ℤ} (h : y ≤ z) : yearStart y ≤ yearStart z := by
  refine monotone_int_of_le_succ (fun y => ?_) h
  rw [yearStart_succ]
  split
  · omega
  · omega

theorem monthLength_pos (y : ℤ) (m : ℕ) : 28 ≤ monthLength y m := by
  simp only [monthLength]
  split_ifs
  all_goals omega

theorem monthStart_le (y : ℤ) {m n : ℕ} (h : m ≤ n) : monthStart y m ≤ monthStart y n := by
  refine monotone_nat_of_le_succ (fun m => ?_) h
  rw [monthStart]
  have hpos := monthLength_pos y m
  split
  · omega
  · omega

theorem monthStart_cases (y : ℤ) : monthStart y 1 = 0 ∧ monthStart y 2 = 31 ∧
    ∀ m, 3 ≤ m → m ≤ 13 →
      monthStart y m = (if IsLeap y then 60 else 59) + (153 * ((m : ℤ) - 3) + 2) / 5 := by
  refine ⟨rfl, rfl, fun m hm hle => ?_⟩
  by_cases hy : IsLeap y
  · interval_cases m
    all_goals simp only [monthStart, monthLength, hy]; norm_num
  · interval_cases m
    all_goals simp only [monthStart, monthLength, hy]; norm_num

namespace Date

variable {a b : Date}

theorem Valid.bounds (h : a.Valid) : monthStart a.year a.month + a.day ≤ monthStart a.year (a.month + 1) ∧
    monthStart a.year (a.month + 1) ≤ 365 + if IsLeap a.year then 1 else 0 := by
  obtain ⟨hm, hmle, hd, hdle⟩ := h
  constructor
  · rw [monthStart, if_neg (by omega)]
    omega
  · refine (monthStart_le _ (by omega : a.month + 1 ≤ 13)).trans ?_
    rw [(monthStart_cases a.year).2.2 13 (by decide) le_rfl]
    split
    · decide
    · decide

/-- **A later date has a larger number.** -/
theorem number_lt (ha : a.Valid) (hb : b.Valid) (h : a.Before b) : a.number < b.number := by
  obtain ⟨hin, hyear⟩ := ha.bounds
  have hbday := hb.2.2.1
  rw [number, number]
  rcases h with hlt | ⟨heq, hlt | ⟨hmonth, hlt⟩⟩
  · have hstart := yearStart_le (Int.add_one_le_of_lt hlt)
    have hmonth := monthStart_le b.year (Nat.zero_le b.month)
    rw [yearStart_succ] at hstart
    rw [monthStart] at hmonth
    omega
  · have hmonth : monthStart a.year (a.month + 1) ≤ monthStart a.year b.month := monthStart_le _ hlt
    rw [← heq]
    omega
  · rw [← heq, ← hmonth]
    omega

theorem before_of_ne (h : a ≠ b) : a.Before b ∨ b.Before a := by
  obtain ⟨y, m, d⟩ := a
  obtain ⟨y', m', d'⟩ := b
  simp only [ne_eq, Date.mk.injEq] at h
  simp only [Before]
  omega

theorem number_inj (ha : a.Valid) (hb : b.Valid) (h : a.number = b.number) : a = b := by
  by_contra hne
  rcases before_of_ne hne with hlt | hlt
  · exact absurd h (number_lt ha hb hlt).ne
  · exact absurd h (number_lt hb ha hlt).ne'

end Date

end PS4Recomp.Library
