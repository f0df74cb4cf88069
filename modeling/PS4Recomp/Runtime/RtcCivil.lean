import PS4Recomp.Library.Calendar
import Mathlib.Tactic.NormNum
import Mathlib.Tactic.Ring

/-!
# Seconds to a civil date

`rtc_civil_from_unix` of `ps4_rtc_extras.c`.

* `int64` — a value of `int64_t`, unless the signed operation overflows;
* `OrbisDateTime`, `OrbisDateTime.Valid`, `OrbisDateTime.unix` — the result, a time the clock shows, and its
  seconds since 1970;
* `rtcCivilFromUnix` — the function; the operations on values no remainder bounds are checked for overflow;
* `yearOfEra_spec` — the year of an era of 400 years, and the day of the year;
* **`rtcCivilFromUnix_spec`** — the date is the one of the calendar.
-/

namespace PS4Recomp.Runtime.Rtc

open Library

/-- The numbers of `int64_t`. -/
def InInt64 (v : ℤ) : Prop := -2 ^ 63 ≤ v ∧ v < 2 ^ 63

instance (v : ℤ) : Decidable (InInt64 v) := inferInstanceAs (Decidable (-2 ^ 63 ≤ v ∧ v < 2 ^ 63))

/-- The result of a signed operation; an overflow is undefined. -/
def int64 (v : ℤ) : Option ℤ := if InInt64 v then some v else none

/-- `OrbisDateTime`. -/
structure OrbisDateTime where
  year : ℕ
  month : ℕ
  day : ℕ
  hour : ℕ
  minute : ℕ
  second : ℕ
  microsecond : ℕ := 0
  deriving DecidableEq, Repr

/-- A conversion to `uint16_t`. -/
def uint16 (v : ℤ) : ℕ := (v % 2 ^ 16).toNat

/-- `rtc_civil_from_unix`: `none` within is its `false`, `none` outside an overflow. -/
def rtcCivilFromUnix (secs : ℤ) : Option (Option OrbisDateTime) := do
  let q := secs.tdiv 86400
  let r := secs.tmod 86400
  let rem ← (if r < 0 then int64 (r + 86400) else some r)
  let days ← (if r < 0 then int64 (q - 1) else some q)
  let z ← int64 (days + 719468)
  let zera ← (if 0 ≤ z then some z else int64 (z - 146096))
  let era := zera.tdiv 146097
  let eraDays ← int64 (era * 146097)
  let doe ← int64 (z - eraDays)
  let yoe := (doe - doe.tdiv 1460 + doe.tdiv 36524 - doe.tdiv 146096).tdiv 365
  let y ← int64 (yoe + era * 400)
  let doy ← int64 (doe - (365 * yoe + yoe.tdiv 4 - yoe.tdiv 100))
  let mp := (5 * doy + 2).tdiv 153
  let d := doy - (153 * mp + 2).tdiv 5 + 1
  let m := if mp < 10 then mp + 3 else mp - 9
  let y ← (if m ≤ 2 then int64 (y + 1) else some y)
  if y < 1 ∨ 9999 < y then some none
  else some (some
    { year := uint16 y, month := uint16 m, day := uint16 d, hour := uint16 (rem.tdiv 3600),
      minute := uint16 ((rem.tmod 3600).tdiv 60), second := uint16 (rem.tmod 60) })

namespace OrbisDateTime

/-- The date. -/
def date (t : OrbisDateTime) : Date := ⟨t.year, t.month, t.day⟩

/-- A time that the clock shows in the years 1 to 9999. -/
def Valid (t : OrbisDateTime) : Prop :=
  1 ≤ t.year ∧ t.year ≤ 9999 ∧ t.date.Valid ∧ t.hour < 24 ∧ t.minute < 60 ∧ t.second < 60 ∧
    t.microsecond = 0

/-- The seconds since 1970-01-01. -/
def unix (t : OrbisDateTime) : ℤ := 86400 * t.date.number + 3600 * t.hour + 60 * t.minute + t.second

/-- The fields in the order in which times are compared. -/
def fields (t : OrbisDateTime) : List ℕ := [t.year, t.month, t.day, t.hour, t.minute, t.second]

end OrbisDateTime

/-! ### the days of an era -/

theorem yearOfEra_spec {doe yoe : ℤ} (h0 : 0 ≤ doe) (h1 : doe < 146097)
    (h : yoe = (doe - doe / 1460 + doe / 36524 - doe / 146096) / 365) :
    0 ≤ yoe ∧ yoe < 400 ∧ 365 * yoe + yoe / 4 - yoe / 100 ≤ doe ∧
      doe < 365 * (yoe + 1) + (yoe + 1) / 4 - (yoe + 1) / 100 + (yoe + 1) / 400 := by
  obtain ⟨e, r, hr0, hr1, he, hdoe⟩ :
      ∃ e r : ℤ, 0 ≤ r ∧ r < 1460 ∧ doe / 1460 = e ∧ doe = 1460 * e + r :=
    ⟨doe / 1460, doe % 1460, by omega, by omega, rfl, by omega⟩
  obtain ⟨c, hc⟩ : ∃ c, doe / 36524 = c := ⟨_, rfl⟩
  obtain ⟨f, hf⟩ : ∃ f, doe / 146096 = f := ⟨_, rfl⟩
  rw [he, hc, hf] at h
  have hcentury : c = 0 ∨ c = 1 ∨ c = 2 ∨ c = 3 ∨ c = 4 := by omega
  have hlast : f = 0 ∧ doe < 146096 ∨ f = 1 ∧ doe = 146096 := by omega
  -- four years have 1460 days or 1461, so the year is near `4 * e`
  have hyear : yoe = 4 * e - 1 ∨ yoe = 4 * e ∨ yoe = 4 * e + 1 ∨ yoe = 4 * e + 2 ∨ yoe = 4 * e + 3 := by
    omega
  rcases hlast with ⟨rfl, hlt⟩ | ⟨rfl, rfl⟩
  · rcases hcentury with rfl | rfl | rfl | rfl | rfl
    all_goals rcases hyear with hyear | hyear | hyear | hyear | hyear
    all_goals omega
  · omega

/-- The date of a day, from the days since 1970. -/
def civilDate (days : ℤ) : Date :=
  let z := days + 719468
  let doe := z % 146097
  let yoe := (doe - doe / 1460 + doe / 36524 - doe / 146096) / 365
  let doy := doe - (365 * yoe + yoe / 4 - yoe / 100)
  let mp := (5 * doy + 2) / 153
  let m := if mp < 10 then mp + 3 else mp - 9
  { year := yoe + z / 146097 * 400 + if m ≤ 2 then 1 else 0
    month := m.toNat
    day := (doy - (153 * mp + 2) / 5 + 1).toNat }

theorem civilDate_parts (days : ℤ) : ∃ z era doe yoe doy mp : ℤ, z = days + 719468 ∧ era = z / 146097 ∧
    doe = z % 146097 ∧ yoe = (doe - doe / 1460 + doe / 36524 - doe / 146096) / 365 ∧
    doy = doe - (365 * yoe + yoe / 4 - yoe / 100) ∧ mp = (5 * doy + 2) / 153 ∧ civilDate days =
      { year := yoe + era * 400 + if (if mp < 10 then mp + 3 else mp - 9) ≤ 2 then 1 else 0
        month := (if mp < 10 then mp + 3 else mp - 9).toNat
        day := (doy - (153 * mp + 2) / 5 + 1).toNat } :=
  ⟨_, _, _, _, _, _, rfl, rfl, rfl, rfl, rfl, rfl, rfl⟩

theorem yearStart_era {yoe : ℤ} (h0 : 0 ≤ yoe) (h1 : yoe < 400) (era : ℤ) :
    yearStart (yoe + era * 400 + 1) = 365 * yoe + yoe / 4 - yoe / 100 + 146097 * era := by
  have h4 : (yoe + era * 400) / 4 = yoe / 4 + era * 100 := by omega
  have h100 : (yoe + era * 400) / 100 = yoe / 100 + era * 4 := by omega
  have h400 : (yoe + era * 400) / 400 = era := by omega
  rw [yearStart, add_sub_cancel_right, h4, h100, h400]
  ring

theorem isLeap_era (y era : ℤ) : IsLeap (y + era * 400 + 1) ↔ IsLeap (y + 1) := by
  rw [IsLeap, IsLeap]
  omega

theorem civilDate_spec (days : ℤ) : (civilDate days).Valid ∧ (civilDate days).number = days := by
  obtain ⟨z, era, doe, yoe, doy, mp, hz, hera, hdoe, hyoe, hdoy, hmp, hdate⟩ := civilDate_parts days
  obtain ⟨hy0, hy1, hlow, hhigh⟩ := yearOfEra_spec (by omega) (by omega) hyoe
  have hsum : z = 146097 * era + doe := by omega
  rw [hdate]
  have hnext := yearStart_era hy0 hy1 era
  have hend : doy < 365 + if IsLeap (yoe + era * 400 + 1) then 1 else 0 := by
    have hlen := yearStart_succ (yoe + 1)
    rw [yearStart, yearStart, add_sub_cancel_right, add_sub_cancel_right, Int.ediv_eq_zero_of_lt hy0 hy1] at hlen
    simp only [isLeap_era]
    omega
  have hmp0 : 0 ≤ mp := by omega
  obtain ⟨k, rfl⟩ := Int.eq_ofNat_of_zero_le hmp0
  by_cases hk : k < 10
  · -- March to December
    rw [if_neg (by rw [if_pos (by omega)]; omega), if_pos (by omega), add_zero]
    have hmonth : (((k : ℕ) : ℤ) + 3).toNat = k + 3 := by omega
    have hday : ((doy - (153 * (k : ℤ) + 2) / 5 + 1).toNat : ℤ) = doy - (153 * (k : ℤ) + 2) / 5 + 1 := by omega
    rw [hmonth]
    constructor
    · refine ⟨by simp, by simp only; omega, by simp only; omega, ?_⟩
      simp only [hday]
      interval_cases k
      all_goals simp only [monthLength]; norm_num; omega
    · rw [yearStart_succ] at hnext
      simp only [Date.number, hday]
      rw [(monthStart_cases _).2.2 (k + 3) (by omega) (by omega)]
      push_cast
      split at hnext
      · rename_i hleap
        rw [if_pos hleap]
        omega
      · rename_i hleap
        rw [if_neg hleap]
        omega
  · -- January and February, of the next year
    have hlast : k = 10 ∨ k = 11 := by omega
    have hday : ((doy - (153 * (k : ℤ) + 2) / 5 + 1).toNat : ℤ) = doy - (153 * (k : ℤ) + 2) / 5 + 1 := by omega
    rw [if_pos (by rw [if_neg (by omega)]; omega), if_neg (by omega)]
    rcases hlast with rfl | rfl
    · have hmonth : (((10 : ℕ) : ℤ) - 9).toNat = 1 := rfl
      have hoff : (153 * ((10 : ℕ) : ℤ) + 2) / 5 = 306 := rfl
      rw [hoff] at hday
      rw [hmonth, hoff]
      refine ⟨⟨le_rfl, (by decide : 1 ≤ 12), by simp only; omega, ?_⟩, ?_⟩
      · simp only [hday]
        exact (by omega : doy - 306 + 1 ≤ 31)
      · simp only [Date.number, hday, hnext, (monthStart_cases _).1]
        omega
    · have hmonth : (((11 : ℕ) : ℤ) - 9).toNat = 2 := rfl
      have hoff : (153 * ((11 : ℕ) : ℤ) + 2) / 5 = 337 := rfl
      rw [hoff] at hday
      rw [hmonth, hoff]
      refine ⟨⟨(by decide : 1 ≤ 2), (by decide : 2 ≤ 12), by simp only; omega, ?_⟩, ?_⟩
      · have hfeb : monthLength (yoe + era * 400 + 1) 2 =
            if IsLeap (yoe + era * 400 + 1) then 29 else 28 := rfl
        simp only [hday, hfeb]
        split at hend
        · rename_i hleap
          rw [if_pos hleap]
          omega
        · rename_i hleap
          rw [if_neg hleap]
          omega
      · simp only [Date.number, hday, hnext, (monthStart_cases _).2.1]
        omega

/-! ### the code -/

theorem int64_of {v : ℤ} (h : InInt64 v) : int64 v = some v := if_pos h

theorem uint16_of {v : ℤ} (h0 : 0 ≤ v) (h1 : v < 2 ^ 16) : uint16 v = v.toNat := by
  rw [uint16, Int.emod_eq_of_lt h0 h1]

/-- The quotient and the remainder of the code are those of the floor. -/
theorem floor_day (secs : ℤ) :
    (secs.tmod 86400 < 0 → secs.tmod 86400 + 86400 = secs % 86400 ∧ secs.tdiv 86400 - 1 = secs / 86400) ∧
      (¬ secs.tmod 86400 < 0 → secs.tmod 86400 = secs % 86400 ∧ secs.tdiv 86400 = secs / 86400) := by
  have hsum := Int.tmod_add_mul_tdiv secs 86400
  have hlt := Int.tmod_lt_of_pos secs (by decide : (0 : ℤ) < 86400)
  have hgt := Int.lt_tmod_of_pos secs (by decide : (0 : ℤ) < 86400)
  constructor
  · intro h
    omega
  · intro h
    omega

theorem floor_era (z : ℤ) : (if 0 ≤ z then z else z - 146096).tdiv 146097 = z / 146097 := by
  obtain ⟨a, ha⟩ : ∃ a, a = if 0 ≤ z then z else z - 146096 := ⟨_, rfl⟩
  rw [← ha]
  have hsum := Int.tmod_add_mul_tdiv a 146097
  have hlt := Int.tmod_lt_of_pos a (by decide : (0 : ℤ) < 146097)
  have hgt := Int.lt_tmod_of_pos a (by decide : (0 : ℤ) < 146097)
  split at ha
  · have hnonneg := Int.tmod_nonneg 146097 (by omega : 0 ≤ a)
    omega
  · have hneg : a.tmod 146097 ≤ 0 := by
      have hopp := Int.tmod_nonneg 146097 (by omega : 0 ≤ -a)
      rw [Int.neg_tmod] at hopp
      omega
    omega

theorem rtcCivilFromUnix_eq {secs : ℤ} (h : InInt64 secs) :
    rtcCivilFromUnix secs =
      some (if (civilDate (secs / 86400)).year < 1 ∨ 9999 < (civilDate (secs / 86400)).year then none
        else some
          { year := (civilDate (secs / 86400)).year.toNat, month := (civilDate (secs / 86400)).month
            day := (civilDate (secs / 86400)).day, hour := (secs % 86400 / 3600).toNat
            minute := (secs % 86400 % 3600 / 60).toNat, second := (secs % 86400 % 60).toNat }) := by
  obtain ⟨hneg, hpos⟩ := floor_day secs
  obtain ⟨days, hdays⟩ : ∃ days, days = secs / 86400 := ⟨_, rfl⟩
  obtain ⟨rem, hrem⟩ : ∃ rem, rem = secs % 86400 := ⟨_, rfl⟩
  rw [← hdays, ← hrem] at hneg hpos ⊢
  have hrange : -106751991167301 ≤ days ∧ days ≤ 106751991167300 := by
    rw [InInt64] at h
    omega
  have h1 : (if secs.tmod 86400 < 0 then int64 (secs.tmod 86400 + 86400) else some (secs.tmod 86400)) =
      some rem := by
    split
    · rename_i hr
      rw [(hneg hr).1]
      exact int64_of (by rw [InInt64]; omega)
    · rename_i hr
      rw [(hpos hr).1]
  have h2 : (if secs.tmod 86400 < 0 then int64 (secs.tdiv 86400 - 1) else some (secs.tdiv 86400)) =
      some days := by
    split
    · rename_i hr
      rw [(hneg hr).2]
      exact int64_of (by rw [InInt64]; omega)
    · rename_i hr
      rw [(hpos hr).2]
  obtain ⟨z, era, doe, yoe, doy, mp, hz, hera, hdoe, hyoe, hdoy, hmp, hdate⟩ := civilDate_parts days
  obtain ⟨hy0, hy1, hlow, hhigh⟩ := yearOfEra_spec (by omega) (by omega) hyoe
  have hsum : z - era * 146097 = doe := by omega
  have h3 : (if 0 ≤ z then some z else int64 (z - 146096)) = some (if 0 ≤ z then z else z - 146096) := by
    split
    · rfl
    · exact int64_of (by rw [InInt64]; omega)
  have hdoy0 : 0 ≤ doy ∧ doy ≤ 366 := by
    clear hyoe hrange hneg hpos h1 h2 h3
    omega
  simp only [rtcCivilFromUnix, h1, h2, Option.bind_eq_bind, Option.bind_some]
  rw [← hz, int64_of (by rw [InInt64]; omega : InInt64 z), Option.bind_some, h3, Option.bind_some, floor_era,
    ← hera, int64_of (by rw [InInt64]; omega : InInt64 (era * 146097)), Option.bind_some, hsum,
    int64_of (by rw [InInt64]; omega : InInt64 doe), Option.bind_some]
  have hdoe0 : 0 ≤ doe := by omega
  have hnum : 0 ≤ doe - doe / 1460 + doe / 36524 - doe / 146096 := by omega
  have hmp0 : 0 ≤ mp ∧ mp ≤ 11 := by omega
  have hday : 0 ≤ doy - (153 * mp + 2) / 5 + 1 ∧ doy - (153 * mp + 2) / 5 + 1 ≤ 31 := by
    clear hyoe hrange hneg hpos h1 h2 h3 hlow hhigh hdoy
    omega
  rw [Int.tdiv_eq_ediv_of_nonneg hdoe0, Int.tdiv_eq_ediv_of_nonneg hdoe0, Int.tdiv_eq_ediv_of_nonneg hdoe0,
    Int.tdiv_eq_ediv_of_nonneg hnum, ← hyoe, Int.tdiv_eq_ediv_of_nonneg hy0, Int.tdiv_eq_ediv_of_nonneg hy0,
    ← hdoy, int64_of (by rw [InInt64]; omega : InInt64 (yoe + era * 400)), Option.bind_some,
    int64_of (by rw [InInt64]; omega : InInt64 doy), Option.bind_some,
    Int.tdiv_eq_ediv_of_nonneg (by omega : 0 ≤ 5 * doy + 2), ← hmp,
    Int.tdiv_eq_ediv_of_nonneg (by omega : 0 ≤ 153 * mp + 2)]
  obtain ⟨m, hm⟩ : ∃ m, m = if mp < 10 then mp + 3 else mp - 9 := ⟨_, rfl⟩
  have hm0 : 0 ≤ m ∧ m ≤ 12 := by
    rw [hm]
    split
    · omega
    · omega
  rw [← hm] at hdate ⊢
  have h4 : (if m ≤ 2 then int64 (yoe + era * 400 + 1) else some (yoe + era * 400)) =
      some (yoe + era * 400 + if m ≤ 2 then 1 else 0) := by
    split
    · exact int64_of (by rw [InInt64]; omega)
    · rw [add_zero]
  rw [h4, Option.bind_some, hdate]
  obtain ⟨y, hy⟩ : ∃ y, y = yoe + era * 400 + if m ≤ 2 then 1 else 0 := ⟨_, rfl⟩
  rw [← hy]
  have hrem0 : 0 ≤ rem := by omega
  have hrem1 : rem < 86400 := by omega
  split
  · rfl
  · rename_i hyear
    rw [Int.tdiv_eq_ediv_of_nonneg hrem0, Int.tmod_eq_emod_of_nonneg hrem0, Int.tmod_eq_emod_of_nonneg hrem0,
      Int.tdiv_eq_ediv_of_nonneg (by omega), uint16_of (by omega) (by omega), uint16_of (by omega) (by omega),
      uint16_of (by omega) (by omega), uint16_of (by omega) (by omega), uint16_of (by omega) (by omega),
      uint16_of (by omega) (by omega)]

theorem clock_eq {s : ℤ} (h0 : 0 ≤ s) : 3600 * ((s / 3600).toNat : ℤ) + 60 * ((s % 3600 / 60).toNat : ℤ) +
    ((s % 60).toNat : ℤ) = s ∧ (s < 86400 → (s / 3600).toNat < 24) ∧ (s % 3600 / 60).toNat < 60 ∧
      (s % 60).toNat < 60 := by
  omega

theorem fields_lt {t t' : OrbisDateTime} (ht : t.Valid) (ht' : t'.Valid) (h : t.unix < t'.unix) :
    t.fields < t'.fields := by
  obtain ⟨-, -, hdate, hh, hm, hs, -⟩ := ht
  obtain ⟨-, -, hdate', hh', hm', hs', -⟩ := ht'
  rw [OrbisDateTime.unix, OrbisDateTime.unix] at h
  simp only [OrbisDateTime.fields, List.cons_lt_cons_iff, List.not_lt_nil, and_false, or_false]
  by_cases heq : t.date = t'.date
  · have hy := congrArg Date.year heq
    have hmo := congrArg Date.month heq
    have hd := congrArg Date.day heq
    simp only [OrbisDateTime.date] at hy hmo hd
    rw [heq] at h
    omega
  · rcases Date.before_of_ne heq with hlt | hlt
    · simp only [Date.Before, OrbisDateTime.date] at hlt
      omega
    · have hnum := Date.number_lt hdate' hdate hlt
      omega

/-- **Civil dates**: nothing overflows; the result is `false` exactly when the year of the date is not 1 to
9999, and otherwise the only time that has these seconds, and later seconds have later fields. -/
theorem rtcCivilFromUnix_spec {secs : ℤ} (h : InInt64 secs) :
    ∃ r, rtcCivilFromUnix secs = some r ∧
      (∃ d : Date, d.Valid ∧ d.number = secs / 86400 ∧ (r = none ↔ d.year < 1 ∨ 9999 < d.year)) ∧
      (∀ t, r = some t ↔ t.Valid ∧ t.unix = secs) ∧
      ∀ secs' t t', InInt64 secs' → secs < secs' → r = some t → rtcCivilFromUnix secs' = some (some t') →
        t.fields < t'.fields := by
  have hchar : ∀ secs r, InInt64 secs → rtcCivilFromUnix secs = some r →
      ∀ t, r = some t ↔ t.Valid ∧ t.unix = secs := by
    intro secs r h hr t
    obtain ⟨hvalid, hnumber⟩ := civilDate_spec (secs / 86400)
    obtain ⟨hsum, hhour, hminute, hsecond⟩ := clock_eq (s := secs % 86400) (by omega)
    rw [rtcCivilFromUnix_eq h] at hr
    cases hr
    constructor
    · intro ht
      split at ht
      · cases ht
      · rename_i hyear
        cases ht
        have hdate : (⟨((civilDate (secs / 86400)).year.toNat : ℤ), (civilDate (secs / 86400)).month,
            (civilDate (secs / 86400)).day⟩ : Date) = civilDate (secs / 86400) := by
          rw [Int.toNat_of_nonneg (by omega)]
        refine ⟨⟨by simp only; omega, by simp only; omega, ?_, hhour (by omega), hminute, hsecond, rfl⟩, ?_⟩
        · rw [OrbisDateTime.date, hdate]
          exact hvalid
        · simp only [OrbisDateTime.unix, OrbisDateTime.date, hdate, hnumber]
          omega
    · rintro ⟨⟨hy, hy', hdate, hh, hm, hs, hmicro⟩, hunix⟩
      have hday : t.date.number = secs / 86400 ∧
          3600 * (t.hour : ℤ) + 60 * (t.minute : ℤ) + (t.second : ℤ) = secs % 86400 := by
        rw [OrbisDateTime.unix] at hunix
        omega
      have heq := Date.number_inj hdate hvalid (hday.1.trans hnumber.symm)
      rw [← heq, ← hday.2]
      have hyear : ¬(t.date.year < 1 ∨ 9999 < t.date.year) := by
        simp only [OrbisDateTime.date]
        omega
      rw [if_neg hyear]
      have hhour : ((3600 * (t.hour : ℤ) + 60 * t.minute + t.second) / 3600).toNat = t.hour := by omega
      have hminute : ((3600 * (t.hour : ℤ) + 60 * t.minute + t.second) % 3600 / 60).toNat = t.minute := by omega
      have hsecond : ((3600 * (t.hour : ℤ) + 60 * t.minute + t.second) % 60).toNat = t.second := by omega
      rw [hhour, hminute, hsecond, ← hmicro]
      rfl
  obtain ⟨hvalid, hnumber⟩ := civilDate_spec (secs / 86400)
  refine ⟨_, rtcCivilFromUnix_eq h, ⟨_, hvalid, hnumber, ?_⟩, hchar secs _ h (rtcCivilFromUnix_eq h), ?_⟩
  · split
    · rename_i hyear
      exact ⟨fun _ => hyear, fun _ => rfl⟩
    · rename_i hyear
      exact ⟨fun hnone => absurd hnone (by simp), fun hout => absurd hout hyear⟩
  · intro secs' t t' h' hlt ht ht'
    obtain ⟨htvalid, htunix⟩ := (hchar secs _ h (rtcCivilFromUnix_eq h) t).1 ht
    obtain ⟨htvalid', htunix'⟩ := (hchar secs' _ h' ht' t').1 rfl
    exact fields_lt htvalid htvalid' (by omega)

/-- 1900-03-01, the day after a February of 28 days. -/
theorem rtcCivilFromUnix_spec_1900 :
    ∃ r, rtcCivilFromUnix (-2203891200) = some r ∧
      ∀ t, r = some t ↔ t.Valid ∧ t.unix = -2203891200 := by
  obtain ⟨r, hr, -, ht, -⟩ := @rtcCivilFromUnix_spec (-2203891200) (by decide)
  exact ⟨r, hr, ht⟩

end PS4Recomp.Runtime.Rtc
