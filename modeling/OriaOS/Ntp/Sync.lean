import OriaOS.Lib.Calendar
import OriaOS.Lib.Partial

/-!
# The time of a server

What `ntp_sync` of `net.c` makes of a reply: the seconds since 1970, and from them the date by two
loops that take away the days of whole years and of whole months.
-/

namespace OriaOS.Ntp

open OriaOS.Lib OriaOS.Lib.Calendar

/-! ## The reply -/

/-- `NTP_UNIX_DIFF` -/
def ntpUnixDiff : UInt32 := 2208988800

/-- The seconds of the timestamp at an offset of the packet. -/
def timestampSecs (np : Nat → UInt8) (off : Nat) : UInt32 :=
  ((np off).toUInt32 <<< 24) ||| ((np (off + 1)).toUInt32 <<< 16) |||
    ((np (off + 2)).toUInt32 <<< 8) ||| (np (off + 3)).toUInt32

/-- `ntp_secs`: the transmit timestamp, the receive timestamp where that is before 1970. -/
def ntpSecs (np : Nat → UInt8) : UInt32 :=
  let secs := timestampSecs np 40
  if secs < ntpUnixDiff then timestampSecs np 32 else secs

/-- `unix_secs`, none where the reply is passed on. -/
def unixSecs (np : Nat → UInt8) : Option UInt32 :=
  if ntpSecs np = 0 then none else some (ntpSecs np - ntpUnixDiff)

/-- The seconds since 1970. A timestamp before 1970 is one of the era of 32 bits that follows. -/
theorem toNat_unixSecs {np : Nat → UInt8} {u : UInt32} (h : unixSecs np = some u) :
    u.toNat + 2208988800 =
      (ntpSecs np).toNat + if ntpSecs np < ntpUnixDiff then 4294967296 else 0 := by
  have hlt := (ntpSecs np).toNat_lt
  have hdiff : ntpUnixDiff.toNat = 2208988800 := rfl
  unfold unixSecs at h
  split at h
  · cases h
  obtain rfl := Option.some.inj h
  rw [UInt32.toNat_sub, hdiff]
  split
  · have hera := UInt32.lt_iff_toNat_lt.mp ‹_›
    omega
  · have hera := UInt32.le_iff_toNat_le.mp (UInt32.not_lt.mp ‹_›)
    omega

/-! ## The date -/

/-- `leap` -/
def leap (year : UInt32) : Bool := (year % 4 = 0 && year % 100 ≠ 0) || year % 400 = 0

/-- `days_in_year` -/
def yearDays (year : UInt32) : UInt32 := if leap year then 366 else 365

/-- The loop over the years. -/
def yearLoop : Nat → UInt32 → UInt32 → Option (UInt32 × UInt32)
  | 0, _, _ => none
  | fuel + 1, year, d =>
      if d < yearDays year then some (year, d) else yearLoop fuel (year + 1) (d - yearDays year)

/-- `mdays` -/
def mdays : Array UInt8 := #[31, 28, 31, 30, 31, 30, 31, 31, 30, 31, 30, 31]

/-- `md` -/
def monthDays (year : UInt32) (m : Nat) : UInt32 :=
  if m = 1 ∧ leap year then 29 else (mdays.getD m 0).toUInt32

/-- The loop over the months that are left, with `month` and `d` behind it. -/
def monthLoop (year : UInt32) : List Nat → UInt32 → UInt32 × UInt32
  | [], d => (1, d)
  | m :: ms, d =>
      if d < monthDays year m then (UInt32.ofNat (m + 1), d)
      else monthLoop year ms (d - monthDays year m)

/-- What is shown. -/
structure DateTime where
  year : UInt32
  month : UInt32
  day : UInt32
  hour : UInt32
  minute : UInt32
  second : UInt32
  deriving DecidableEq

/-- The conversion in `ntp_sync`. -/
def ntpDate (fuel : Nat) (unixSecs : UInt32) : Option DateTime :=
  let s := unixSecs % 86400
  let d := unixSecs / 86400
  (yearLoop fuel 1970 d).bind fun r =>
    let month := monthLoop r.1 (List.range 12) r.2
    some ⟨r.1, month.1, month.2 + 1, s / 3600, s % 3600 / 60, s % 60⟩

/-! ## The loops -/

theorem toNat_succ {x : UInt32} (h : x.toNat + 1 < 4294967296) : (x + 1).toNat = x.toNat + 1 := by
  rw [UInt32.toNat_add]
  exact Nat.mod_eq_of_lt h

section Years
variable {year : UInt32}

theorem leap_iff (year : UInt32) : leap year = true ↔ IsLeap year.toNat := by
  simp only [leap, IsLeap, Bool.or_eq_true, Bool.and_eq_true, decide_eq_true_eq, ne_eq,
    ← UInt32.toNat_inj, UInt32.toNat_mod, Nat.dvd_iff_mod_eq_zero]
  rfl

theorem toNat_yearDays (year : UInt32) : (yearDays year).toNat = daysInYear year.toNat := by
  unfold yearDays daysInYear
  by_cases hleap : IsLeap year.toNat
  · rw [if_pos hleap, if_pos ((leap_iff year).mpr hleap)]
    rfl
  · rw [if_neg hleap, if_neg fun h => hleap ((leap_iff year).mp h)]
    rfl

/-- The loop over the years takes away whole years. As each of them has a day, the sum of the year
and the days does not grow, and the year does not wrap. -/
theorem yearLoop_settles (year d : UInt32) (hfrom : 1970 ≤ year.toNat)
    (hsum : year.toNat + d.toNat < 4294967296) :
    ∃ y r : UInt32, Settles (fun fuel => yearLoop fuel year d) (y, r) ∧ 1970 ≤ y.toNat ∧
      r.toNat < daysInYear y.toNat ∧
      yearsBefore y.toNat + r.toNat = yearsBefore year.toNat + d.toNat := by
  induction hn : d.toNat using Nat.strong_induction_on generalizing year d with
  | _ n ih =>
      subst hn
      have hdays := toNat_yearDays year
      by_cases hlt : d < yearDays year
      · refine ⟨year, d, .always fun fuel => by rw [yearLoop, if_pos hlt], hfrom, ?_, rfl⟩
        rw [← hdays]
        exact UInt32.lt_iff_toNat_lt.mp hlt
      · have hle : yearDays year ≤ d := UInt32.not_lt.mp hlt
        have hsub : (d - yearDays year).toNat = d.toNat - daysInYear year.toNat := by
          rw [UInt32.toNat_sub_of_le _ _ hle, hdays]
        have hpos : 1 ≤ daysInYear year.toNat := by
          unfold daysInYear
          split <;> omega
        have hroom : daysInYear year.toNat ≤ d.toNat := by
          rw [← hdays]
          exact UInt32.le_iff_toNat_le.mp hle
        have hnext : (year + 1).toNat = year.toNat + 1 := toNat_succ (by omega)
        obtain ⟨y, r, hrun, hy, hr, hplace⟩ :=
          ih (d - yearDays year).toNat (by omega) (year + 1) _ (by omega) (by omega) rfl
        refine ⟨y, r, hrun.call fun fuel => by rw [yearLoop, if_neg hlt], hy, hr, ?_⟩
        rw [hplace, hnext, hsub, yearsBefore_succ hfrom]
        omega

end Years

section Months
variable {year : UInt32}

theorem toNat_monthDays (year : UInt32) {m : Nat} (hm : m < 12) :
    (monthDays year m).toNat = daysInMonth year.toNat (m + 1) := by
  by_cases hfeb : m = 1
  · subst hfeb
    by_cases hleap : IsLeap year.toNat
    · rw [monthDays, if_pos ⟨rfl, (leap_iff year).mpr hleap⟩, daysInMonth, if_pos hleap]
      rfl
    · rw [monthDays, if_neg fun h => hleap ((leap_iff year).mp h.2), daysInMonth, if_neg hleap]
      rfl
  · rw [monthDays, if_neg fun h => hfeb h.1]
    interval_cases m <;> first | rfl | exact absurd rfl hfeb

/-- The loop over the months takes away whole months, and finds the month of a day of the year. -/
theorem monthLoop_spec (year : UInt32) {m n : Nat} (hend : m + n = 12) {d : UInt32}
    (hd : monthsBefore year.toNat (m + 1) + d.toNat < daysInYear year.toNat) :
    ∃ k, k < 12 ∧ (monthLoop year (List.range' m n) d).1.toNat = k + 1 ∧
      (monthLoop year (List.range' m n) d).2.toNat < daysInMonth year.toNat (k + 1) ∧
      monthsBefore year.toNat (k + 1) + (monthLoop year (List.range' m n) d).2.toNat =
        monthsBefore year.toNat (m + 1) + d.toNat := by
  induction n generalizing m d with
  | zero =>
      obtain rfl : m = 12 := hend
      rw [← monthsBefore_end] at hd
      exact absurd hd (Nat.not_lt.mpr (Nat.le_add_right _ _))
  | succ n ih =>
      have hdays := toNat_monthDays year (by omega : m < 12)
      rw [List.range'_succ, monthLoop]
      by_cases hlt : d < monthDays year m
      · rw [if_pos hlt]
        refine ⟨m, by omega, ?_, ?_, rfl⟩
        · exact Nat.mod_eq_of_lt (by omega)
        · rw [← hdays]
          exact UInt32.lt_iff_toNat_lt.mp hlt
      · rw [if_neg hlt]
        have hle : monthDays year m ≤ d := UInt32.not_lt.mp hlt
        have hsub : (d - monthDays year m).toNat = d.toNat - daysInMonth year.toNat (m + 1) := by
          rw [UInt32.toNat_sub_of_le _ _ hle, hdays]
        have hroom : daysInMonth year.toNat (m + 1) ≤ d.toNat := by
          rw [← hdays]
          exact UInt32.le_iff_toNat_le.mp hle
        have hplace := monthsBefore_succ year.toNat m
        obtain ⟨k, hk, hmonth, hday, hsum⟩ :=
          ih (m := m + 1) (d := d - monthDays year m) (by omega) (by omega)
        exact ⟨k, hk, hmonth, hday, by omega⟩

end Months

/-! ## The conversion -/

/-- The fields are those of a moment. -/
structure DateTime.Shows (t : DateTime) (a : Moment) : Prop where
  year : t.year.toNat = a.date.year
  month : t.month.toNat = a.date.month
  day : t.day.toNat = a.date.day
  hour : t.hour.toNat = a.hour
  minute : t.minute.toNat = a.minute
  second : t.second.toNat = a.second

/-- The time of day. -/
theorem secondOfDay_split (s : Nat) : s / 3600 * 3600 + s % 3600 / 60 * 60 + s % 60 = s := by
  omega

/-- The conversion ends, and shows the date and the time of day of the seconds. -/
theorem ntpDate_shows (u : UInt32) :
    ∃ (t : DateTime) (a : Moment), Settles (fun fuel => ntpDate fuel u) t ∧ t.Shows a ∧
      a.date.dayNumber = u.toNat / 86400 ∧ a.secondOfDay = u.toNat % 86400 := by
  have hu := u.toNat_lt
  have hdays : (u / 86400).toNat = u.toNat / 86400 := UInt32.toNat_div u 86400
  have hsecs : (u % 86400).toNat = u.toNat % 86400 := UInt32.toNat_mod u 86400
  have hsec := Nat.mod_lt u.toNat (by decide : 0 < 86400)
  have hstart : (1970 : UInt32).toNat = 1970 := rfl
  obtain ⟨y, r, hyears, hy, hr, hplace⟩ :=
    yearLoop_settles 1970 (u / 86400) (by omega) (by omega)
  obtain ⟨k, hk, hmonth, hday, hsum⟩ :=
    monthLoop_spec y (m := 0) (n := 12) rfl (d := r)
      (by rw [monthsBefore, before_zero, Nat.zero_add]; exact hr)
  rw [← List.range_eq_range'] at hmonth hday hsum
  have hlong : daysInMonth y.toNat (k + 1) ≤ 31 := by
    unfold daysInMonth
    split
    · split <;> omega
    · omega
    · omega
    · omega
    · omega
    · omega
  have hnext : ((monthLoop y (List.range 12) r).2 + 1).toNat =
      (monthLoop y (List.range 12) r).2.toNat + 1 := toNat_succ (by omega)
  let date : Date := ⟨y.toNat, k + 1, (monthLoop y (List.range 12) r).2.toNat + 1, hy, by omega,
    by omega, by omega, hday⟩
  let a : Moment := ⟨date, u.toNat % 86400 / 3600, u.toNat % 86400 % 3600 / 60,
    u.toNat % 86400 % 60, by omega, by omega, by omega⟩
  refine ⟨_, a, hyears.bind (.always fun _ => rfl), ⟨rfl, hmonth, hnext, ?_, ?_, ?_⟩, ?_,
    secondOfDay_split _⟩
  · exact (UInt32.toNat_div _ 3600).trans (congrArg (· / 3600) hsecs)
  · rw [UInt32.toNat_div, UInt32.toNat_mod, hsecs]
    rfl
  · exact (UInt32.toNat_mod _ 60).trans (congrArg (· % 60) hsecs)
  · calc a.date.dayNumber
      _ = yearsBefore y.toNat + (monthsBefore y.toNat (k + 1) +
          (monthLoop y (List.range 12) r).2.toNat) := rfl
      _ = yearsBefore y.toNat + r.toNat := by rw [hsum, monthsBefore, before_zero, Nat.zero_add]
      _ = u.toNat / 86400 := by
        rw [hplace, hdays, hstart, yearsBefore, before_zero, Nat.zero_add]

end OriaOS.Ntp
