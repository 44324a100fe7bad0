import SymbolRename.Clock
import SymbolRename.Proofs.Text.Decimal
import Mathlib.Data.List.Lex
import Mathlib.Data.Nat.Digits.Defs

/-!
# Stamps are ordered as moments

A moment's day is found by its cycle of 400 years, its year in the cycle, its month and its day
in the month, each counted from a first of March. A later moment has a greater one of these after
the same greater ones, and all parts of a stamp have a fixed width; so up to the year 9999 the
stamp of a later second is the greater text: `CalendarTime.stamp_lt`.
-/

namespace SymbolRename

/-! ### Numerals of a fixed width -/

namespace Count

/-- The last digits of a number, as many as are asked for. -/
def lastDigits : Nat → Nat → List Char
  | 0, _ => []
  | width + 1, n => lastDigits width (n / 10) ++ [(n % 10).digitChar]

@[simp] theorem length_lastDigits (width n : Nat) : (lastDigits width n).length = width := by
  induction width generalizing n with
  | zero => rfl
  | succ width ih => rw [lastDigits, List.length_append, ih, List.length_singleton]

/-- Digits behind others are those of a smaller unit. -/
theorem lastDigits_add (width more n : Nat) {r : Nat} (hr : r < 10 ^ more) :
    lastDigits (width + more) (n * 10 ^ more + r) = lastDigits width n ++ lastDigits more r := by
  induction more generalizing r with
  | zero =>
    obtain rfl : r = 0 := by simpa using hr
    simp [lastDigits]
  | succ more ih =>
    rw [pow_succ] at hr
    have hdiv : (n * 10 ^ (more + 1) + r) / 10 = n * 10 ^ more + r / 10 := by
      rw [pow_succ, ← Nat.mul_assoc]
      omega
    have hmod : (n * 10 ^ (more + 1) + r) % 10 = r % 10 := by
      rw [pow_succ, ← Nat.mul_assoc]
      omega
    rw [← Nat.add_assoc, lastDigits, lastDigits, hdiv, hmod, ih (by omega), List.append_assoc]

/-- A first difference decides, whatever follows. -/
theorem append_lt_append {xs ys : List Char} (h : xs < ys) (hlength : xs.length = ys.length)
    (as bs : List Char) : xs ++ as < ys ++ bs := by
  induction xs generalizing ys with
  | nil =>
    obtain rfl := List.length_eq_zero_iff.mp hlength.symm
    exact absurd h (List.not_lt_nil [])
  | cons x xs ih =>
    cases ys with
    | nil => cases hlength
    | cons y ys =>
      rw [List.cons_append, List.cons_append]
      rcases List.cons_lt_cons_iff.mp h with hfirst | ⟨rfl, hrest⟩
      · exact List.cons_lt_cons_iff.mpr (.inl hfirst)
      · exact List.cons_lt_cons_iff.mpr (.inr ⟨rfl, ih hrest (Nat.succ.inj hlength)⟩)

theorem digitChar_lt {m n : Nat} (h : m < n) (hn : n < 10) : m.digitChar < n.digitChar := by
  revert m
  revert hn
  revert n
  decide

/-- A greater number has a greater numeral of the same width. -/
theorem lastDigits_lt {width m n : Nat} (h : m < n) (hn : n < 10 ^ width) :
    lastDigits width m < lastDigits width n := by
  induction width generalizing m n with
  | zero => omega
  | succ width ih =>
    rw [pow_succ] at hn
    rw [lastDigits, lastDigits]
    rcases Nat.lt_or_ge (m / 10) (n / 10) with hlt | hge
    · exact append_lt_append (ih hlt (by omega)) (by simp) _ _
    · have hsame : m / 10 = n / 10 := by omega
      rw [hsame]
      refine List.append_left_lt ?_
      exact List.cons_lt_cons_iff.mpr (.inl (digitChar_lt (by omega) (by omega)))

end Count

namespace CalendarTime

open Count (lastDigits)

/-- The date as one number. -/
def date (t : CalendarTime) : Nat := (t.year * 10 ^ 2 + t.month) * 10 ^ 2 + t.day

/-- The time of day as one number. -/
def timeOfDay (t : CalendarTime) : Nat := (t.hour * 10 ^ 2 + t.minute) * 10 ^ 2 + t.second

/-- Each part can be written with as many digits as it has in a stamp. -/
structure IsWritten (t : CalendarTime) : Prop where
  year : 1000 ≤ t.year ∧ t.year < 10000
  month : t.month < 100
  day : t.day < 100
  hour : t.hour < 100
  minute : t.minute < 100
  second : t.second < 100

theorem toList_twoDigits : ∀ n < 100, (twoDigits n).toList = lastDigits 2 n := by
  decide +kernel

theorem toDigits_of_four {n : Nat} (h : 1000 ≤ n ∧ n < 10000) :
    Nat.toDigits 10 n = lastDigits 4 n := by
  rw [Nat.toDigits_of_base_le (by decide) (by omega), Nat.toDigits_of_base_le (by decide) (by omega),
    Nat.toDigits_of_base_le (by decide) (by omega), Nat.toDigits_of_lt_base (by omega)]
  have hfirst : n / 10 / 10 / 10 % 10 = n / 10 / 10 / 10 := by omega
  simp only [lastDigits, hfirst, List.nil_append]

/-- A stamp consists of the digits of its date and its time. -/
theorem toList_stamp {t : CalendarTime} (h : t.IsWritten) :
    t.stamp.toList = lastDigits 8 t.date ++ '-' :: lastDigits 6 t.timeOfDay := by
  have hdate : lastDigits 8 t.date = lastDigits 4 t.year ++ lastDigits 2 t.month ++ lastDigits 2 t.day := by
    unfold date
    rw [Count.lastDigits_add 6 2 _ h.day, Count.lastDigits_add 4 2 _ h.month]
  have htime : lastDigits 6 t.timeOfDay =
      lastDigits 2 t.hour ++ lastDigits 2 t.minute ++ lastDigits 2 t.second := by
    unfold timeOfDay
    rw [Count.lastDigits_add 4 2 _ h.second, Count.lastDigits_add 2 2 _ h.minute]
  rw [hdate, htime]
  unfold stamp
  simp [String.toList_append, toList_twoDigits _ h.month, toList_twoDigits _ h.day,
    toList_twoDigits _ h.hour, toList_twoDigits _ h.minute, toList_twoDigits _ h.second,
    ToString.toString, Nat.repr, toDigits_of_four h.year]

/-! ### Dates -/

/-- The year of a cycle in which a day of it lies, counted from a first of March. -/
def yearOfCycle (day : Nat) : Nat := (day - day / 1460 + day / 36524 - day / 146096) / 365

/-- The days of a cycle before one of its years. -/
def daysBefore (year : Nat) : Nat := 365 * year + year / 4 - year / 100

theorem yearOfCycle_mono {a b : Nat} (h : a ≤ b) (hb : b < cycleDays) :
    yearOfCycle a ≤ yearOfCycle b := by
  unfold yearOfCycle
  unfold cycleDays at hb
  apply Nat.div_le_div_right
  omega

/-- The years of a cycle begin where the days before them end, and have at most 366 days. -/
theorem yearOfCycle_daysBefore : ∀ year < 400,
    (year = 0 ∨ yearOfCycle (daysBefore year - 1) < year) ∧
      (year = 399 ∨ year < yearOfCycle (daysBefore year + 366)) := by
  decide +kernel

theorem yearOfCycle_lt {day : Nat} (h : day < cycleDays) : yearOfCycle day < 400 := by
  have hlast := yearOfCycle_mono (Nat.le_pred_of_lt h) (by decide)
  have hend : yearOfCycle cycleDays.pred = 399 := by decide +kernel
  omega

/-- A day lies in its year. -/
theorem day_bounds {day : Nat} (h : day < cycleDays) :
    daysBefore (yearOfCycle day) ≤ day ∧ day ≤ daysBefore (yearOfCycle day) + 365 := by
  have hyear := yearOfCycle_lt h
  obtain ⟨hfirst, hlast⟩ := yearOfCycle_daysBefore _ hyear
  constructor
  · by_contra hless
    rcases hfirst with hzero | hfirst
    · rw [hzero] at hless
      exact hless (Nat.zero_le day)
    · have hmono := @yearOfCycle_mono day (daysBefore (yearOfCycle day) - 1) (by omega) ?_
      · omega
      · unfold daysBefore cycleDays at *
        omega
  · by_contra hmore
    rcases hlast with hlast | hlast
    · rw [hlast] at hmore
      unfold daysBefore cycleDays at *
      omega
    · have hmono := @yearOfCycle_mono (daysBefore (yearOfCycle day) + 366) day (by omega) h
      omega

/-- The days from a first of March of the year 0 to a moment. -/
def days (seconds : Nat) : Nat := seconds / 86400 + epochDays

/-- The year in which a day lies, counted from a first of March. -/
def marchYear (days : Nat) : Nat := days / cycleDays * 400 + yearOfCycle (days % cycleDays)

/-- The days of this year before it. -/
def dayOfYear (days : Nat) : Nat := days % cycleDays - daysBefore (yearOfCycle (days % cycleDays))

/-- The month in which a day of such a year lies, counted from March. -/
def marchMonth (day : Nat) : Nat := (5 * day + 2) / 153

/-- A later day is in a later year, or later in the same year. -/
theorem marchYear_lt {a b : Nat} (h : a < b) :
    marchYear a < marchYear b ∨ marchYear a = marchYear b ∧ dayOfYear a < dayOfYear b := by
  have hcycle : a / cycleDays ≤ b / cycleDays := Nat.div_le_div_right h.le
  have hbound : ∀ n, n % cycleDays < cycleDays := fun n => Nat.mod_lt n (by decide)
  rcases hcycle.lt_or_eq with hless | hsame
  · have hyear := yearOfCycle_lt (hbound a)
    left
    unfold marchYear
    omega
  · have hday : a % cycleDays < b % cycleDays := by
      have ha := Nat.div_add_mod a cycleDays
      have hb := Nat.div_add_mod b cycleDays
      rw [hsame] at ha
      omega
    have hmono := yearOfCycle_mono hday.le (hbound b)
    have hbefore := (day_bounds (hbound a)).1
    unfold marchYear dayOfYear
    rcases hmono.lt_or_eq with hless | heq
    · left
      omega
    · right
      rw [heq] at hbefore ⊢
      omega

theorem dayOfYear_le (days : Nat) : dayOfYear days ≤ 365 := by
  have hbound : days % cycleDays < cycleDays := Nat.mod_lt days (by decide)
  have hday := (day_bounds hbound).2
  unfold dayOfYear
  omega

/-- The months since the year 0, and the day in the month. -/
theorem ofSeconds_date (seconds : Nat) :
    12 * (ofSeconds seconds).year + (ofSeconds seconds).month =
        12 * marchYear (days seconds) + marchMonth (dayOfYear (days seconds)) + 3 ∧
      1 ≤ (ofSeconds seconds).month ∧ (ofSeconds seconds).month ≤ 12 ∧
      (ofSeconds seconds).day = dayOfYear (days seconds) -
        (153 * marchMonth (dayOfYear (days seconds)) + 2) / 5 + 1 := by
  have hmonth : marchMonth (dayOfYear (days seconds)) ≤ 11 := by
    have hday := dayOfYear_le (days seconds)
    unfold marchMonth
    omega
  have hparts : (ofSeconds seconds).month =
        (if marchMonth (dayOfYear (days seconds)) < 10
          then marchMonth (dayOfYear (days seconds)) + 3
          else marchMonth (dayOfYear (days seconds)) - 9) ∧
      (ofSeconds seconds).year =
        (if (ofSeconds seconds).month ≤ 2 then marchYear (days seconds) + 1
          else marchYear (days seconds)) := ⟨rfl, rfl⟩
  obtain ⟨hm, hy⟩ := hparts
  refine ⟨?_, ?_, ?_, rfl⟩
  · rw [hy]
    split at hm <;> split <;> omega
  · split at hm <;> omega
  · split at hm <;> omega

theorem day_le (seconds : Nat) : (ofSeconds seconds).day ≤ 31 := by
  have hday := dayOfYear_le (days seconds)
  rw [(ofSeconds_date seconds).2.2.2]
  unfold marchMonth
  omega

/-- Months that are counted on through the years tell year and month. -/
theorem year_eq_of_months {year year' month month' : Nat}
    (h : 12 * year + month = 12 * year' + month') (hmonth : 1 ≤ month ∧ month ≤ 12)
    (hmonth' : 1 ≤ month' ∧ month' ≤ 12) : year = year' ∧ month = month' := by
  have hyear : (12 * year + month - 1) / 12 = (12 * year' + month' - 1) / 12 := by rw [h]
  omega

/-- Moments on one day have one date. -/
theorem date_eq {a b : Nat} (h : days a = days b) : (ofSeconds a).date = (ofSeconds b).date := by
  obtain ⟨hmonths, hfirst, hlast, hday⟩ := ofSeconds_date a
  obtain ⟨hmonths', hfirst', hlast', hday'⟩ := ofSeconds_date b
  rw [h] at hmonths hday
  obtain ⟨hyear, hmonth⟩ := year_eq_of_months (hmonths.trans hmonths'.symm) ⟨hfirst, hlast⟩
    ⟨hfirst', hlast'⟩
  unfold date
  rw [hyear, hmonth, hday, hday']

/-- A later day has the greater date. -/
theorem date_lt {a b : Nat} (h : days a < days b) : (ofSeconds a).date < (ofSeconds b).date := by
  obtain ⟨hmonths, hfirst, hlast, hday⟩ := ofSeconds_date a
  obtain ⟨hmonths', hfirst', hlast', hday'⟩ := ofSeconds_date b
  have hle := day_le a
  have hle' := day_le b
  have hbound := dayOfYear_le (days a)
  unfold date
  rcases marchYear_lt h with hyear | ⟨hyear, hless⟩
  · unfold marchMonth at *
    omega
  · rw [hyear] at hmonths
    generalize dayOfYear (days a) = m at *
    generalize dayOfYear (days b) = n at *
    unfold marchMonth at *
    rcases Nat.lt_or_ge ((5 * m + 2) / 153) ((5 * n + 2) / 153) with hmonth | hmonth
    · omega
    · have hsame : (5 * m + 2) / 153 = (5 * n + 2) / 153 := by omega
      rw [hsame] at hmonths hday
      obtain ⟨hyears, hsame'⟩ := year_eq_of_months (hmonths.trans hmonths'.symm) ⟨hfirst, hlast⟩
        ⟨hfirst', hlast'⟩
      rw [hyears, hsame']
      omega

/-- On one day a later moment has the greater time. -/
theorem timeOfDay_lt {a b : Nat} (h : a < b) (hsame : days a = days b) :
    (ofSeconds a).timeOfDay < (ofSeconds b).timeOfDay := by
  have htime : ∀ seconds, (ofSeconds seconds).timeOfDay =
      (seconds % 86400 / 3600 * 10 ^ 2 + seconds % 86400 % 3600 / 60) * 10 ^ 2 +
        seconds % 86400 % 60 := fun _ => rfl
  unfold days at hsame
  rw [htime, htime]
  omega

/-- The first moment of the year 10000. -/
def lastMoment : Nat := 253402300800

theorem days_le {a b : Nat} (h : a ≤ b) : days a ≤ days b :=
  Nat.add_le_add_right (Nat.div_le_div_right h) _

theorem date_le {a b : Nat} (h : a ≤ b) : (ofSeconds a).date ≤ (ofSeconds b).date :=
  (days_le h).lt_or_eq.elim (fun hless => (date_lt hless).le) fun hsame => (date_eq hsame).le

/-- Until the year 9999 every part is written with its digits. -/
theorem isWritten {seconds : Nat} (h : seconds < lastMoment) : (ofSeconds seconds).IsWritten := by
  have hmin : (ofSeconds 0).date ≤ (ofSeconds seconds).date := date_le (Nat.zero_le seconds)
  have hmax := date_le (Nat.le_pred_of_lt h)
  have hzero : (ofSeconds 0).date = 19700101 := by decide +kernel
  have hlast : (ofSeconds lastMoment.pred).date = 99991231 := by decide +kernel
  have hday := day_le seconds
  obtain ⟨_, _, hmonth, _⟩ := ofSeconds_date seconds
  have hhour : (ofSeconds seconds).hour = seconds % 86400 / 3600 := rfl
  have hminute : (ofSeconds seconds).minute = seconds % 86400 % 3600 / 60 := rfl
  have hsecond : (ofSeconds seconds).second = seconds % 86400 % 60 := rfl
  rw [hzero] at hmin
  rw [hlast] at hmax
  unfold date at hmin hmax
  constructor <;> omega

/-- A later second has the greater stamp. -/
theorem stamp_lt {a b : Nat} (h : a < b) (hb : b < lastMoment) :
    (ofSeconds a).stamp < (ofSeconds b).stamp := by
  have hwritten := isWritten hb
  rw [String.lt_iff, toList_stamp (isWritten (h.trans hb)), toList_stamp hwritten]
  rcases (days_le h.le).lt_or_eq with hless | hsame
  · refine Count.append_lt_append (Count.lastDigits_lt (date_lt hless) ?_) (by simp) _ _
    obtain ⟨⟨_, hyear⟩, hmonth, hday, _, _, _⟩ := hwritten
    unfold date
    omega
  · rw [date_eq hsame]
    refine List.append_left_lt (List.cons_lt_cons_iff.mpr (.inr ⟨rfl, ?_⟩))
    refine Count.lastDigits_lt (timeOfDay_lt h hsame) ?_
    obtain ⟨_, _, _, hhour, hminute, hsecond⟩ := hwritten
    unfold timeOfDay
    omega

end CalendarTime

end SymbolRename
