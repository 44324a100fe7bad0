/-!
# Moments

A moment is a number of seconds since the beginning of 1970. Its date and time of
day are found by counting the days of whole cycles of 400 years from a first of
March, so that a leap day is the last day of its year.
-/

namespace SymbolRename

/-- A date and a time of day. -/
structure CalendarTime where
  year : Nat
  month : Nat
  day : Nat
  hour : Nat
  minute : Nat
  second : Nat
deriving DecidableEq, Repr

namespace CalendarTime

/-- The days from the first of March of the year 0 to the beginning of 1970. -/
def epochDays : Nat := 719468

/-- The days of a cycle of 400 years. -/
def cycleDays : Nat := 146097

/-- The calendar time of a moment. -/
def ofSeconds (seconds : Nat) : CalendarTime :=
  let days := seconds / 86400 + epochDays
  let inDay := seconds % 86400
  let cycle := days / cycleDays
  let dayOfCycle := days % cycleDays
  let yearOfCycle :=
    (dayOfCycle - dayOfCycle / 1460 + dayOfCycle / 36524 - dayOfCycle / 146096) / 365
  let dayOfYear := dayOfCycle - (365 * yearOfCycle + yearOfCycle / 4 - yearOfCycle / 100)
  let monthFromMarch := (5 * dayOfYear + 2) / 153
  let month := if monthFromMarch < 10 then monthFromMarch + 3 else monthFromMarch - 9
  let year := cycle * 400 + yearOfCycle
  { year := if month ≤ 2 then year + 1 else year
    month := month
    day := dayOfYear - (153 * monthFromMarch + 2) / 5 + 1
    hour := inDay / 3600
    minute := inDay % 3600 / 60
    second := inDay % 60 }

/-- A number with a zero in front if it has one digit. -/
def twoDigits (n : Nat) : String := if n < 10 then s!"0{n}" else toString n

/-- The time as `2026-01-31 23:59:59`. -/
def text (t : CalendarTime) : String :=
  s!"{t.year}-{twoDigits t.month}-{twoDigits t.day} " ++
    s!"{twoDigits t.hour}:{twoDigits t.minute}:{twoDigits t.second}"

/-- The time as `20260131-235959`, whose order is the order of times. -/
def stamp (t : CalendarTime) : String :=
  s!"{t.year}{twoDigits t.month}{twoDigits t.day}-" ++
    s!"{twoDigits t.hour}{twoDigits t.minute}{twoDigits t.second}"

example : (ofSeconds 0).text = "1970-01-01 00:00:00" := by decide +kernel

example : (ofSeconds 951868799).text = "2000-02-29 23:59:59" := by decide +kernel

end CalendarTime

end SymbolRename
