/-!
# ByteSchema.Value.Calendar

Calendar dates and moments, which a schema document may hold as scalars.
-/

namespace ByteSchema

/-- A day of the proleptic Gregorian calendar. -/
structure Date where
  year : Nat
  month : Nat
  day : Nat
  deriving DecidableEq, Repr

/-- A moment: a day, a time of day, and the offset from universal time in seconds when given. -/
structure Moment where
  date : Date
  hour : Nat
  minute : Nat
  second : Nat
  microsecond : Nat
  offset : Option Int
  deriving DecidableEq, Repr

/-- Why numbers do not make a date or a moment. -/
inductive CalendarFault where
  | year (n : Nat)
  | month
  | day
  | hour
  | minute
  | second
  /-- The offset, given in seconds, reaches 24 hours. -/
  | offset (seconds : Int)
  deriving DecidableEq, Repr

/-- A span of time as whole days and the seconds that remain, at least zero and below one day. -/
def spanText (seconds : Int) : String :=
  let days := seconds / 86400
  let rest := seconds % 86400
  let parts := (if days ≠ 0 then ["days=" ++ toString days] else []) ++
    (if rest ≠ 0 then ["seconds=" ++ toString rest] else [])
  "datetime.timedelta(" ++ (if parts.isEmpty then "0" else String.intercalate ", " parts) ++ ")"

/-- The wording of a calendar fault. -/
def CalendarFault.message : CalendarFault → String
  | year n => "year " ++ toString n ++ " is out of range"
  | month => "month must be in 1..12"
  | day => "day is out of range for month"
  | hour => "hour must be in 0..23"
  | minute => "minute must be in 0..59"
  | second => "second must be in 0..59"
  | offset s => "offset must be a timedelta strictly between -timedelta(hours=24) and " ++
      "timedelta(hours=24), not " ++ spanText s ++ "."

/-- Does the year have 366 days? -/
def isLeapYear (year : Nat) : Bool := year % 4 == 0 && (year % 100 != 0 || year % 400 == 0)

/-- The days of a month. -/
def daysInMonth (year month : Nat) : Nat :=
  if month = 2 then (if isLeapYear year then 29 else 28)
  else if month = 4 ∨ month = 6 ∨ month = 9 ∨ month = 11 then 30
  else 31

/-- The date with the given numbers, for the years 1 to 9999. -/
def Date.ofNumbers (year month day : Nat) : Except CalendarFault Date :=
  if year = 0 ∨ 9999 < year then throw (.year year)
  else if month = 0 ∨ 12 < month then throw .month
  else if day = 0 ∨ daysInMonth year month < day then throw .day
  else return ⟨year, month, day⟩

/-- The moment with the given numbers. The offset is looked at first, then the day, then the time.
-/
def Moment.ofNumbers (year month day hour minute second microsecond : Nat) (offset : Option Int) :
    Except CalendarFault Moment := do
  if let some s := offset then
    if 86400 ≤ s.natAbs then throw (.offset s)
  let date ← Date.ofNumbers year month day
  if 23 < hour then throw .hour
  if 59 < minute then throw .minute
  if 59 < second then throw .second
  return ⟨date, hour, minute, second, microsecond, offset⟩

/-- The days from the first day of the calendar to a day. -/
def Date.dayNumber (d : Date) : Nat :=
  let past := d.year - 1
  let months := (List.range (d.month - 1)).foldl (fun n m => n + daysInMonth d.year (m + 1)) 0
  past * 365 + past / 4 - past / 100 + past / 400 + months + (d.day - 1)

/-- The seconds from the calendar's first midnight to a moment, in universal time when the moment
has an offset. -/
def Moment.seconds (m : Moment) : Int :=
  (m.date.dayNumber * 86400 + m.hour * 3600 + m.minute * 60 + m.second : Nat) - m.offset.getD 0

/-- Are two moments the same instant? One with an offset is never the same as one without. -/
def Moment.isSame (m n : Moment) : Bool :=
  m.offset.isSome == n.offset.isSome && m.seconds == n.seconds && m.microsecond == n.microsecond

@[simp] theorem Moment.isSame_self (m : Moment) : m.isSame m = true := by
  simp [Moment.isSame]

/-- A number in decimal with at least `width` digits. -/
def paddedNumber (width n : Nat) : String :=
  let ds := toString n
  String.ofList (List.replicate (width - ds.length) '0') ++ ds

/-- A date as `YYYY-MM-DD`. -/
def Date.text (d : Date) : String :=
  paddedNumber 4 d.year ++ "-" ++ paddedNumber 2 d.month ++ "-" ++ paddedNumber 2 d.day

/-- An offset as `+hh:mm`, with seconds when there are any. -/
def offsetText (seconds : Int) : String :=
  let n := seconds.natAbs
  (if seconds < 0 then "-" else "+") ++ paddedNumber 2 (n / 3600) ++ ":" ++
    paddedNumber 2 (n / 60 % 60) ++ (if n % 60 = 0 then "" else ":" ++ paddedNumber 2 (n % 60))

/-- A moment as `YYYY-MM-DD hh:mm:ss`, with microseconds when not zero and the offset when given. -/
def Moment.text (m : Moment) : String :=
  m.date.text ++ " " ++ paddedNumber 2 m.hour ++ ":" ++ paddedNumber 2 m.minute ++ ":" ++
    paddedNumber 2 m.second ++
    (if m.microsecond = 0 then "" else "." ++ paddedNumber 6 m.microsecond) ++
    (match m.offset with | none => "" | some s => offsetText s)

/-- The quoted form of a date. -/
def Date.quoted (d : Date) : String :=
  "datetime.date(" ++ toString d.year ++ ", " ++ toString d.month ++ ", " ++ toString d.day ++ ")"

/-- The quoted form of a moment. Seconds are left out when they and the microseconds are zero. -/
def Moment.quoted (m : Moment) : String :=
  let numbers := [m.date.year, m.date.month, m.date.day, m.hour, m.minute] ++
    (if m.microsecond = 0 then (if m.second = 0 then [] else [m.second])
      else [m.second, m.microsecond])
  let zone := match m.offset with
    | none => ""
    | some 0 => ", tzinfo=datetime.timezone.utc"
    | some s => ", tzinfo=datetime.timezone(" ++ spanText s ++ ")"
  "datetime.datetime(" ++ String.intercalate ", " (numbers.map toString) ++ zone ++ ")"

end ByteSchema
