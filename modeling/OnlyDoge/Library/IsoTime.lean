import OnlyDoge.Library.Decimal
set_option autoImplicit false

/-! The text of a time in UTC, as `new Date(ms).toISOString()` gives it. -/

namespace IsoTime

structure Civil where
  year : Int
  month : Nat
  day : Nat
  deriving DecidableEq,Repr

/-- The date of a day, counted from the first of January 1970. A year starts in March here until
the last line, so that the day that a leap year adds is its last; 400 years make an era. -/
def civil (days : Int) : Civil :=
  let shifted := days + 719468
  let dayOfEra := (shifted % 146097).toNat
  let yearOfEra := (dayOfEra - dayOfEra / 1460 + dayOfEra / 36524 - dayOfEra / 146096) / 365
  let dayOfYear := dayOfEra - (365 * yearOfEra + yearOfEra / 4 - yearOfEra / 100)
  let marchMonth := (5 * dayOfYear + 2) / 153
  let month := if marchMonth < 10 then marchMonth + 3 else marchMonth - 9
  ⟨yearOfEra + shifted / 146097 * 400 + (if month ≤ 2 then 1 else 0),month,
    dayOfYear - (153 * marchMonth + 2) / 5 + 1⟩

def yearText (year : Int) : List Char :=
  if 0 ≤ year ∧ year ≤ 9999 then Decimal.fixedDigits 4 year.toNat
  else (if year < 0 then '-' else '+')::Decimal.fixedDigits 6 year.natAbs

def dateText (date : Civil) : List Char :=
  yearText date.year ++ '-'::(Decimal.fixedDigits 2 date.month ++
    '-'::Decimal.fixedDigits 2 date.day)

def clockText (ms : Nat) : List Char :=
  Decimal.fixedDigits 2 (ms / 3600000) ++ ':'::(Decimal.fixedDigits 2 (ms / 60000 % 60) ++
    ':'::(Decimal.fixedDigits 2 (ms / 1000 % 60) ++ '.'::Decimal.fixedDigits 3 (ms % 1000)))

/-- A time further than 8.64e15 milliseconds from the epoch has no text. -/
def toISOString (ms : Int) : Option String :=
  if -8640000000000000 ≤ ms ∧ ms ≤ 8640000000000000 then
    some (String.ofList (dateText (civil (ms / 86400000)) ++
      'T'::(clockText (ms % 86400000).toNat ++ ['Z'])))
  else none

theorem mem_toISOString {ms : Int} {text : String} (h : toISOString ms = some text) :
    'T' ∈ text.toList := by
  unfold toISOString at h
  split at h
  · cases h
    simp
  · cases h

example : toISOString 1784073600000 = some "2026-07-15T00:00:00.000Z" := by decide +kernel
example : toISOString (-1) = some "1969-12-31T23:59:59.999Z" := by decide +kernel

end IsoTime
