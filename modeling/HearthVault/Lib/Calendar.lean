/-
HearthVault.Lib.Calendar — UTC instants and their texts.

A `DateTime` is the number of nanoseconds since the Unix epoch. `toRfc3339`
and `compactStamp` print it as `chrono` does: the first with a fraction of
0, 3, 6 or 9 digits, as many as it takes, the second cut to whole seconds.
So two instants of one second have one `compactStamp`.
-/
import HearthVault.Lib.Text

namespace HearthVault.Calendar

/-- `DateTime<Utc>`. -/
abbrev DateTime := Int

def nanosPerSecond : Int := 1000000000

def nanosPerDay : Int := 86400 * nanosPerSecond

/-- `DateTime::MIN_UTC` and `DateTime::MAX_UTC`. -/
def minUtc : DateTime := -8334601228800000000000
def maxUtc : DateTime := 8210266876799999999999

/-- `DateTime::timestamp`: the whole seconds. -/
def timestamp (t : DateTime) : Int :=
  t / nanosPerSecond

/-- Year, month and day of a day number, in the proleptic Gregorian
calendar; years are counted from March, in eras of 400. -/
def civil (day : Int) : Int × Nat × Nat :=
  let z := day + 719468
  let era := z / 146097
  let doe := (z % 146097).toNat
  let yoe := (doe - doe / 1460 + doe / 36524 - doe / 146096) / 365
  let doy := doe - (365 * yoe + yoe / 4 - yoe / 100)
  let mp := (5 * doy + 2) / 153
  let month := if mp < 10 then mp + 3 else mp - 9
  (yoe + era * 400 + if month ≤ 2 then 1 else 0, month, doy - (153 * mp + 2) / 5 + 1)

/-- A decimal number in at least `width` digits. -/
def digits (width n : Nat) : Str :=
  let s := Nat.toDigits 10 n
  List.replicate (width - s.length) '0' ++ s

/-- Four digits, or a sign and five when four are not enough. -/
def yearText (y : Int) : Str :=
  if 0 ≤ y ∧ y ≤ 9999 then digits 4 y.toNat
  else (if y < 0 then '-' else '+') :: digits 4 y.natAbs

/-- Date and time of a number of seconds, with the given separators. -/
def clockText (dash colon : Str) (seconds : Int) : Str :=
  let (y, m, d) := civil (seconds / 86400)
  let s := (seconds % 86400).toNat
  yearText y ++ dash ++ digits 2 m ++ dash ++ digits 2 d ++ ['T'] ++ digits 2 (s / 3600) ++ colon ++
    digits 2 (s / 60 % 60) ++ colon ++ digits 2 (s % 60)

/-- The fraction of a second, in as few groups of three digits as hold it. -/
def fractionText (nanos : Nat) : Str :=
  if nanos = 0 then []
  else if nanos % 1000000 = 0 then '.' :: digits 3 (nanos / 1000000)
  else if nanos % 1000 = 0 then '.' :: digits 6 (nanos / 1000)
  else '.' :: digits 9 nanos

/-- `DateTime<Utc>::to_rfc3339`. -/
def toRfc3339 (t : DateTime) : Str :=
  clockText ['-'] [':'] (timestamp t) ++ fractionText (t % nanosPerSecond).toNat ++
    "+00:00".toList

/-- `format("%Y%m%dT%H%M%SZ")`. -/
def compactStamp (t : DateTime) : Str :=
  clockText [] [] (timestamp t) ++ ['Z']

/-- Midnight and the second after it are told apart. -/
theorem toRfc3339_midnight (day : Int) :
    toRfc3339 (day * nanosPerDay) ≠ toRfc3339 (day * nanosPerDay + nanosPerSecond) := by
  have hsecond : timestamp (day * nanosPerDay) = day * 86400 := by
    simp only [timestamp, nanosPerDay, nanosPerSecond]
    omega
  have hnext : timestamp (day * nanosPerDay + nanosPerSecond) = day * 86400 + 1 := by
    simp only [timestamp, nanosPerDay, nanosPerSecond]
    omega
  have hnanos : (day * nanosPerDay % nanosPerSecond).toNat = 0 := by
    simp only [nanosPerDay, nanosPerSecond]
    omega
  have hnanos' : ((day * nanosPerDay + nanosPerSecond) % nanosPerSecond).toNat = 0 := by
    simp only [nanosPerDay, nanosPerSecond]
    omega
  have hday : day * 86400 / 86400 = day := by omega
  have hday' : (day * 86400 + 1) / 86400 = day := by omega
  have hsec : (day * 86400 % 86400).toNat = 0 := by omega
  have hsec' : ((day * 86400 + 1) % 86400).toNat = 1 := by omega
  simp only [toRfc3339, clockText, hsecond, hnext, hnanos, hnanos', hday, hday', hsec, hsec']
  intro h
  simp only [List.append_assoc, List.append_cancel_left_eq] at h
  revert h
  decide

example : toRfc3339 1767225600123000000 = "2026-01-01T00:00:00.123+00:00".toList := by decide

example : compactStamp 1709210096999999999 = "20240229T123456Z".toList := by decide

end HearthVault.Calendar
