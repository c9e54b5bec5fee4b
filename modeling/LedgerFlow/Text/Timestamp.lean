import Mathlib.Tactic

/-! Aware UTC `datetime` values and `datetime.isoformat()`. -/

namespace LedgerFlow

/-- An aware UTC `datetime`, in microseconds since the epoch. -/
abbrev Timestamp := ℤ

def seconds (n : ℤ) : ℤ := n * 1000000

namespace Timestamp

/-- Year, month and day of a number of days since 1970-01-01. A year starts with March
here, so that the leap day is its last. -/
def civil (days : ℤ) : ℤ × ℤ × ℤ :=
  let shifted := days + 719468
  let era := shifted / 146097
  let day := shifted % 146097
  let year := (day - day / 1460 + day / 36524 - day / 146096) / 365
  let dayOfYear := day - (365 * year + year / 4 - year / 100)
  let month := (5 * dayOfYear + 2) / 153
  let dayOfMonth := dayOfYear - (153 * month + 2) / 5 + 1
  if month < 10 then (year + era * 400, month + 3, dayOfMonth) else (year + era * 400 + 1, month - 9, dayOfMonth)

def padded (width : ℕ) (n : ℤ) : String :=
  let digits := Nat.toDigits 10 n.toNat
  String.ofList (List.replicate (width - digits.length) '0' ++ digits)

/-- `datetime.isoformat()`; the microseconds are left out when there are none. -/
def isoformat (t : Timestamp) : String :=
  let (year, month, day) := civil (t / seconds 86400)
  let time := t % seconds 86400
  let microsecond := time % seconds 1
  let fraction := if microsecond = 0 then "" else "." ++ padded 6 microsecond
  padded 4 year ++ "-" ++ padded 2 month ++ "-" ++ padded 2 day ++ "T" ++ padded 2 (time / seconds 3600) ++ ":" ++
    padded 2 (time / seconds 60 % 60) ++ ":" ++ padded 2 (time / seconds 1 % 60) ++ fraction ++ "+00:00"

end Timestamp
end LedgerFlow
