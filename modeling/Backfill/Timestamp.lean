import Backfill.Calendar
import Backfill.ClockTime
import Backfill.Reader

/-!
Times as RFC 3339 text. Writing is exact: the fraction has 0, 3, 6 or 9 digits, the fewest that hold
it, years outside 0 to 9999 carry a sign, and a leap second is numbered 60. Reading is lenient about
blanks, the number of digits and the separator, and refuses dates that no calendar has.
-/

namespace Backfill.Timestamp

/-- At least `width` digits. -/
def padded (width n : Nat) : String :=
  let digits := Nat.toDigits 10 n
  String.ofList (List.replicate (width - digits.length) '0' ++ digits)

def writeYear (y : Int) : String :=
  if 0 ≤ y ∧ y ≤ 9999 then padded 4 y.toNat
  else (if y < 0 then "-" else "+") ++ padded 4 y.natAbs

def writeFraction (nanos : Nat) : String :=
  if nanos = 0 then ""
  else if nanos % 1000000 = 0 then "." ++ padded 3 (nanos / 1000000)
  else if nanos % 1000 = 0 then "." ++ padded 6 (nanos / 1000)
  else "." ++ padded 9 nanos

def secondsPerDay : Int := 86400

/-- `zone` is how Greenwich is spelled. -/
def write (zone : String) (c : ClockTime) : String :=
  let date := Date.ofDay (c.second / secondsPerDay)
  let secs := (c.second % secondsPerDay).toNat
  writeYear date.year ++ "-" ++ padded 2 date.month ++ "-" ++ padded 2 date.day ++ "T" ++
    padded 2 (secs / 3600) ++ ":" ++ padded 2 (secs / 60 % 60) ++ ":" ++
    padded 2 (secs % 60 + c.isLeap.toNat) ++ writeFraction (c.nanos % Duration.second).toNat ++ zone

/-- As in messages. -/
def displayClock (c : ClockTime) : String := write "+00:00" c

/-- As in documents. -/
def briefClock (c : ClockTime) : String := write "Z" c

def display (t : Instant) : String := displayClock (.ofInstant t)

def brief (t : Instant) : String := briefClock (.ofInstant t)

/-- The characters with the property White_Space. -/
def isBlank (c : Char) : Bool :=
  ('\t' ≤ c && c ≤ '\r') || ('\u2000' ≤ c && c ≤ '\u200a') ||
    c ∈ [' ', '\u0085', '\u00a0', '\u1680', '\u2028', '\u2029', '\u202f', '\u205f', '\u3000']

def skipBlanks (cs : List Char) : List Char := cs.dropWhile isBlank

/-- At least one digit and at most `most`. -/
def digits (most : Nat) : Reader (List Char) := fun cs =>
  let ds := (cs.take most).takeWhile Char.isDigit
  if ds.isEmpty then none else some (ds, cs.drop ds.length)

def number (most : Nat) : Reader Nat := fun cs =>
  (digits most (skipBlanks cs)).map fun (ds, r) => (ofDigits ds, r)

/-- A year without a sign has at most four digits; with one, any number of them. -/
def year : Reader Int := fun cs =>
  match skipBlanks cs with
  | '-' :: r => (digits r.length r).map fun (ds, r) => (-(ofDigits ds : Int), r)
  | '+' :: r => (digits r.length r).map fun (ds, r) => ((ofDigits ds : Int), r)
  | r => (digits 4 r).map fun (ds, r) => ((ofDigits ds : Int), r)

/-- Blanks may stand before the mark. -/
def mark (c : Char) : Reader Unit := fun cs =>
  match skipBlanks cs with
  | d :: r => if d = c then some ((), r) else none
  | [] => none

def date : Reader Date := fun cs => do
  let (y, cs) ← year cs
  let (_, cs) ← mark '-' cs
  let (m, cs) ← number 2 cs
  let (_, cs) ← mark '-' cs
  let (d, cs) ← number 2 cs
  some (⟨y, m, d⟩, cs)

def separator : Reader Unit
  | c :: r => if c = 't' ∨ c = 'T' ∨ c = ' ' then some ((), r) else none
  | [] => none

/-- Digits after the ninth are dropped. -/
def fraction : Reader Nat := fun cs =>
  match cs with
  | '.' :: r => (digits 9 r).map fun (ds, r) =>
      (ofDigits ds * Nat.pow 10 (9 - ds.length), r.dropWhile Char.isDigit)
  | _ => some (0, cs)

/-- Seconds of the day and nanoseconds. A second numbered 60 is the one before it, running on. -/
def timeOfDay : Reader (Nat × Nat) := fun cs => do
  let (h, cs) ← number 2 cs
  let (_, cs) ← mark ':' cs
  let (m, cs) ← number 2 cs
  let (_, cs) ← mark ':' cs
  let (s, cs) ← number 2 cs
  let (f, cs) ← fraction cs
  if h < 24 ∧ m < 60 ∧ s < 60 then some (((h * 60 + m) * 60 + s, f), cs)
  else if h < 24 ∧ m < 60 ∧ s = 60 then some (((h * 60 + m) * 60 + 59, 1000000000 + f), cs)
  else none

def zoneMinutes : Reader Nat
  | h :: g :: r =>
    match r.dropWhile (fun c => c = ':' || isBlank c) with
    | m :: n :: r =>
      if h.isDigit ∧ g.isDigit ∧ m.isDigit ∧ n.isDigit ∧ digitValue m < 6 then
        some (ofDigits [h, g] * 60 + ofDigits [m, n], r)
      else none
    | _ => none
  | _ => none

/-- Seconds east of Greenwich. -/
def zone : Reader Int := fun cs =>
  match skipBlanks cs with
  | 'Z' :: r | 'z' :: r => some (0, r)
  | '+' :: r => (zoneMinutes r).map fun (m, r) => ((m : Int) * 60, r)
  | '-' :: r | '−' :: r => (zoneMinutes r).map fun (m, r) => (-(m : Int) * 60, r)
  | u :: t :: c :: r =>
    if [u, t, c].map Char.toUpper = ['U', 'T', 'C'] then some (0, r) else none
  | _ => none

def onClock (second : Int) : Bool :=
  Instant.earliest ≤ second * Duration.second && second * Duration.second ≤ Instant.latest

/-- The clock must tell both the date as written and the date in Greenwich. -/
def read (text : String) : Option ClockTime := do
  let (d, cs) ← date text.toList
  let (_, cs) ← separator cs
  let ((secs, nanos), cs) ← timeOfDay cs
  let (east, cs) ← zone cs
  let there := d.toDay * secondsPerDay + secs
  let here := there - east
  if (skipBlanks cs).isEmpty ∧ d.isValid ∧ east.natAbs < 86400 ∧ onClock there ∧ onClock here then
    some (.ofParts here nanos)
  else none

end Backfill.Timestamp
