import ShardQuery.Text.Blank
import ShardQuery.Value.Timestamp

/-!
Timestamps as dates and times of the Gregorian calendar, written as in RFC 3339.
-/

namespace ShardQuery

/-- Days from 1970-01-01 to a date. Years run from March to February here, so that the leap day
comes last. -/
def daysOfDate (year : Int) (month day : Nat) : Int :=
  let y := if month ≤ 2 then year - 1 else year
  let era := Int.fdiv y 400
  let yearOfEra := y - era * 400
  let dayOfYear : Int := (153 * ((month + 9) % 12) + 2) / 5 + day - 1
  era * 146097 + (yearOfEra * 365 + yearOfEra / 4 - yearOfEra / 100 + dayOfYear) - 719468

/-- The date that many days after 1970-01-01. -/
def dateOfDays (days : Int) : Int × Nat × Nat :=
  let z := days + 719468
  let era := Int.fdiv z 146097
  let dayOfEra := (z - era * 146097).toNat
  let yearOfEra := (dayOfEra - dayOfEra / 1460 + dayOfEra / 36524 - dayOfEra / 146096) / 365
  let dayOfYear := dayOfEra - (365 * yearOfEra + yearOfEra / 4 - yearOfEra / 100)
  let shifted := (5 * dayOfYear + 2) / 153
  let day := dayOfYear - (153 * shifted + 2) / 5 + 1
  let month := if shifted < 10 then shifted + 3 else shifted - 9
  ((yearOfEra : Int) + era * 400 + (if month ≤ 2 then 1 else 0), month, day)

def isLeapYear (year : Int) : Bool := year % 4 = 0 && (year % 100 != 0 || year % 400 = 0)

def daysInMonth (year : Int) (month : Nat) : Nat :=
  if month = 2 then (if isLeapYear year then 29 else 28)
  else if month ∈ [4, 6, 9, 11] then 30 else 31

namespace Timestamp

/-- A number with leading zeros. -/
def padded (width n : Nat) : List Char :=
  let ds := Nat.toDigits 10 n
  List.replicate (width - ds.length) '0' ++ ds

/-- A year outside four digits has a sign. -/
def renderYear (year : Int) : List Char :=
  if 0 ≤ year && year ≤ 9999 then padded 4 year.toNat
  else (if year < 0 then '-' else '+') :: padded 4 year.natAbs

/-- The fraction of a second in 0, 3, 6 or 9 digits, the fewest that lose nothing. -/
def renderFraction (nanos : Nat) : List Char :=
  if nanos = 0 then []
  else if nanos % 1000000 = 0 then '.' :: padded 3 (nanos / 1000000)
  else if nanos % 1000 = 0 then '.' :: padded 6 (nanos / 1000)
  else '.' :: padded 9 nanos

/-- The time in UTC. A leap second is second 60. -/
def render (t : Timestamp) : List Char :=
  let (year, month, day) := dateOfDays (Int.fdiv t.seconds 86400)
  let second := (Int.fmod t.seconds 86400).toNat
  let leap := t.isLeapSecond
  renderYear year ++ ['-'] ++ padded 2 month ++ ['-'] ++ padded 2 day ++ ['T'] ++
    padded 2 (second / 3600) ++ [':'] ++ padded 2 (second / 60 % 60) ++ [':'] ++
    padded 2 (second % 60 + if leap then 1 else 0) ++
    renderFraction (if leap then t.nanos - 10 ^ 9 else t.nanos) ++ ['Z']

def text (t : Timestamp) : String := String.ofList t.render

/-- A reader of a part of a text: what it read and what is left. -/
abbrev Reader (α : Type) := List Char → Option (α × List Char)

/-- One to `width` digits after blanks. -/
def readNumber (width : Nat) : Reader Nat := fun cs =>
  let cs := Text.dropBlanks cs
  let ds := (cs.take width).takeWhile Char.isDigit
  if ds.isEmpty then none else some (Nat.ofDigitChars 10 ds 0, cs.drop ds.length)

/-- A year of up to four digits, or of any number of digits after a sign. -/
def readYear : Reader Int := fun cs =>
  match Text.dropBlanks cs with
  | '-' :: rest => readSigned rest (-1)
  | '+' :: rest => readSigned rest 1
  | rest => (readNumber 4 rest).map fun (n, rest) => ((n : Int), rest)
where
  readSigned (cs : List Char) (sign : Int) : Option (Int × List Char) :=
    let ds := cs.takeWhile Char.isDigit
    if ds.isEmpty then none
    else some (sign * (Nat.ofDigitChars 10 ds 0 : Nat), cs.drop ds.length)

/-- One given character after blanks. -/
def readMark (mark : Char) : Reader Unit := fun cs =>
  match Text.dropBlanks cs with
  | c :: rest => if c = mark then some ((), rest) else none
  | [] => none

/-- The fraction of a second, if there is one, in nanoseconds. Digits after the ninth are
dropped. -/
def readFraction : Reader Nat
  | '.' :: rest =>
    let ds := rest.takeWhile Char.isDigit
    if ds.isEmpty then none
    else
      let kept := ds.take 9
      some (Nat.ofDigitChars 10 kept 0 * 10 ^ (9 - kept.length), rest.drop ds.length)
  | rest => some (0, rest)

def twoDigits? : List Char → Option (Nat × List Char)
  | a :: b :: rest =>
    if a.isDigit && b.isDigit then some (Nat.ofDigitChars 10 [a, b] 0, rest) else none
  | _ => none

/-- The offset from UTC in seconds. -/
def readOffset : Reader Int := fun cs =>
  match Text.dropBlanks cs with
  | 'Z' :: rest | 'z' :: rest => some (0, rest)
  | u :: t :: c :: rest =>
    if u.toLower = 'u' && t.toLower = 't' && c.toLower = 'c' then some (0, rest)
    else
      let sign : Option Int :=
        if u = '+' then some 1 else if u = '-' || u.toNat = 0x2212 then some (-1) else none
      do
        let sign ← sign
        let (hours, rest) ← twoDigits? (t :: c :: rest)
        let (minutes, rest) ← twoDigits? (rest.dropWhile fun c => c = ':' || Text.isBlank c)
        if minutes < 60 && hours < 24 then
          some (sign * (hours * 3600 + minutes * 60 : Nat), rest)
        else none
  | _ => none

/-- Years that a timestamp may have. -/
def yearInRange (year : Int) : Bool := -262143 ≤ year && year ≤ 262142

/-- The instant of a date and a time that lie so many seconds ahead of UTC. Second 60 is a leap
second. -/
def ofDateTime? (year : Int) (month day hour minute second nanos : Nat) (offset : Int) :
    Option Timestamp :=
  if yearInRange year && 1 ≤ month && month ≤ 12 && 1 ≤ day && day ≤ daysInMonth year month &&
      hour < 24 && minute < 60 && second ≤ 60 then
    let leap := second = 60
    let ofDay : Nat := hour * 3600 + minute * 60 + (if leap then 59 else second)
    let t : Timestamp :=
      ⟨daysOfDate year month day * 86400 + ofDay - offset, nanos + if leap then 10 ^ 9 else 0⟩
    if yearInRange (dateOfDays (Int.fdiv t.seconds 86400)).1 then some t else none
  else none

/-- Reads a date, a `T` or a space, a time and an offset. Blanks may stand between the parts. -/
def parse? (s : String) : Option Timestamp := do
  let (year, cs) ← readYear s.toList
  let ((), cs) ← readMark '-' cs
  let (month, cs) ← readNumber 2 cs
  let ((), cs) ← readMark '-' cs
  let (day, cs) ← readNumber 2 cs
  let cs ← match cs with
    | c :: rest => if c = 'T' || c = 't' || c = ' ' then some rest else none
    | [] => none
  let (hour, cs) ← readNumber 2 cs
  let ((), cs) ← readMark ':' cs
  let (minute, cs) ← readNumber 2 cs
  let ((), cs) ← readMark ':' cs
  let (second, cs) ← readNumber 2 cs
  let (nanos, cs) ← readFraction cs
  let (offset, cs) ← readOffset cs
  if (Text.dropBlanks cs).isEmpty then
    ofDateTime? year month day hour minute second nanos offset
  else none

end Timestamp
end ShardQuery
