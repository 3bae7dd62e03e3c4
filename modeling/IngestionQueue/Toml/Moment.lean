import IngestionQueue.Number.Literal

/-!
# Dates and times

A moment is a date, a time, or a date with a time and possibly an offset. Its normal text has a `T` between
date and time, no zeros at the end of a fraction of a second, and a capital `Z`.
-/

namespace IngestionQueue.Toml.Moment

/-- Takes a number of exactly so many digits. -/
def number (count : Nat) (cs : List Char) : Option (Nat × List Char) :=
  let digits := cs.take count
  if digits.length == count then (Literal.natural? digits).map fun n => (n, cs.drop count) else none

def literally (c : Char) : List Char → Option (List Char)
  | d :: rest => if c == d then some rest else none
  | [] => none

/-- A number with zeros in front, to a width. -/
def padded (width n : Nat) : List Char :=
  let digits := Nat.toDigits 10 n
  List.replicate (width - digits.length) '0' ++ digits

def isLeapYear (year : Nat) : Bool :=
  year % 4 == 0 && (year % 100 != 0 || year % 400 == 0)

def daysIn (year month : Nat) : Nat :=
  if month == 2 then if isLeapYear year then 29 else 28
  else if [4, 6, 9, 11].contains month then 30
  else 31

/-- Takes a date and gives its text. -/
def date (cs : List Char) : Option (List Char × List Char) := do
  let (year, cs) ← number 4 cs
  let cs ← literally '-' cs
  let (month, cs) ← number 2 cs
  let cs ← literally '-' cs
  let (day, cs) ← number 2 cs
  if 1 ≤ month && month ≤ 12 && 1 ≤ day && day ≤ daysIn year month then
    return (padded 4 year ++ '-' :: (padded 2 month ++ '-' :: padded 2 day), cs)
  else none

/-- Takes a fraction of a second, of which nine digits count. -/
def fraction (cs : List Char) : Option (List Char × List Char) :=
  match cs with
  | '.' :: rest =>
    let digits := rest.takeWhile Literal.isDigit
    let kept := ((digits.take 9).reverse.dropWhile (· == '0')).reverse
    if digits.isEmpty then none
    else some (if kept.isEmpty then [] else '.' :: kept, rest.dropWhile Literal.isDigit)
  | rest => some ([], rest)

def hourMinute (cs : List Char) : Option (List Char × List Char) := do
  let (hour, cs) ← number 2 cs
  let cs ← literally ':' cs
  let (minute, cs) ← number 2 cs
  if hour ≤ 23 && minute ≤ 59 then return (padded 2 hour ++ ':' :: padded 2 minute, cs) else none

def time (cs : List Char) : Option (List Char × List Char) := do
  let (start, cs) ← hourMinute cs
  let cs ← literally ':' cs
  let (second, cs) ← number 2 cs
  let (frac, cs) ← fraction cs
  if second ≤ 60 then return (start ++ ':' :: (padded 2 second ++ frac), cs) else none

/-- Takes an offset from universal time, if there is one. -/
def offset (cs : List Char) : Option (List Char × List Char) :=
  match cs with
  | 'Z' :: rest | 'z' :: rest => some (['Z'], rest)
  | '+' :: rest => (hourMinute rest).map fun p => ('+' :: p.1, p.2)
  | '-' :: rest =>
    (hourMinute rest).map fun p => ((if p.1 == "00:00".toList then '+' else '-') :: p.1, p.2)
  | rest => some ([], rest)

/-- The normal text of a date, a time, or both. -/
def text? (cs : List Char) : Option (List Char) :=
  let whole (r : Option (List Char × List Char)) : Option (List Char) :=
    r.bind fun p => if p.2.isEmpty then some p.1 else none
  match date cs with
  | none => whole (time cs)
  | some (day, []) => some day
  | some (day, c :: rest) =>
    if c == 'T' || c == 't' || c == ' ' then
      whole do
        let (clock, rest) ← time rest
        let (shift, rest) ← offset rest
        return (day ++ 'T' :: (clock ++ shift), rest)
    else none

end IngestionQueue.Toml.Moment
