import IngestionQueue.Number.Binary64
import IngestionQueue.Number.Word

/-!
# Numbers in text

An integer is written with decimal digits and an optional sign, where a minus sign is only for a range that
goes below zero. A floating-point number may have a point with digits on either side of it and an exponent, or
is written as a word.
-/

namespace IngestionQueue.Literal

def isDigit (c : Char) : Bool :=
  '0' ≤ c && c ≤ '9'

/-- The number that digits of a base write, given the value of a digit. -/
def valueOf (base : Nat) (digit : Char → Nat) (cs : List Char) : Nat :=
  cs.foldl (fun n c => base * n + digit c) 0

def decimalDigit (c : Char) : Nat :=
  c.toNat - 48

/-- At least one digit, and nothing else. -/
def natural? (cs : List Char) : Option Nat :=
  if !cs.isEmpty && cs.all isDigit then some (valueOf 10 decimalDigit cs) else none

/-- An integer of a range. -/
def integer? (least greatest : Int) (cs : List Char) : Option Int :=
  let value := match cs with
    | '+' :: digits => (natural? digits).map Int.ofNat
    | '-' :: digits => if least < 0 then (natural? digits).map fun n => -Int.ofNat n else none
    | digits => (natural? digits).map Int.ofNat
  value.filter fun n => decide (least ≤ n ∧ n ≤ greatest)

def int64? : List Char → Option Int :=
  integer? Word.least Word.greatest

/-- The value nearest to the digits times a power of ten. Far outside the range of the format the digits do
not matter, so no great power is formed there. -/
def scaled (negative : Bool) (digits : List Char) (exponent : Int) : Binary64 :=
  let significant := digits.dropWhile (· == '0')
  let size := exponent + significant.length
  if significant.isEmpty || size < -400 then .ofRatio negative 0 1
  else if 400 < size then .infinite negative
  else .ofDecimal negative (valueOf 10 decimalDigit significant) exponent

/-- The exponent after its mark. -/
def exponent? (cs : List Char) : Option Int :=
  match cs with
  | '+' :: digits => (natural? digits).map Int.ofNat
  | '-' :: digits => (natural? digits).map fun n => -Int.ofNat n
  | digits => (natural? digits).map Int.ofNat

/-- A number without its sign. -/
def unsignedFloat? (negative : Bool) (cs : List Char) : Option Binary64 :=
  let word := String.ofList (cs.map Char.toLower)
  if word == "inf" || word == "infinity" then some (.infinite negative)
  else if word == "nan" then some .nan
  else
    let whole := cs.takeWhile isDigit
    let rest := cs.dropWhile isDigit
    let (fraction, rest) := match rest with
      | '.' :: rest => (rest.takeWhile isDigit, rest.dropWhile isDigit)
      | rest => ([], rest)
    let digits := whole ++ fraction
    if digits.isEmpty then none
    else match rest with
      | [] => some (scaled negative digits (-Int.ofNat fraction.length))
      | c :: rest =>
        if c == 'e' || c == 'E' then
          (exponent? rest).map fun e => scaled negative digits (e - Int.ofNat fraction.length)
        else none

def float? : List Char → Option Binary64
  | '+' :: cs => unsignedFloat? false cs
  | '-' :: cs => unsignedFloat? true cs
  | cs => unsignedFloat? false cs

end IngestionQueue.Literal
