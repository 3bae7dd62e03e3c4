import IngestionQueue.Json.Basic
import IngestionQueue.Json.Syntax
import IngestionQueue.Number.Shortest
import IngestionQueue.Number.Word

/-!
# The value of a JSON text

A numeral without point and exponent is an integer where it fits in 64 bits, signed or unsigned; every other
numeral is a floating-point value, and one too large for that has no value. At most nineteen or twenty digits
count: the significand takes digits as long as it stays below 2^64, and the digits after that only shift the
point. The result is the significand times or divided by a power of ten, each step rounded.

Arrays and objects may be nested 127 deep.
-/

namespace IngestionQueue.Json

/-- The greatest depth of nesting that is read. -/
def maxDepth : Nat := 127

def unsignedBound : Nat := 0x10000000000000000

/-- Takes digits into a significand while it stays below 2^64, and counts the digits taken and left. -/
def takeDigits : Nat → List Char → Nat × Nat × Nat
  | significand, [] => (significand, 0, 0)
  | significand, c :: cs =>
    let next := significand * 10 + (c.toNat - 48)
    if next < unsignedBound then
      let (s, taken, left) := takeDigits next cs
      (s, taken + 1, left)
    else (significand, 0, cs.length + 1)

/-- The value of a run of digits. -/
def digitsValue (cs : List Char) : Nat :=
  cs.foldl (fun n c => n * 10 + (c.toNat - 48)) 0

/-- `f * 10 ^ e`, a large negative power being divided out in steps of `10 ^ 308`. There is no value where
the result would be infinite. -/
def scale10 : Nat → Binary64 → Int → Option Binary64
  | 0, f, _ => some f
  | fuel + 1, f, e =>
    if e.natAbs ≤ 308 then
      let power := Binary64.ofNat (Nat.pow 10 e.natAbs)
      if 0 ≤ e then
        match f.mul power with
        | .infinite _ => none
        | g => some g
      else some (f.div power)
    else if f.isZero then some f
    else if 0 ≤ e then none
    else scale10 fuel (f.div (Binary64.ofNat (Nat.pow 10 308))) (e + 308)

def applySign (negative : Bool) (f : Binary64) : Binary64 :=
  if negative then f.negate else f

namespace Numeral

/-- The floating-point value of a numeral. An exponent beyond 32 bits gives zero or no value. -/
def toFloat? (n : Numeral) : Option Binary64 :=
  let (significand, _, shift) := takeDigits 0 n.whole
  let (significand, places, _) := takeDigits significand (n.fraction.getD [])
  let base : Int := (shift : Int) - places
  match n.exponent with
  | none => (scale10 8 (.ofNat significand) base).map (applySign n.negative)
  | some (negative, ds) =>
    let e := digitsValue ds
    if Word.greatest32 < e then
      if significand != 0 && !negative then none else some (applySign n.negative (.ofNat 0))
    else
      let power := if negative then base - e else base + e
      let power := max Word.least32 (min Word.greatest32 power)
      (scale10 8 (.ofNat significand) power).map (applySign n.negative)

/-- The value of a numeral; a negative zero is a floating-point value. -/
def toJson? (n : Numeral) : Option Json :=
  if n.fraction.isNone && n.exponent.isNone then
    let v := digitsValue n.whole
    if n.negative then
      if 0 < v && v ≤ 0x8000000000000000 then some (.int (-(v : Int))) else n.toFloat?.map .float
    else if v < unsignedBound then some (.int v)
    else n.toFloat?.map .float
  else n.toFloat?.map .float

end Numeral

namespace Syntax

mutual

/-- The value of a text that may be nested as deep as the number says. -/
def toJson? : Nat → Syntax → Option Json
  | _, .null => some .null
  | _, .bool b => some (.bool b)
  | _, .number n => n.toJson?
  | _, .string s => s.map .string
  | depth, .array items => if depth = 0 then none else (itemsToJson? (depth - 1) items).map .array
  | depth, .object members =>
    if depth = 0 then none else (membersToJson? (depth - 1) members).map .ofFields

def itemsToJson? : Nat → List Syntax → Option (List Json)
  | _, [] => some []
  | depth, item :: items => do
    let v ← toJson? depth item
    let vs ← itemsToJson? depth items
    return v :: vs

def membersToJson? : Nat → List (Token × Syntax) → Option (List (String × Json))
  | _, [] => some []
  | depth, (name, value) :: members => do
    let n ← name
    let v ← toJson? depth value
    let vs ← membersToJson? depth members
    return (n, v) :: vs

end

mutual

/-- A value as a text would give it, a floating-point value as its shortest digits with an exponent. -/
def ofJson : Json → Syntax
  | .null => .null
  | .bool b => .bool b
  | .int n => .number ⟨n < 0, Nat.toDigits 10 n.natAbs, none, none⟩
  | .float (.finite negative m e) =>
    let d := Binary64.shortest m e
    .number ⟨negative, Nat.toDigits 10 d.digits, none,
      some (d.exponent < 0, Nat.toDigits 10 d.exponent.natAbs)⟩
  | .float _ => .null
  | .string s => .string (some s)
  | .array items => .array (ofItems items)
  | .object fields => .object (ofMembers fields)

def ofItems : List Json → List Syntax
  | [] => []
  | item :: items => ofJson item :: ofItems items

def ofMembers : List (String × Json) → List (Token × Syntax)
  | [] => []
  | (name, value) :: fields => (some name, ofJson value) :: ofMembers fields

end

end Syntax

/-- The value of a whole text. -/
def parse (text : String) : Option Json := do
  let s ← Syntax.parse text
  s.toJson? maxDepth

end IngestionQueue.Json
