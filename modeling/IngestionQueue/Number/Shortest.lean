import IngestionQueue.Number.Binary64

/-!
# The shortest decimal that reads back

Every decimal in the interval around a floating-point value that rounds to it reads back as that value. On the
grids of one, two, … seventeen significant digits only the two neighbours of the value have to be tried: the
first grid with a neighbour inside the interval has the fewest digits, and of two such neighbours the nearer
one is taken.
-/

namespace IngestionQueue.Binary64

/-- `digits * 10 ^ exponent`. -/
structure Decimal where
  digits : Nat
  exponent : Int
  deriving DecidableEq, Repr

/-- `n / d` compared with `a * 10 ^ p`, as two natural numbers in the same order. -/
def alignWith (n d a : Nat) (p : Int) : Nat × Nat :=
  if 0 ≤ p then (n, a * Nat.pow 10 p.toNat * d) else (n * Nat.pow 10 (-p).toNat, a * d)

/-- The greatest power of ten that is at most `n / d`. -/
def log10Ratio (n d : Nat) : Int :=
  if d ≤ n then ((Nat.toDigits 10 (n / d)).length : Int) - 1
  else -((Nat.toDigits 10 ((d + n - 1) / n - 1)).length : Int)

/-- The interval of numbers that round to `mantissa * 2 ^ exponent`, in quarters of its last place. -/
def quarterBounds (mantissa : Nat) (exponent : Int) : Nat × Nat :=
  let below := if mantissa == 0x10000000000000 && leastExponent < exponent then 1 else 2
  (4 * mantissa - below, 4 * mantissa + 2)

/-- The neighbour of the value on the grid of multiples of `10 ^ p` that reads back, where there is one. -/
def onGrid? (mantissa : Nat) (exponent : Int) (p : Int) : Option Decimal :=
  let (low, high) := quarterBounds mantissa exponent
  let closed := mantissa % 2 == 0
  let within (a : Nat) : Bool :=
    let (l, d) := scale2 low 1 (exponent - 2)
    let (h, _) := scale2 high 1 (exponent - 2)
    let (l, al) := alignWith l d a p
    let (h, ah) := alignWith h d a p
    if closed then l ≤ al && ah ≤ h else l < al && ah < h
  let (num, den) := scale2 mantissa 1 exponent
  let floor :=
    if 0 ≤ p then num / (den * Nat.pow 10 p.toNat) else num * Nat.pow 10 (-p).toNat / den
  let (v, down) := alignWith num den floor p
  let (_, up) := alignWith num den (floor + 1) p
  let downNearer := v - down < up - v || (v - down == up - v && floor % 2 == 0)
  match within floor, within (floor + 1) with
  | true, true => some ⟨if downNearer then floor else floor + 1, p⟩
  | true, false => some ⟨floor, p⟩
  | false, true => some ⟨floor + 1, p⟩
  | false, false => none

/-- Drops the zeros at the end of the digits. -/
def Decimal.normalize : Nat → Decimal → Decimal
  | 0, d => d
  | fuel + 1, d =>
    if d.digits != 0 && d.digits % 10 == 0 then normalize fuel ⟨d.digits / 10, d.exponent + 1⟩ else d

/-- The shortest decimal that reads back as `mantissa * 2 ^ exponent`, zero for the zero mantissa. -/
def shortest (mantissa : Nat) (exponent : Int) : Decimal :=
  if mantissa == 0 then ⟨0, 0⟩
  else
    let (num, den) := scale2 mantissa 1 exponent
    let top := log10Ratio num den
    let candidates := (List.range 17).filterMap fun n : Nat => onGrid? mantissa exponent (top - n)
    (candidates.headD ⟨mantissa, 0⟩).normalize 20

/-- Positional text of a decimal, with a point only where digits follow it. -/
def Decimal.positional (d : Decimal) : String :=
  let ds := Nat.toDigits 10 d.digits
  if 0 ≤ d.exponent then String.ofList (ds ++ List.replicate d.exponent.toNat '0')
  else
    let places := (-d.exponent).toNat
    let padded := List.replicate (places + 1 - ds.length) '0' ++ ds
    let whole := padded.length - places
    String.ofList (padded.take whole ++ '.' :: padded.drop whole)

/-- The shortest digits in positional notation, however large or small the value is. -/
def toText : Binary64 → String
  | .nan => "NaN"
  | .infinite s => if s then "-inf" else "inf"
  | .finite s m e => (if s then "-" else "") ++ (shortest m e).positional

end IngestionQueue.Binary64
