/-!
# Binary floating point of 64 bits

A finite value is a mantissa below 2^53 times a power of two. `ofRatio` rounds a ratio to the nearest value, a
tie going to the even mantissa; products, quotients and decimal literals are exact ratios that are rounded
once.
-/

namespace IngestionQueue

/-- A finite value is `mantissa * 2 ^ exponent`, the mantissa having 53 bits unless the exponent is the least
one, -1074. -/
inductive Binary64
  | nan
  | infinite (negative : Bool)
  | finite (negative : Bool) (mantissa : Nat) (exponent : Int)
  deriving DecidableEq, Repr

namespace Binary64

def leastExponent : Int := -1074

def greatestExponent : Int := 971

/-- The integer nearest to `n / d`, a tie going to the even one. -/
def nearestEven (n d : Nat) : Nat :=
  let q := n / d
  let r := n % d
  if 2 * r < d then q else if d < 2 * r then q + 1 else if q % 2 == 0 then q else q + 1

/-- `n * 2 ^ e / d` as a fraction of natural numbers. -/
def scale2 (n d : Nat) (e : Int) : Nat × Nat :=
  if 0 ≤ e then (n * Nat.pow 2 e.toNat, d) else (n, d * Nat.pow 2 (-e).toNat)

/-- The greatest power of two that is at most `n / d`. -/
def log2Ratio (n d : Nat) : Int :=
  let k : Int := (n.log2 : Int) - (d.log2 : Int)
  let (lhs, rhs) := scale2 n d (-k)
  if lhs < rhs then k - 1 else k

/-- The value nearest to `n / d`. -/
def ofRatio (negative : Bool) (n d : Nat) : Binary64 :=
  if n == 0 then .finite negative 0 leastExponent
  else
    let e := max (log2Ratio n d - 52) leastExponent
    let (num, den) := scale2 n d (-e)
    let m := nearestEven num den
    let (m, e) := if m == 0x20000000000000 then (0x10000000000000, e + 1) else (m, e)
    if greatestExponent < e then .infinite negative else .finite negative m e

def ofNat (n : Nat) : Binary64 :=
  ofRatio false n 1

/-- The value nearest to `n * 10 ^ e`. -/
def ofDecimal (negative : Bool) (n : Nat) (e : Int) : Binary64 :=
  if 0 ≤ e then ofRatio negative (n * Nat.pow 10 e.toNat) 1 else ofRatio negative n (Nat.pow 10 (-e).toNat)

def isZero : Binary64 → Bool
  | .finite _ m _ => m == 0
  | _ => false

def negate : Binary64 → Binary64
  | .nan => .nan
  | .infinite s => .infinite !s
  | .finite s m e => .finite (!s) m e

/-- The product of two finite values; no other product is formed. -/
def mul : Binary64 → Binary64 → Binary64
  | .finite s m e, .finite t n f =>
    let (num, den) := scale2 (m * n) 1 (e + f)
    ofRatio (s != t) num den
  | _, _ => .nan

/-- The quotient of two finite values, the second not zero; no other quotient is formed. -/
def div : Binary64 → Binary64 → Binary64
  | .finite s m e, .finite t n f =>
    let (num, den) := scale2 m n (e - f)
    ofRatio (s != t) num den
  | _, _ => .nan

/-- The nearest integer, a half going away from zero; the bound given for each infinity, zero for no number.
-/
def roundAway (least greatest : Int) : Binary64 → Int
  | .nan => 0
  | .infinite true => least
  | .infinite false => greatest
  | .finite s m e =>
    let (num, den) := scale2 m 1 e
    let n : Int := ((2 * num + den) / (2 * den) : Nat)
    max least (min greatest (if s then -n else n))

end Binary64

end IngestionQueue
