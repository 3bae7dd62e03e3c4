import IngestionQueue.Bytes.Hex
import IngestionQueue.Json.Basic
import IngestionQueue.Number.Shortest

/-!
# Writing JSON

The text of a value has no white space. In strings only the quote, the backslash and the control characters
are escaped. A floating-point value has the shortest digits that read back: positional, with a point, from
10^-5 up to 10^16, and with an exponent outside that range.
-/

namespace IngestionQueue.Json

def escapeChar (c : Char) : List Char :=
  match c with
  | '"' => ['\\', '"']
  | '\\' => ['\\', '\\']
  | '\x08' => ['\\', 'b']
  | '\x0c' => ['\\', 'f']
  | '\n' => ['\\', 'n']
  | '\r' => ['\\', 'r']
  | '\t' => ['\\', 't']
  | c =>
    if c.toNat < 0x20 then
      ['\\', 'u', '0', '0', Hex.digit (c.toNat / 16), Hex.digit (c.toNat % 16)]
    else [c]

def printString (s : String) : List Char :=
  '"' :: (s.toList.flatMap escapeChar ++ ['"'])

def printInt (n : Int) : List Char :=
  if n < 0 then '-' :: Nat.toDigits 10 n.natAbs else Nat.toDigits 10 n.natAbs

/-- A decimal with a point or an exponent, so that it reads back as a floating-point value. -/
def printDecimal (d : Binary64.Decimal) : List Char :=
  let ds := Nat.toDigits 10 d.digits
  let point : Int := ds.length + d.exponent
  if 0 ≤ d.exponent && point ≤ 16 then d.positional.toList ++ ['.', '0']
  else if -5 < point && point ≤ 16 then d.positional.toList
  else
    let mantissa := match ds with
      | [] => []
      | [c] => [c]
      | c :: cs => c :: '.' :: cs
    mantissa ++ 'e' :: printInt (point - 1)

/-- Infinities and the absence of a number have no text of their own. -/
def printFloat : Binary64 → List Char
  | .finite negative m e => (if negative then ['-'] else []) ++ printDecimal (Binary64.shortest m e)
  | _ => ['n', 'u', 'l', 'l']

mutual

def print : Json → List Char
  | .null => ['n', 'u', 'l', 'l']
  | .bool true => ['t', 'r', 'u', 'e']
  | .bool false => ['f', 'a', 'l', 's', 'e']
  | .int n => printInt n
  | .float x => printFloat x
  | .string s => printString s
  | .array items => '[' :: (printItems items ++ [']'])
  | .object fields => '\x7b' :: (printFields fields ++ ['\x7d'])

def printItems : List Json → List Char
  | [] => []
  | [item] => print item
  | item :: items => print item ++ ',' :: printItems items

def printFields : List (String × Json) → List Char
  | [] => []
  | [(name, value)] => printString name ++ ':' :: print value
  | (name, value) :: fields => printString name ++ ':' :: (print value ++ ',' :: printFields fields)

end

/-- The text of a value. -/
def text (v : Json) : String :=
  String.ofList v.print

end IngestionQueue.Json
