import IngestionQueue.Bytes.Hex

/-!
# JSON text

`Syntax` is a JSON text as it stands: a numeral keeps its digits, an object keeps its members in order with
repetitions, and a string that escapes half of a surrogate pair is a string that denotes no text. What a
reader skips therefore only has to be well formed, while what it uses must also denote a value. `Syntax.parse`
reads a whole text, with white space around it.
-/

namespace IngestionQueue.Json

/-- A string token, `none` when an escape in it names half of a surrogate pair. -/
abbrev Token := Option String

/-- A numeral: the digits before the point, after the point, and of the exponent with its sign. -/
structure Numeral where
  negative : Bool
  whole : List Char
  fraction : Option (List Char)
  exponent : Option (Bool × List Char)
  deriving DecidableEq, Repr

inductive Syntax
  | null
  | bool (b : Bool)
  | number (n : Numeral)
  | string (s : Token)
  | array (items : List Syntax)
  | object (members : List (Token × Syntax))

namespace Syntax

def isSpace (c : Char) : Bool :=
  c == ' ' || c == '\n' || c == '\t' || c == '\r'

def skipSpace (cs : List Char) : List Char :=
  cs.dropWhile isSpace

/-- A reader takes a beginning of the characters and returns what follows it. -/
abbrev Reader (α : Type) := List Char → Option (α × List Char)

/-- The number that four hexadecimal digits write. -/
def unit? (a b c d : Char) : Option Nat := do
  let a ← Hex.digitValue? a
  let b ← Hex.digitValue? b
  let c ← Hex.digitValue? c
  let d ← Hex.digitValue? d
  return a * 0x1000 + b * 0x100 + c * 0x10 + d

def isHighSurrogate (n : Nat) : Bool :=
  0xD800 ≤ n && n < 0xDC00

def isLowSurrogate (n : Nat) : Bool :=
  0xDC00 ≤ n && n < 0xE000

/-- The character after a backslash stands for this one. -/
def escaped? : Char → Option Char
  | '"' => some '"'
  | '\\' => some '\\'
  | '/' => some '/'
  | 'b' => some '\x08'
  | 'f' => some '\x0c'
  | 'n' => some '\n'
  | 'r' => some '\r'
  | 't' => some '\t'
  | _ => none

/-- What one character or escape of a string contributes: a character, or half of a surrogate pair. -/
inductive Piece
  | char (c : Char)
  | half (n : Nat)

def Piece.ofUnit (n : Nat) : Piece :=
  if isHighSurrogate n || isLowSurrogate n then .half n else .char (Char.ofNat n)

/-- The pieces of a string up to its closing quote; a control character must be escaped. -/
def readPieces : Reader (List Piece)
  | [] => none
  | '"' :: rest => some ([], rest)
  | '\\' :: 'u' :: a :: b :: c :: d :: rest => do
    let n ← unit? a b c d
    let (pieces, rest) ← readPieces rest
    return (.ofUnit n :: pieces, rest)
  | '\\' :: c :: rest => do
    let e ← escaped? c
    let (pieces, rest) ← readPieces rest
    return (.char e :: pieces, rest)
  | c :: rest => do
    if c.toNat < 0x20 then none
    else
      let (pieces, rest) ← readPieces rest
      return (.char c :: pieces, rest)

/-- The text of a string, where its halves of surrogate pairs come in pairs. -/
def assemble : List Piece → Option (List Char)
  | [] => some []
  | .char c :: rest => (assemble rest).map (c :: ·)
  | .half n :: .half m :: rest =>
    if isHighSurrogate n && isLowSurrogate m then
      (assemble rest).map (Char.ofNat (0x10000 + (n - 0xD800) * 0x400 + (m - 0xDC00)) :: ·)
    else none
  | .half _ :: _ => none

def readToken : Reader Token := fun cs => do
  let (pieces, rest) ← readPieces cs
  return ((assemble pieces).map String.ofList, rest)

def readDigits (cs : List Char) : List Char × List Char :=
  (cs.takeWhile Char.isDigit, cs.dropWhile Char.isDigit)

/-- At least one digit. -/
def readSomeDigits : Reader (List Char) := fun cs =>
  let (ds, rest) := readDigits cs
  if ds.isEmpty then none else some (ds, rest)

def readFraction : Reader (Option (List Char))
  | '.' :: rest => do
    let (ds, rest) ← readSomeDigits rest
    return (some ds, rest)
  | cs => some (none, cs)

def readSign : List Char → Bool × List Char
  | '-' :: rest => (true, rest)
  | '+' :: rest => (false, rest)
  | cs => (false, cs)

def readExponent : Reader (Option (Bool × List Char))
  | c :: rest => do
    if c == 'e' || c == 'E' then
      let (negative, rest) := readSign rest
      let (ds, rest) ← readSomeDigits rest
      return (some (negative, ds), rest)
    else return (none, c :: rest)
  | [] => some (none, [])

/-- An unsigned numeral; a zero is not followed by further digits. -/
def readUnsigned (negative : Bool) : Reader Syntax := fun cs => do
  let (whole, rest) ← readSomeDigits cs
  if whole.head? == some '0' && 1 < whole.length then none
  else
    let (fraction, rest) ← readFraction rest
    let (exponent, rest) ← readExponent rest
    return (.number ⟨negative, whole, fraction, exponent⟩, rest)

/-- A word that stands for a value. -/
def readWord (word : List Char) (value : Syntax) : Reader Syntax := fun cs =>
  if word.isPrefixOf cs then some (value, cs.drop word.length) else none

mutual

/-- One value, with white space before it. Each level of nesting and each item uses a unit of fuel. -/
def readValue : Nat → Reader Syntax
  | 0, _ => none
  | fuel + 1, cs =>
    match skipSpace cs with
    | '"' :: rest => do
      let (s, rest) ← readToken rest
      return (.string s, rest)
    | '[' :: rest =>
      match skipSpace rest with
      | ']' :: rest => some (.array [], rest)
      | rest => do
        let (items, rest) ← readItems fuel rest
        return (.array items, rest)
    | '\x7b' :: rest =>
      match skipSpace rest with
      | '\x7d' :: rest => some (.object [], rest)
      | rest => do
        let (members, rest) ← readMembers fuel rest
        return (.object members, rest)
    | '-' :: rest => readUnsigned true rest
    | 'n' :: rest => readWord ['u', 'l', 'l'] .null rest
    | 't' :: rest => readWord ['r', 'u', 'e'] (.bool true) rest
    | 'f' :: rest => readWord ['a', 'l', 's', 'e'] (.bool false) rest
    | rest => readUnsigned false rest

/-- The items of an array up to its closing bracket. -/
def readItems : Nat → Reader (List Syntax)
  | 0, _ => none
  | fuel + 1, cs => do
    let (item, rest) ← readValue fuel cs
    match skipSpace rest with
    | ',' :: rest => do
      let (items, rest) ← readItems fuel rest
      return (item :: items, rest)
    | ']' :: rest => return ([item], rest)
    | _ => none

/-- The members of an object up to its closing brace. -/
def readMembers : Nat → Reader (List (Token × Syntax))
  | 0, _ => none
  | fuel + 1, cs =>
    match skipSpace cs with
    | '"' :: rest => do
      let (name, rest) ← readToken rest
      match skipSpace rest with
      | ':' :: rest => do
        let (value, rest) ← readValue fuel rest
        match skipSpace rest with
        | ',' :: rest => do
          let (members, rest) ← readMembers fuel rest
          return ((name, value) :: members, rest)
        | '\x7d' :: rest => return ([(name, value)], rest)
        | _ => none
      | _ => none
    | _ => none

end

/-- Reads a whole text: one value with nothing but white space around it. -/
def parse (text : String) : Option Syntax := do
  let cs := text.toList
  let (value, rest) ← readValue (cs.length + 1) cs
  if (skipSpace rest).isEmpty then some value else none

end Syntax

end IngestionQueue.Json
