import IngestionQueue.Bytes.Hex

/-!
# Base64

The standard alphabet with padding. Reading is strict: every symbol must be in the alphabet, padding stands
only at the end and makes the length a multiple of four, and the bits that the last symbol has to spare are
zero.
-/

namespace IngestionQueue.Base64

/-- The symbol of a number below sixty-four. -/
def symbol (n : Nat) : UInt8 :=
  UInt8.ofNat (if n < 26 then 65 + n else if n < 52 then 71 + n else if n < 62 then n - 4
    else if n == 62 then 43 else 47)

def symbolValue? (b : UInt8) : Option Nat :=
  let n := b.toNat
  if 65 ≤ n && n ≤ 90 then some (n - 65)
  else if 97 ≤ n && n ≤ 122 then some (n - 71)
  else if 48 ≤ n && n ≤ 57 then some (n + 4)
  else if n == 43 then some 62
  else if n == 47 then some 63
  else none

/-- The padding symbol, an equals sign. -/
def padding : UInt8 := 61

def encode : Bytes → Bytes
  | [] => []
  | [a] => [symbol (a.toNat / 4), symbol (a.toNat % 4 * 16), padding, padding]
  | [a, b] =>
    [symbol (a.toNat / 4), symbol (a.toNat % 4 * 16 + b.toNat / 16), symbol (b.toNat % 16 * 4), padding]
  | a :: b :: c :: rest =>
    symbol (a.toNat / 4) :: symbol (a.toNat % 4 * 16 + b.toNat / 16) ::
      symbol (b.toNat % 16 * 4 + c.toNat / 64) :: symbol (c.toNat % 64) :: encode rest

/-- Base64 text as characters, each symbol being one of the first 128. -/
def encodeText (bytes : Bytes) : String :=
  String.ofList ((encode bytes).map fun b => Char.ofNat b.toNat)

inductive DecodeError
  | invalidByte (offset : Nat) (byte : UInt8)
  | invalidLength (length : Nat)
  | invalidLastSymbol (offset : Nat) (byte : UInt8)
  | invalidPadding
  deriving DecidableEq

def DecodeError.message : DecodeError → String
  | .invalidByte offset byte => s!"Invalid symbol {byte.toNat}, offset {offset}."
  | .invalidLength length => s!"Invalid input length: {length}"
  | .invalidLastSymbol offset byte => s!"Invalid last symbol {byte.toNat}, offset {offset}."
  | .invalidPadding => "Invalid padding"

/-- The symbols of the last quad, with the number of padding symbols after them. -/
structure Tail where
  values : List Nat
  lastSymbol : UInt8
  pads : Nat

/-- Reads the last quad, which may be short. The fault reported is the first one from the left; padding before
the third place is itself a fault, and padding before a symbol counts against the padding. -/
def readTail (offset index : Nat) (firstPad : Nat) (seen : Tail) : Bytes → Except DecodeError Tail
  | [] => .ok seen
  | b :: rest =>
    if b == padding then
      if index < 2 then .error (.invalidByte (offset + index) b)
      else readTail offset (index + 1) (if seen.pads == 0 then index else firstPad)
        { seen with pads := seen.pads + 1 } rest
    else if seen.pads > 0 then .error (.invalidByte (offset + firstPad) padding)
    else match symbolValue? b with
      | none => .error (.invalidByte (offset + index) b)
      | some v => readTail offset (index + 1) firstPad
          { seen with values := seen.values ++ [v], lastSymbol := b } rest

/-- The bytes of the last quad. -/
def finish (offset length : Nat) (tail : Tail) : Except DecodeError Bytes :=
  let count := tail.values.length
  if length != 0 && count < 2 then .error (.invalidLength (offset + count))
  else if (count + tail.pads) % 4 != 0 then .error .invalidPadding
  else
    let bits := tail.values.foldl (fun n v => n * 64 + v) 0
    let whole := count * 6 / 8
    let spare := count * 6 - whole * 8
    if bits % Nat.pow 2 spare != 0 then .error (.invalidLastSymbol (offset + count - 1) tail.lastSymbol)
    else .ok ((List.range whole).map fun i => UInt8.ofNat (bits / Nat.pow 2 (spare + 8 * (whole - 1 - i))))

/-- Reads `n` whole quads, none of which may hold padding, and then the last quad. -/
def readQuads (length : Nat) : Nat → Nat → Bytes → Except DecodeError Bytes
  | n + 1, offset, a :: b :: c :: d :: rest =>
    match symbolValue? a, symbolValue? b, symbolValue? c, symbolValue? d with
    | none, _, _, _ => .error (.invalidByte offset a)
    | _, none, _, _ => .error (.invalidByte (offset + 1) b)
    | _, _, none, _ => .error (.invalidByte (offset + 2) c)
    | _, _, _, none => .error (.invalidByte (offset + 3) d)
    | some v, some w, some x, some y => do
      let tail ← readQuads length n (offset + 4) rest
      return UInt8.ofNat (v * 4 + w / 16) :: UInt8.ofNat (w % 16 * 16 + x / 4) ::
        UInt8.ofNat (x % 4 * 64 + y) :: tail
  | _, offset, bytes => do
    let tail ← readTail offset 0 0 ⟨[], 0, 0⟩ bytes
    finish offset length tail

/-- Reads Base64. A last symbol that stands alone in its quad is reported first when it is not in the
alphabet, so that a line end after the text is named as such. -/
def decode (text : Bytes) : Except DecodeError Bytes :=
  let length := text.length
  let rem := length % 4
  match text.getLast? with
  | some b =>
    if rem == 1 && b != padding && (symbolValue? b).isNone then .error (.invalidByte (length - 1) b)
    else readQuads length ((length - rem - (if rem == 0 then 4 else 0)) / 4) 0 text
  | none => .ok []

end IngestionQueue.Base64
