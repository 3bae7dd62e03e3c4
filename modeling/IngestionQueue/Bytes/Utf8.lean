import IngestionQueue.Bytes.Hex

/-!
# UTF-8

`encode` writes each character in one to four bytes. `decode` reads the well-formed characters of any byte
string in order and drops everything else: a lead byte whose sequence breaks off is dropped together with the
continuation bytes that belong to it, and reading goes on at the first byte that does not.
-/

namespace IngestionQueue.Utf8

/-- The bytes of one character. -/
def encodeChar (c : Char) : Bytes :=
  let n := c.toNat
  if n < 0x80 then [UInt8.ofNat n]
  else if n < 0x800 then [UInt8.ofNat (0xC0 + n / 0x40), UInt8.ofNat (0x80 + n % 0x40)]
  else if n < 0x10000 then
    [UInt8.ofNat (0xE0 + n / 0x1000), UInt8.ofNat (0x80 + n / 0x40 % 0x40), UInt8.ofNat (0x80 + n % 0x40)]
  else
    [UInt8.ofNat (0xF0 + n / 0x40000), UInt8.ofNat (0x80 + n / 0x1000 % 0x40),
      UInt8.ofNat (0x80 + n / 0x40 % 0x40), UInt8.ofNat (0x80 + n % 0x40)]

def encode (cs : List Char) : Bytes :=
  cs.flatMap encodeChar

def ofString (s : String) : Bytes :=
  encode s.toList

/-- A character under way: its bits so far, the continuation bytes still missing, and the range that the next
of them must lie in. -/
structure Pending where
  bits : Nat
  missing : Nat
  low : Nat
  high : Nat

/-- What a byte that begins a sequence says: a whole character, a character under way, or nothing. -/
inductive Lead
  | single (c : Char)
  | sequence (p : Pending)
  | illFormed

/-- The second byte of a sequence is narrowed after `E0`, `ED`, `F0` and `F4`, which keeps out overlong forms,
surrogates and numbers beyond the last character. -/
def lead (b : UInt8) : Lead :=
  let n := b.toNat
  if n < 0x80 then .single (Char.ofNat n)
  else if n < 0xC2 then .illFormed
  else if n < 0xE0 then .sequence ⟨n - 0xC0, 1, 0x80, 0xBF⟩
  else if n == 0xE0 then .sequence ⟨0, 2, 0xA0, 0xBF⟩
  else if n == 0xED then .sequence ⟨0xD, 2, 0x80, 0x9F⟩
  else if n < 0xF0 then .sequence ⟨n - 0xE0, 2, 0x80, 0xBF⟩
  else if n == 0xF0 then .sequence ⟨0, 3, 0x90, 0xBF⟩
  else if n < 0xF4 then .sequence ⟨n - 0xF0, 3, 0x80, 0xBF⟩
  else if n == 0xF4 then .sequence ⟨4, 3, 0x80, 0x8F⟩
  else .illFormed

/-- The state after a byte that begins a sequence, with the characters it completes. An ill-formed sequence
leaves a mark. -/
def start (mark : List Char) (b : UInt8) : Option Pending × List Char :=
  match lead b with
  | .single c => (none, [c])
  | .sequence p => (some p, [])
  | .illFormed => (none, mark)

/-- One byte read: a byte that does not continue the character under way drops it and begins anew. -/
def step (mark : List Char) (state : Option Pending) (b : UInt8) : Option Pending × List Char :=
  match state with
  | none => start mark b
  | some p =>
    if p.low ≤ b.toNat && b.toNat ≤ p.high then
      let bits := p.bits * 0x40 + (b.toNat - 0x80)
      if p.missing ≤ 1 then (none, [Char.ofNat bits])
      else (some ⟨bits, p.missing - 1, 0x80, 0xBF⟩, [])
    else
      let (next, chars) := start mark b
      (next, mark ++ chars)

def decodeFrom (mark : List Char) (state : Option Pending) : Bytes → List Char
  | [] => if state.isSome then mark else []
  | b :: rest =>
    let (next, chars) := step mark state b
    chars ++ decodeFrom mark next rest

/-- The well-formed characters of a byte string, in order. -/
def decode (bytes : Bytes) : List Char :=
  decodeFrom [] none bytes

/-- The characters of a byte string, with the replacement character for each ill-formed sequence. -/
def decodeReplacing (bytes : Bytes) : List Char :=
  decodeFrom [Char.ofNat 0xFFFD] none bytes

/-- Where the first ill-formed sequence begins, and its length unless the bytes end within it. -/
structure Fault where
  index : Nat
  length : Option Nat
  deriving DecidableEq, Repr

def Fault.message (f : Fault) : String :=
  let index := f.index
  match f.length with
  | some length => s!"invalid utf-8 sequence of {length} bytes from index {index}"
  | none => s!"incomplete utf-8 byte sequence from index {index}"

/-- The first fault in the bytes from `index` on, where the character under way began at `begun`. -/
def faultFrom (index begun : Nat) (state : Option Pending) : Bytes → Option Fault
  | [] => if state.isSome then some ⟨begun, none⟩ else none
  | b :: rest =>
    match state with
    | none =>
      match lead b with
      | .single _ => faultFrom (index + 1) (index + 1) none rest
      | .sequence p => faultFrom (index + 1) index (some p) rest
      | .illFormed => some ⟨index, some 1⟩
    | some p =>
      if p.low ≤ b.toNat && b.toNat ≤ p.high then
        if p.missing ≤ 1 then faultFrom (index + 1) (index + 1) none rest
        else faultFrom (index + 1) begun (some ⟨0, p.missing - 1, 0x80, 0xBF⟩) rest
      else some ⟨begun, some (index - begun)⟩

def fault? (bytes : Bytes) : Option Fault :=
  faultFrom 0 0 none bytes

/-- The text of a byte string that is well formed throughout. -/
def toString? (bytes : Bytes) : Option String :=
  let chars := decode bytes
  if encode chars == bytes then some (String.ofList chars) else none

end IngestionQueue.Utf8
