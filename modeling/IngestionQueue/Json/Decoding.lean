import IngestionQueue.Json.Reading
import IngestionQueue.Json.Printing
import IngestionQueue.Text.Quoted

/-!
# Typed reading of JSON

A decoder turns a JSON text into a value of a type. A record is read from an object or from the array of its
fields in order. In an object the fields may come in any order, unknown fields are skipped, a field that is
repeated is an error, and a field that is missing is an error unless it is optional or has a default. An array
has exactly one item for each field, but fields with a default may be left out at its end. An enumeration is
read from the name of one of its members, or from an object whose only field is that name with the value
`null`.
-/

namespace IngestionQueue.Json

inductive DecodeError
  | malformed
  | tooDeep
  | invalidType (found expected : String)
  | invalidValue (found expected : String)
  | invalidLength (length : Nat) (expected : String)
  | missingField (name : String)
  | duplicateField (name : String)
  | unknownVariant (name : String) (members : List String)
  deriving DecidableEq

def DecodeError.message : DecodeError → String
  | .malformed => "malformed text"
  | .tooDeep => "recursion limit exceeded"
  | .invalidType found expected => s!"invalid type: {found}, expected {expected}"
  | .invalidValue found expected => s!"invalid value: {found}, expected {expected}"
  | .invalidLength length expected => s!"invalid length {length}, expected {expected}"
  | .missingField name => s!"missing field `{name}`"
  | .duplicateField name => s!"duplicate field `{name}`"
  | .unknownVariant name members =>
    let listed := ", ".intercalate (members.map fun m => "`" ++ m ++ "`")
    s!"unknown variant `{name}`, expected one of {listed}"

/-- A decoder is told how deep the text may still be nested. -/
abbrev Decoder (α : Type) := Nat → Syntax → Except DecodeError α

namespace Syntax

/-- What a message calls a value of the wrong type. -/
def describe : Syntax → String
  | .null => "null"
  | .bool true => "boolean `true`"
  | .bool false => "boolean `false`"
  | .number n =>
    match n.toJson? with
    | some (.int v) => s!"integer `{v}`"
    | some (.float x) => "floating point `" ++ String.ofList (printFloat x) ++ "`"
    | _ => "number"
  | .string (some s) => "string " ++ Text.quoted s
  | .string none => "string"
  | .array _ => "sequence"
  | .object _ => "map"

/-- The error for a value of the wrong type, or for one that is no value at all. -/
def mismatch {α : Type} (s : Syntax) (expected : String) : Except DecodeError α :=
  match s with
  | .string none => .error .malformed
  | .number n => match n.toJson? with
    | none => .error .malformed
    | some _ => .error (.invalidType s.describe expected)
  | s => .error (.invalidType s.describe expected)

end Syntax

namespace Decoder

def string : Decoder String := fun _ s =>
  match s with
  | .string (some t) => .ok t
  | s => s.mismatch "a string"

def bool : Decoder Bool := fun _ s =>
  match s with
  | .bool b => .ok b
  | s => s.mismatch "a boolean"

/-- An integer between two bounds; a numeral with a point or an exponent is none. -/
def integer (type : String) (least greatest : Int) : Decoder Int := fun _ s =>
  match s with
  | .number n =>
    match n.toJson? with
    | some (.int v) =>
      if least ≤ v ∧ v ≤ greatest then .ok v else .error (.invalidValue s.describe type)
    | _ => s.mismatch type
  | s => s.mismatch type

def int32 : Decoder Int := integer "i32" Word.least32 Word.greatest32

def int64 : Decoder Int := integer "i64" Word.least Word.greatest

def nat64 : Decoder Nat := fun depth s => (integer "u64" 0 Word.greatestUnsigned depth s).map Int.toNat

def byte : Decoder UInt8 := fun depth s => (integer "u8" 0 255 depth s).map fun v => UInt8.ofNat v.toNat

/-- `null` is the absent value. -/
def optional {α : Type} (d : Decoder α) : Decoder (Option α) := fun depth s =>
  match s with
  | .null => .ok none
  | s => (d depth s).map some

/-- Any value. -/
def value : Decoder Json := fun depth s =>
  match s.toJson? depth with
  | some v => .ok v
  | none => .error .malformed

def list {α : Type} (d : Decoder α) : Decoder (List α) := fun depth s =>
  match s with
  | .array items => if depth = 0 then .error .tooDeep else items.mapM (d (depth - 1))
  | s => s.mismatch "a sequence"

/-- A member of an enumeration, given the names of the members. -/
def variant {α : Type} (members : List (String × α)) : Decoder α := fun depth s =>
  let named (name : String) : Except DecodeError α :=
    match members.find? fun p => p.1 == name with
    | some p => .ok p.2
    | none => .error (.unknownVariant name (members.map Prod.fst))
  match s with
  | .string (some name) => named name
  | .object [(some name, .null)] => if depth = 0 then .error .tooDeep else named name
  | .object _ => .error (.invalidValue "map" "map with a single key")
  | s => s.mismatch "string or map"

end Decoder

/-- How the fields of a record are read: their names in order, those that may be left out at the end of an
array, a check for each field, and the record made from the fields that are there. -/
structure Record (α : Type) where
  names : List String
  defaulted : List String
  check : String → Decoder Unit
  build : Nat → (String → Option Syntax) → Except DecodeError α

namespace Record

variable {α β : Type}

def pure (a : α) : Record α :=
  ⟨[], [], fun _ _ _ => .ok (), fun _ _ => .ok a⟩

/-- A field whose absence from an object has the given result. -/
def fieldOr (name : String) (d : Decoder α) (absent : Except DecodeError α) (defaulted : Bool) :
    Record α where
  names := [name]
  defaulted := if defaulted then [name] else []
  check _ depth s := (d depth s).map fun _ => ()
  build depth slots :=
    match slots name with
    | some s => d depth s
    | none => absent

def required (name : String) (d : Decoder α) : Record α :=
  fieldOr name d (.error (.missingField name)) false

/-- A field that is absent or `null` when there is no value. -/
def optional (name : String) (d : Decoder α) : Record (Option α) :=
  fieldOr name (Decoder.optional d) (.ok none) false

def withDefault (name : String) (d : Decoder α) (value : α) : Record α :=
  fieldOr name d (.ok value) true

/-- The fields of two records, the first record's first. -/
def both (f : Record (α → β)) (x : Record α) : Record β where
  names := f.names ++ x.names
  defaulted := f.defaulted ++ x.defaulted
  check name depth s := if f.names.contains name then f.check name depth s else x.check name depth s
  build depth slots := do
    let g ← f.build depth slots
    let a ← x.build depth slots
    return g a

/-- Adds a required field. -/
def field (f : Record (α → β)) (name : String) (d : Decoder α) : Record β :=
  f.both (required name d)

def optionalField (f : Record (Option α → β)) (name : String) (d : Decoder α) : Record β :=
  f.both (optional name d)

/-- Adds an optional field that may also be left out at the end of an array. -/
def trailingField (f : Record (Option α → β)) (name : String) (d : Decoder α) : Record β :=
  f.both (withDefault name (Decoder.optional d) none)

def defaultField (f : Record (α → β)) (name : String) (d : Decoder α) (value : α) : Record β :=
  f.both (withDefault name d value)

/-- The known members of an object, each of which must be read without error and only once. -/
def collect (r : Record α) (depth : Nat) :
    List (Token × Syntax) → List (String × Syntax) → Except DecodeError (List (String × Syntax))
  | [], seen => .ok seen
  | (none, _) :: _, _ => .error .malformed
  | (some name, s) :: members, seen =>
    if r.names.contains name then
      if seen.any fun p => p.1 == name then .error (.duplicateField name)
      else do
        r.check name depth s
        collect r depth members (seen ++ [(name, s)])
    else collect r depth members seen

/-- The items of an array under the names of the fields. -/
def assign (r : Record α) (type : String) (given : Nat) :
    List String → List Syntax → Except DecodeError (List (String × Syntax))
  | [], [] => .ok []
  | [], _ :: _ => .error (.invalidLength given "fewer elements in array")
  | name :: names, [] =>
    if (name :: names).all r.defaulted.contains then .ok []
    else
      let count := r.names.length
      let noun := if count == 1 then "element" else "elements"
      .error (.invalidLength given s!"struct {type} with {count} {noun}")
  | name :: names, s :: items => do
    let rest ← assign r type given names items
    return (name, s) :: rest

def lookup (slots : List (String × Syntax)) (name : String) : Option Syntax :=
  (slots.find? fun p => p.1 == name).map Prod.snd

/-- The decoder of a record, `type` being what messages call it. -/
def decoder (r : Record α) (type : String) : Decoder α := fun depth s =>
  match s with
  | .object members =>
    if depth = 0 then .error .tooDeep
    else do
      let slots ← r.collect (depth - 1) members []
      r.build (depth - 1) (lookup slots)
  | .array items =>
    if depth = 0 then .error .tooDeep
    else do
      let slots ← r.assign type items.length r.names items
      r.build (depth - 1) (lookup slots)
  | s => s.mismatch s!"struct {type}"

end Record

/-- Reads a whole text with a decoder. -/
def decode {α : Type} (d : Decoder α) (text : String) : Except DecodeError α :=
  match Syntax.parse text with
  | some s => d maxDepth s
  | none => .error .malformed

/-- Reads a value with a decoder. -/
def decodeValue {α : Type} (d : Decoder α) (v : Json) : Except DecodeError α :=
  d maxDepth (.ofJson v)

end IngestionQueue.Json
