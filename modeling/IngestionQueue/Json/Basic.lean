import IngestionQueue.Number.Binary64

/-!
# JSON values

A number is an integer of 64 bits or a floating-point value, and an object is a list of named fields. A value
that was read is in canonical form: the fields of its objects are in the order of their names, each name once.
`insertField` keeps them so, a later field replacing an earlier one of the same name.
-/

namespace IngestionQueue

inductive Json
  | null
  | bool (b : Bool)
  | int (n : Int)
  | float (x : Binary64)
  | string (s : String)
  | array (items : List Json)
  | object (fields : List (String × Json))

namespace Json

def insertField (name : String) (value : Json) : List (String × Json) → List (String × Json)
  | [] => [(name, value)]
  | (n, v) :: rest =>
    if name < n then (name, value) :: (n, v) :: rest
    else if name = n then (name, value) :: rest
    else (n, v) :: insertField name value rest

/-- The object with the given fields. -/
def ofFields (fields : List (String × Json)) : Json :=
  .object (fields.foldl (fun acc p => insertField p.1 p.2 acc) [])

def field? (name : String) : Json → Option Json
  | .object fields => (fields.find? fun p => p.1 == name).map Prod.snd
  | _ => none

/-- An optional value, absence being `null`. -/
def ofOption {α : Type} (f : α → Json) : Option α → Json
  | none => .null
  | some a => f a

end Json

end IngestionQueue
