import IngestionQueue.Bytes.Hex

/-!
# Random identifiers

An identifier is made of sixteen random bytes, written as five groups of hexadecimal digits. Six bits are
fixed: four name the version, which is the random one, and two the variant.
-/

namespace IngestionQueue.Uuid

/-- The bytes with the version and the variant set. -/
def stamp (bytes : Bytes) : Bytes :=
  bytes.mapIdx fun i b =>
    if i = 6 then UInt8.ofNat (0x40 + b.toNat % 0x10)
    else if i = 8 then UInt8.ofNat (0x80 + b.toNat % 0x40)
    else b

/-- The identifier of sixteen bytes; further bytes are not used. -/
def ofBytes (bytes : Bytes) : String :=
  let digits := (Hex.encode (stamp (bytes.take 16))).toList
  let group (start length : Nat) : String := String.ofList ((digits.drop start).take length)
  "-".intercalate [group 0 8, group 8 4, group 12 4, group 16 4, group 20 12]

end IngestionQueue.Uuid
