import IngestionQueue.Proofs.Wire
import Mathlib.Data.List.Forall2

/-!
# The texts of a value

A value of a type has many texts: a member of an enumeration may be spelled as an object, the fields of a record may
come in any order and among other fields, or as an array, and a value that is missing may be left out.  A `Spelling`
says which texts these are, apart from any decoder, and which one of them is written.  What a decoder accepts are
exactly the texts of a spelling (`Json.Decoder.Accepts`).  A value that has a text with whole numbers only can be
written, and what is written is one of its texts (`Json.Spelling.stable`).
-/

namespace IngestionQueue.Json

open Syntax

/-! ### Texts with whole numbers -/

namespace Syntax

mutual

/-- All numbers of a text are whole numbers of 64 bits. -/
def Whole : Syntax → Prop
  | .number n => ∃ v, n.toJson? = some (.int v)
  | .array items => WholeItems items
  | .object members => WholeMembers members
  | .null | .bool _ | .string _ => True

def WholeItems : List Syntax → Prop
  | [] => True
  | item :: items => item.Whole ∧ WholeItems items

def WholeMembers : List (Token × Syntax) → Prop
  | [] => True
  | (_, value) :: members => value.Whole ∧ WholeMembers members

end

theorem wholeMembers_iff {members : List (Token × Syntax)} :
    WholeMembers members ↔ ∀ m ∈ members, m.2.Whole := by
  induction members with
  | nil => simp [WholeMembers]
  | cons member members ih => simp [WholeMembers, ih]

end Syntax

/-- A whole number that is read has 64 bits. -/
theorem Numeral.range_of_toJson? {n : Numeral} {v : Int} (h : n.toJson? = some (.int v)) :
    Word.least ≤ v ∧ v ≤ Word.greatestUnsigned := by
  have hfloat : ∀ o : Option Binary64, o.map Json.float ≠ some (.int v) := by
    intro o
    cases o <;> simp
  unfold toJson? at h
  split at h
  · dsimp only at h
    split at h
    · split at h
      · rename_i hrange
        obtain rfl : -(digitsValue n.whole : Int) = v := by simpa using h
        simp only [Bool.and_eq_true, decide_eq_true_eq] at hrange
        simp only [Word.least, Word.greatestUnsigned]
        omega
      · exact absurd h (hfloat _)
    · split at h
      · rename_i hrange
        obtain rfl : (digitsValue n.whole : Int) = v := by simpa using h
        simp only [unsignedBound] at hrange
        simp only [Word.least, Word.greatestUnsigned]
        omega
      · exact absurd h (hfloat _)
  · exact absurd h (hfloat _)

/-! ### Values in canonical form -/

/-- The fields are in the order of their names, each name once. -/
def Ascending (fields : List (String × Json)) : Prop :=
  fields.Pairwise fun p q => p.1 < q.1

theorem mem_insertField {name : String} {value : Json} {fields : List (String × Json)} {p : String × Json}
    (h : p ∈ insertField name value fields) : p = (name, value) ∨ p ∈ fields := by
  induction fields with
  | nil => exact .inl (by simpa [insertField] using h)
  | cons field fields ih =>
    obtain ⟨n, v⟩ := field
    simp only [insertField] at h
    split at h
    · exact List.mem_cons.1 h
    · split at h
      · rcases List.mem_cons.1 h with heq | hrest
        · exact .inl heq
        · exact .inr (List.mem_cons_of_mem _ hrest)
      · rcases List.mem_cons.1 h with heq | hrest
        · exact .inr (heq ▸ List.mem_cons_self)
        · rcases ih hrest with heq | hold
          · exact .inl heq
          · exact .inr (List.mem_cons_of_mem _ hold)

theorem Ascending.insertField {fields : List (String × Json)} (h : Ascending fields) (name : String)
    (value : Json) : Ascending (insertField name value fields) := by
  induction fields with
  | nil => simp [Json.insertField, Ascending]
  | cons field fields ih =>
    obtain ⟨n, v⟩ := field
    obtain ⟨hfirst, hrest⟩ := List.pairwise_cons.1 h
    simp only [Json.insertField]
    split
    · rename_i hlt
      refine List.pairwise_cons.2 ⟨fun q hq => ?_, h⟩
      rcases List.mem_cons.1 hq with rfl | hq
      · exact hlt
      · exact String.lt_trans hlt (hfirst q hq)
    · rename_i hnot
      split
      · rename_i heq
        subst heq
        exact List.pairwise_cons.2 ⟨hfirst, hrest⟩
      · rename_i hne
        have hlt : n < name := Std.lt_of_le_of_ne (String.not_lt.1 hnot) (Ne.symm hne)
        refine List.pairwise_cons.2 ⟨fun q hq => ?_, ih hrest⟩
        rcases mem_insertField hq with rfl | hq
        · exact hlt
        · exact hfirst q hq

/-- The object with some fields has them in ascending order. -/
theorem ascending_foldl (fields : List (String × Json)) {acc : List (String × Json)} (h : Ascending acc) :
    Ascending (fields.foldl (fun acc p => insertField p.1 p.2 acc) acc) ∧
      ∀ p ∈ fields.foldl (fun acc p => insertField p.1 p.2 acc) acc, p ∈ acc ∨ p ∈ fields := by
  induction fields generalizing acc with
  | nil => exact ⟨h, fun p hp => .inl hp⟩
  | cons field fields ih =>
    obtain ⟨hascending, hmem⟩ := ih (h.insertField field.1 field.2)
    refine ⟨hascending, fun p hp => ?_⟩
    rcases hmem p hp with hinserted | hrest
    · rcases mem_insertField hinserted with rfl | hold
      · exact .inr List.mem_cons_self
      · exact .inl hold
    · exact .inr (List.mem_cons_of_mem _ hrest)

private theorem insertField_append {name : String} (value : Json) {fields : List (String × Json)}
    (h : ∀ p ∈ fields, p.1 < name) : insertField name value fields = fields ++ [(name, value)] := by
  induction fields with
  | nil => rfl
  | cons field fields ih =>
    obtain ⟨hfirst, hrest⟩ := List.forall_mem_cons.1 h
    have hnot : ¬name < field.1 := fun hlt => String.lt_irrefl _ (String.lt_trans hlt hfirst)
    have hne : name ≠ field.1 := fun heq => String.lt_irrefl _ (heq ▸ hfirst)
    rw [insertField, if_neg hnot, if_neg hne, ih hrest, List.cons_append]

private theorem foldl_insertField_ascending (fields acc : List (String × Json)) (h : Ascending (acc ++ fields)) :
    fields.foldl (fun acc p => insertField p.1 p.2 acc) acc = acc ++ fields := by
  induction fields generalizing acc with
  | nil => simp
  | cons field fields ih =>
    have hbelow : ∀ p ∈ acc, p.1 < field.1 := fun p hp =>
      (List.pairwise_append.1 h).2.2 p hp field List.mem_cons_self
    rw [List.foldl_cons, insertField_append field.2 hbelow, ih _ (by simpa using h), List.append_assoc,
      List.singleton_append]

/-- Fields in ascending order are the fields of their object. -/
theorem Ascending.ofFields {fields : List (String × Json)} (h : Ascending fields) :
    Json.ofFields fields = .object fields := by
  rw [Json.ofFields, foldl_insertField_ascending fields [] (by simpa using h), List.nil_append]

theorem canonicalFields_eq {fields : List (String × Json)} (h : ∀ p ∈ fields, canonical p.2 = p.2) :
    canonicalFields fields = fields := by
  induction fields with
  | nil => rfl
  | cons field fields ih =>
    obtain ⟨hfirst, hrest⟩ := List.forall_mem_cons.1 h
    rw [canonicalFields, hfirst, ih hrest]

mutual

/-- A value that was read from a text with whole numbers can be written, and is in canonical form. -/
theorem plain_of_toJson? {depth : Nat} {v : Json} (s : Syntax) (hwhole : s.Whole)
    (h : s.toJson? depth = some v) : Plain depth v ∧ canonical v = v := by
  cases s with
  | null =>
    obtain rfl := Option.some.inj h
    exact ⟨trivial, rfl⟩
  | bool b =>
    obtain rfl := Option.some.inj h
    exact ⟨trivial, rfl⟩
  | number n =>
    obtain ⟨k, hk⟩ := hwhole
    obtain rfl : Json.int k = v := Option.some.inj (hk.symm.trans h)
    exact ⟨Numeral.range_of_toJson? hk, rfl⟩
  | string s =>
    obtain ⟨t, _, rfl⟩ := Option.map_eq_some_iff.1 h
    exact ⟨trivial, rfl⟩
  | array items =>
    rw [toJson?] at h
    split at h
    · cases h
    · rename_i hdepth
      obtain ⟨vs, hvs, rfl⟩ := Option.map_eq_some_iff.1 h
      obtain ⟨hplain, hcanonical⟩ := plainItems_of_itemsToJson? items hwhole hvs
      exact ⟨⟨hdepth, hplain⟩, by rw [canonical, hcanonical]⟩
  | object members =>
    rw [toJson?] at h
    split at h
    · cases h
    · rename_i hdepth
      obtain ⟨fields, hfields, rfl⟩ := Option.map_eq_some_iff.1 h
      have hread := fields_of_membersToJson? members hwhole hfields
      obtain ⟨hascending, hmem⟩ := ascending_foldl fields List.Pairwise.nil
      have hkept : ∀ p ∈ fields.foldl (fun acc p => insertField p.1 p.2 acc) [],
          Plain (depth - 1) p.2 ∧ canonical p.2 = p.2 := fun p hp =>
        hread p ((hmem p hp).resolve_left List.not_mem_nil)
      refine ⟨⟨hdepth, plainFields_iff.2 fun p hp => (hkept p hp).1⟩, ?_⟩
      rw [ofFields, canonical, canonicalFields_eq fun p hp => (hkept p hp).2, hascending.ofFields]

theorem plainItems_of_itemsToJson? {depth : Nat} {vs : List Json} (items : List Syntax)
    (hwhole : WholeItems items) (h : itemsToJson? depth items = some vs) :
    PlainItems depth vs ∧ canonicalItems vs = vs := by
  cases items with
  | nil =>
    obtain rfl := Option.some.inj h
    exact ⟨trivial, rfl⟩
  | cons item items =>
    simp only [itemsToJson?, Option.bind_eq_bind, Option.bind_eq_some_iff, Option.pure_def, Option.some.injEq] at h
    obtain ⟨v, hv, rest, hrest, rfl⟩ := h
    obtain ⟨hplain, hcanonical⟩ := plain_of_toJson? item hwhole.1 hv
    obtain ⟨hplain', hcanonical'⟩ := plainItems_of_itemsToJson? items hwhole.2 hrest
    exact ⟨⟨hplain, hplain'⟩, by rw [canonicalItems, hcanonical, hcanonical']⟩

theorem fields_of_membersToJson? {depth : Nat} {fields : List (String × Json)} (members : List (Token × Syntax))
    (hwhole : WholeMembers members) (h : membersToJson? depth members = some fields) :
    ∀ p ∈ fields, Plain depth p.2 ∧ canonical p.2 = p.2 := by
  cases members with
  | nil =>
    obtain rfl := Option.some.inj h
    simp
  | cons member members =>
    obtain ⟨name, s⟩ := member
    simp only [membersToJson?, Option.bind_eq_bind, Option.bind_eq_some_iff, Option.pure_def,
      Option.some.injEq] at h
    obtain ⟨n, _, v, hv, rest, hrest, rfl⟩ := h
    exact List.forall_mem_cons.2
      ⟨plain_of_toJson? s hwhole.1 hv, fields_of_membersToJson? members hwhole.2 hrest⟩

end

/-! ### Spellings -/

/-- A value as it is written, and the texts that stand for it where a text may be nested as deep as the number says.
Where one of them has whole numbers only, the value can be written and what is written is one of them. -/
structure Spelling where
  json : Json
  Has : Nat → Syntax → Prop
  stable : ∀ {depth s}, s.Whole → Has depth s → Plain depth json ∧ Has depth (ofJson json)

namespace Spelling

/-- What is written stands for the value. -/
def Faithful (x : Spelling) (depth : Nat) : Prop :=
  Plain depth x.json ∧ x.Has depth (ofJson x.json)

def text (t : String) : Spelling where
  json := .string t
  Has _ s := s = .string (some t)
  stable _ _ := ⟨trivial, rfl⟩

def flag (b : Bool) : Spelling where
  json := .bool b
  Has _ s := s = .bool b
  stable _ _ := ⟨trivial, rfl⟩

/-- A whole number, within the width of its type. -/
def integer (n : Int) (Fits : Prop) (hfits : Fits → Word.least ≤ n ∧ n ≤ Word.greatestUnsigned) : Spelling where
  json := .int n
  Has _ s := Fits ∧ ∃ m : Numeral, s = .number m ∧ m.toJson? = some (.int n)
  stable _ h := ⟨hfits h.1, h.1, _, rfl, toJson?_digits (hfits h.1).1 (hfits h.1).2⟩

def int32 (n : Int) : Spelling := integer n (Word.Fits32 n) Word.Fits32.plain

def int64 (n : Int) : Spelling := integer n (Word.Fits64 n) Word.Fits64.plain

private theorem byte_plain (b : UInt8) : Word.least ≤ (b.toNat : Int) ∧ (b.toNat : Int) ≤ Word.greatestUnsigned := by
  have hlt := b.toNat_lt
  simp only [Word.least, Word.greatestUnsigned]
  omega

def byte (b : UInt8) : Spelling := integer b.toNat True fun _ => byte_plain b

/-- A member of an enumeration, by its name or as an object that has this name only. -/
def word (name : String) : Spelling where
  json := .string name
  Has depth s := s = .string (some name) ∨ depth ≠ 0 ∧ s = .object [(some name, .null)]
  stable _ _ := ⟨trivial, .inl rfl⟩

/-- Any value. -/
def value (v : Json) : Spelling where
  json := v
  Has depth s := s.toJson? depth = some v
  stable hwhole h := by
    obtain ⟨hplain, hcanonical⟩ := plain_of_toJson? _ hwhole h
    exact ⟨hplain, by rw [toJson?_ofJson v hplain, hcanonical]⟩

@[simp] theorem faithful_text (t : String) (depth : Nat) : (text t).Faithful depth := ⟨trivial, rfl⟩

@[simp] theorem faithful_flag (b : Bool) (depth : Nat) : (flag b).Faithful depth := ⟨trivial, rfl⟩

@[simp] theorem faithful_word (name : String) (depth : Nat) : (word name).Faithful depth := ⟨trivial, .inl rfl⟩

private theorem faithful_integer {n : Int} {Fits : Prop}
    (hfits : Fits → Word.least ≤ n ∧ n ≤ Word.greatestUnsigned) (depth : Nat) :
    (integer n Fits hfits).Faithful depth ↔ Fits := by
  constructor
  · exact fun h => h.2.1
  · exact fun h => ⟨hfits h, h, _, rfl, toJson?_digits (hfits h).1 (hfits h).2⟩

@[simp] theorem faithful_int32 (n : Int) (depth : Nat) : (int32 n).Faithful depth ↔ Word.Fits32 n :=
  faithful_integer _ depth

@[simp] theorem faithful_int64 (n : Int) (depth : Nat) : (int64 n).Faithful depth ↔ Word.Fits64 n :=
  faithful_integer _ depth

@[simp] theorem faithful_byte (b : UInt8) (depth : Nat) : (byte b).Faithful depth :=
  (faithful_integer _ depth).2 trivial

@[simp] theorem faithful_value (v : Json) (depth : Nat) :
    (value v).Faithful depth ↔ Plain depth v ∧ canonical v = v :=
  and_congr_right fun h => by simp [value, toJson?_ofJson v h]

private theorem items_of_faithful {depth : Nat} {xs : List Spelling} (h : ∀ x ∈ xs, x.Faithful depth) :
    PlainItems depth (xs.map json) ∧ List.Forall₂ (fun x t => x.Has depth t) xs (ofItems (xs.map json)) := by
  induction xs with
  | nil => exact ⟨trivial, .nil⟩
  | cons x xs ih =>
    obtain ⟨hfirst, hrest⟩ := List.forall_mem_cons.1 h
    obtain ⟨hplain, hhas⟩ := ih hrest
    exact ⟨⟨hfirst.1, hplain⟩, .cons hfirst.2 hhas⟩

private theorem faithful_of_items {depth : Nat} {xs : List Spelling} {items : List Syntax}
    (hwhole : WholeItems items) (h : List.Forall₂ (fun x t => x.Has depth t) xs items) :
    ∀ x ∈ xs, x.Faithful depth := by
  induction h with
  | nil => simp
  | cons hfirst _ ih => exact List.forall_mem_cons.2 ⟨Spelling.stable _ hwhole.1 hfirst, ih hwhole.2⟩

/-- A list of values. -/
def items (xs : List Spelling) : Spelling where
  json := .array (xs.map json)
  Has depth s := depth ≠ 0 ∧ ∃ ts, s = .array ts ∧ List.Forall₂ (fun x t => x.Has (depth - 1) t) xs ts
  stable hwhole h := by
    obtain ⟨hdepth, ts, rfl, hts⟩ := h
    obtain ⟨hplain, hhas⟩ := items_of_faithful (faithful_of_items hwhole hts)
    exact ⟨⟨hdepth, hplain⟩, hdepth, _, rfl, hhas⟩

theorem faithful_items {depth : Nat} {xs : List Spelling} (h : ∀ x ∈ xs, x.Faithful depth) :
    (items xs).Faithful (depth + 1) := by
  obtain ⟨hplain, hhas⟩ := items_of_faithful h
  exact ⟨⟨Nat.succ_ne_zero depth, hplain⟩, Nat.succ_ne_zero depth, _, rfl, hhas⟩

end Spelling

/-! ### Parts of a record -/

/-- Whether a field may be left out: of an object, and at the end of an array. -/
inductive Presence
  | required
  | optional
  | trailing
  deriving DecidableEq

/-- A field with its value, or with none where the field may be left out. -/
inductive Part
  | required (name : String) (x : Spelling)
  | optional (name : String) (x : Option Spelling)
  | trailing (name : String) (x : Option Spelling)

namespace Part

def name : Part → String
  | required n _ | optional n _ | trailing n _ => n

def presence : Part → Presence
  | required _ _ => .required
  | optional _ _ => .optional
  | trailing _ _ => .trailing

/-- The value as it is written. -/
def json : Part → Json
  | required _ x => x.json
  | optional _ x | trailing _ x => (x.map Spelling.json).getD .null

/-- A text stands for the value, or it is `null` and there is none. -/
def Has (depth : Nat) (s : Syntax) : Part → Prop
  | required _ x | optional _ (some x) | trailing _ (some x) => x.Has depth s
  | optional _ none | trailing _ none => s = .null

/-- The field may be left out, and it has no value. -/
def MayLack : Part → Prop
  | required _ _ => False
  | optional _ x | trailing _ x => x = none

/-- What is found under the name of the field, if anything. -/
def Fits (depth : Nat) (p : Part) : Option Syntax → Prop
  | none => p.MayLack
  | some s => p.Has depth s

def Faithful (depth : Nat) (p : Part) : Prop :=
  Plain depth p.json ∧ p.Has depth (ofJson p.json)

variable {depth : Nat} {p : Part}

theorem json_optional {α : Type} {name : String} {x : α → Spelling} {o : Option α} :
    (Part.optional name (o.map x)).json = ofOption (fun a => (x a).json) o := by
  cases o <;> rfl

theorem json_trailing {α : Type} {name : String} {x : α → Spelling} {o : Option α} :
    (Part.trailing name (o.map x)).json = ofOption (fun a => (x a).json) o := by
  cases o <;> rfl

theorem stable {s : Syntax} (hwhole : s.Whole) (h : p.Has depth s) : p.Faithful depth := by
  rcases p with ⟨_, x⟩ | ⟨_, _ | x⟩ | ⟨_, _ | x⟩
  · exact x.stable hwhole h
  · exact ⟨trivial, rfl⟩
  · exact x.stable hwhole h
  · exact ⟨trivial, rfl⟩
  · exact x.stable hwhole h

theorem faithful_of_mayLack (h : p.MayLack) : p.Faithful depth := by
  cases p with
  | required _ x => exact h.elim
  | optional _ x =>
    obtain rfl : x = none := h
    exact ⟨trivial, rfl⟩
  | trailing _ x =>
    obtain rfl : x = none := h
    exact ⟨trivial, rfl⟩

@[simp] theorem faithful_required {name : String} {x : Spelling} :
    (Part.required name x).Faithful depth ↔ x.Faithful depth := Iff.rfl

@[simp] theorem faithful_optional {α : Type} {name : String} {x : α → Spelling} {o : Option α} :
    (Part.optional name (o.map x)).Faithful depth ↔ ∀ a ∈ o, (x a).Faithful depth := by
  cases o with
  | none => simpa using faithful_of_mayLack (p := .optional name none) rfl
  | some a => exact ⟨fun h b hb => Option.some.inj hb ▸ h, fun h => h a rfl⟩

@[simp] theorem faithful_trailing {α : Type} {name : String} {x : α → Spelling} {o : Option α} :
    (Part.trailing name (o.map x)).Faithful depth ↔ ∀ a ∈ o, (x a).Faithful depth := by
  cases o with
  | none => simpa using faithful_of_mayLack (p := .trailing name none) rfl
  | some a => exact ⟨fun h b hb => Option.some.inj hb ▸ h, fun h => h a rfl⟩

end Part

/-! ### Texts of a record -/

/-- The members of an object list the parts of a record: every name is a text, and each part is there once, or may be
left out and is not there.  The members may be in any order, and there may be others. -/
structure Lists (depth : Nat) (members : List (Token × Syntax)) (parts : List Part) : Prop where
  names : ∀ m ∈ members, m.1 ≠ none
  parts : ∀ p ∈ parts, (values p.name members = [] ∧ p.MayLack) ∨ ∃ s, values p.name members = [s] ∧ p.Has depth s

/-- The items of an array are the parts of a record in order; at the end, parts that have no value may be left out where
their fields allow it. -/
def Places (depth : Nat) : List Part → List Syntax → Prop
  | parts, [] => ∀ p ∈ parts, p.presence = .trailing ∧ p.MayLack
  | p :: parts, s :: items => p.Has depth s ∧ Places depth parts items
  | [], _ :: _ => False

/-- The fields of a record as they are written. -/
def fieldsOf (parts : List Part) : List (String × Json) :=
  parts.map fun p => (p.name, p.json)

/-- A text stands for a record. -/
def HasParts (depth : Nat) (parts : List Part) : Syntax → Prop
  | .object members => depth ≠ 0 ∧ Lists (depth - 1) members parts
  | .array items => depth ≠ 0 ∧ Places (depth - 1) parts items
  | _ => False

section

variable {depth : Nat} {parts : List Part}

theorem whole_of_mem_values {name : String} {members : List (Token × Syntax)} (hwhole : WholeMembers members)
    {s : Syntax} (hs : s ∈ values name members) : s.Whole := by
  obtain ⟨m, hm, rfl⟩ := List.mem_map.1 hs
  exact wholeMembers_iff.1 hwhole m (List.mem_filter.1 hm).1

/-- A record whose parts are faithful is written as a text that stands for it. -/
theorem hasParts_written (hnodup : (parts.map Part.name).Nodup) (h : ∀ p ∈ parts, p.Faithful depth) :
    Plain (depth + 1) (.object (fieldsOf parts)) ∧
      HasParts (depth + 1) parts (ofJson (.object (fieldsOf parts))) := by
  have hnames : ((fieldsOf parts).map Prod.fst).Nodup := by
    rw [fieldsOf, List.map_map]
    exact hnodup
  refine ⟨⟨Nat.succ_ne_zero depth, plainFields_iff.2 ?_⟩, Nat.succ_ne_zero depth, names_ofMembers _, ?_⟩
  · intro field hfield
    obtain ⟨p, hp, rfl⟩ := List.mem_map.1 hfield
    exact (h p hp).1
  · intro p hp
    exact .inr ⟨_, values_ofMembers hnames (List.mem_map.2 ⟨p, hp, rfl⟩), (h p hp).2⟩

private theorem places_written (h : ∀ p ∈ parts, p.Faithful depth) :
    PlainItems depth (parts.map Part.json) ∧ Places depth parts (ofItems (parts.map Part.json)) := by
  induction parts with
  | nil => simp [PlainItems, ofItems, Places]
  | cons p parts ih =>
    obtain ⟨hfirst, hrest⟩ := List.forall_mem_cons.1 h
    obtain ⟨hplain, hplaces⟩ := ih hrest
    exact ⟨⟨hfirst.1, hplain⟩, hfirst.2, hplaces⟩

/-- So is the array of the parts. -/
theorem hasParts_array (h : ∀ p ∈ parts, p.Faithful depth) :
    Plain (depth + 1) (.array (parts.map Part.json)) ∧
      HasParts (depth + 1) parts (ofJson (.array (parts.map Part.json))) := by
  obtain ⟨hplain, hplaces⟩ := places_written h
  exact ⟨⟨Nat.succ_ne_zero depth, hplain⟩, Nat.succ_ne_zero depth, hplaces⟩

private theorem faithful_of_places {items : List Syntax} (hwhole : WholeItems items)
    (h : Places depth parts items) : ∀ p ∈ parts, p.Faithful depth := by
  induction items generalizing parts with
  | nil =>
    have hrest : ∀ p ∈ parts, p.presence = .trailing ∧ p.MayLack := by cases parts <;> exact h
    exact fun p hp => Part.faithful_of_mayLack (hrest p hp).2
  | cons s items ih =>
    cases parts with
    | nil => exact h.elim
    | cons p parts => exact List.forall_mem_cons.2 ⟨Part.stable hwhole.1 h.1, ih hwhole.2 h.2⟩

/-- The parts of a record that has a text with whole numbers are faithful. -/
theorem faithful_of_hasParts {s : Syntax} (hwhole : s.Whole) (h : HasParts depth parts s) :
    depth ≠ 0 ∧ ∀ p ∈ parts, p.Faithful (depth - 1) := by
  cases s with
  | object members =>
    refine ⟨h.1, fun p hp => ?_⟩
    rcases h.2.parts p hp with ⟨_, hlack⟩ | ⟨s, hs, hhas⟩
    · exact Part.faithful_of_mayLack hlack
    · exact Part.stable (whole_of_mem_values hwhole (hs ▸ List.mem_singleton_self s)) hhas
  | array items => exact ⟨h.1, faithful_of_places hwhole h.2⟩
  | _ => exact h.elim

end

/-- A record with fields of different names. -/
def Spelling.record (parts : List Part) (hnodup : (parts.map Part.name).Nodup) : Spelling where
  json := .object (fieldsOf parts)
  Has depth s := HasParts depth parts s
  stable {depth s} hwhole h := by
    obtain ⟨hdepth, hfaithful⟩ := faithful_of_hasParts hwhole h
    obtain ⟨depth, rfl⟩ := Nat.exists_eq_add_one_of_ne_zero hdepth
    exact hasParts_written hnodup hfaithful

theorem Spelling.faithful_record {depth : Nat} {parts : List Part} (hnodup : (parts.map Part.name).Nodup)
    (h : ∀ p ∈ parts, p.Faithful depth) : (Spelling.record parts hnodup).Faithful (depth + 1) :=
  hasParts_written hnodup h

end IngestionQueue.Json
