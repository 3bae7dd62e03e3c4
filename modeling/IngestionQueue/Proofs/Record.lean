import IngestionQueue.Json.Decoding
import IngestionQueue.Proofs.Json
import Mathlib.Data.List.Nodup

/-!
# Records and their fields

What a decoder makes of a value that was written: the value itself, for texts, truth values and numbers within
their width, and field by field for a record.  `Json.Record.Reads` says that the fields of an object are those
of a record; it is put together one field at a time, by the name alone.  Other fields may stand between them
(`Json.Record.Reads.decoder`), and they may be in the order of their names (`Json.Record.Reads.decoder_ofFields`)
as long as no name is repeated.  What is collected from an object are the members that have the name of a field
(`Json.Record.known`), each once (`Json.Record.of_collect`, `Json.Record.collect_known`).
-/

namespace IngestionQueue.Json

open Syntax

/-! ### Values -/

namespace Decoder

@[simp] theorem string_ofJson (depth : Nat) (s : String) : string depth (ofJson (.string s)) = .ok s := rfl

@[simp] theorem bool_ofJson (depth : Nat) (b : Bool) : bool depth (ofJson (.bool b)) = .ok b := rfl

theorem integer_ofJson (type : String) {least greatest n : Int} (depth : Nat)
    (hleast : Word.least ≤ least) (hgreatest : greatest ≤ Word.greatestUnsigned)
    (h : least ≤ n ∧ n ≤ greatest) : integer type least greatest depth (ofJson (.int n)) = .ok n := by
  have hread := toJson?_digits (Int.le_trans hleast h.1) (Int.le_trans h.2 hgreatest)
  simp only [integer, ofJson, hread, h, and_self, if_true]

theorem int32_ofJson {n : Int} (depth : Nat) (h : Word.least32 ≤ n ∧ n ≤ Word.greatest32) :
    int32 depth (ofJson (.int n)) = .ok n :=
  integer_ofJson "i32" depth (by decide) (by decide) h

theorem int64_ofJson {n : Int} (depth : Nat) (h : Word.least ≤ n ∧ n ≤ Word.greatest) :
    int64 depth (ofJson (.int n)) = .ok n :=
  integer_ofJson "i64" depth (by decide) (by decide) h

theorem nat64_ofJson {n : Nat} (depth : Nat) (h : (n : Int) ≤ Word.greatestUnsigned) :
    nat64 depth (ofJson (.int n)) = .ok n := by
  have hread : integer "u64" 0 Word.greatestUnsigned depth (ofJson (.int n)) = .ok n :=
    integer_ofJson "u64" depth (by decide) (Int.le_refl _) ⟨Int.natCast_nonneg n, h⟩
  simp [nat64, hread, Except.map]

theorem optional_of_ne_null {α : Type} {d : Decoder α} {depth : Nat} {s : Syntax} {a : α} (hs : s ≠ .null)
    (h : d depth s = .ok a) : optional d depth s = .ok (some a) := by
  unfold optional
  split
  · exact absurd rfl hs
  · rw [h]
    rfl

theorem list_ofJson {α β : Type} {d : Decoder β} {depth : Nat} (xs : List α) (f : α → Json) (g : α → β)
    (h : ∀ x ∈ xs, d depth (ofJson (f x)) = .ok (g x)) :
    list d (depth + 1) (ofJson (.array (xs.map f))) = .ok (xs.map g) := by
  have hitems : ∀ ys : List α, (∀ y ∈ ys, d depth (ofJson (f y)) = .ok (g y)) →
      (ofItems (ys.map f)).mapM (d depth) = .ok (ys.map g) := by
    intro ys hys
    induction ys with
    | nil => rfl
    | cons y ys ih =>
      have hhead := hys y List.mem_cons_self
      have htail := ih fun z hz => hys z (List.mem_cons_of_mem _ hz)
      rw [List.map_cons, ofItems, List.mapM_cons, hhead, htail]
      rfl
  exact hitems xs h

theorem value_ofJson {depth : Nat} {v : Json} (h : Plain depth v) :
    value depth (ofJson v) = .ok (canonical v) := by
  rw [value, toJson?_ofJson v h]

end Decoder

/-- A text that is read with a decoder is its value read with the decoder. -/
theorem decode_text {α : Type} (d : Decoder α) {depth : Nat} {v : Json} (h : Plain depth v) :
    decode d v.text = d maxDepth (ofJson v) := by
  rw [decode, parse_text h]

/-! ### Fields -/

/-- What a record finds under a name in an object with the given fields. -/
def slots (fields : List (String × Json)) (name : String) : Option Syntax :=
  ((Json.object fields).field? name).map ofJson

@[simp] theorem slots_nil (name : String) : slots [] name = none := rfl

@[simp] theorem slots_cons (n : String) (v : Json) (fields : List (String × Json)) (name : String) :
    slots ((n, v) :: fields) name = if n = name then some (ofJson v) else slots fields name := by
  by_cases h : n = name
  · simp [slots, field?, h]
  · simp [slots, field?, h]

theorem slots_eq_some_iff {fields : List (String × Json)} (h : (fields.map Prod.fst).Nodup) {name : String}
    {s : Syntax} : slots fields name = some s ↔ ∃ v, (name, v) ∈ fields ∧ ofJson v = s := by
  induction fields with
  | nil => simp
  | cons field fields ih =>
    obtain ⟨n, v⟩ := field
    rw [List.map_cons, List.nodup_cons] at h
    rw [slots_cons]
    by_cases hn : n = name
    · subst hn
      rw [if_pos rfl, Option.some.injEq]
      constructor
      · intro hv
        exact ⟨v, List.mem_cons_self, hv⟩
      · rintro ⟨w, hw, rfl⟩
        rcases List.mem_cons.1 hw with heq | hw
        · rw [(Prod.mk.inj heq).2]
        · exact absurd (List.mem_map_of_mem (f := Prod.fst) hw) h.1
    · rw [if_neg hn, ih h.2]
      simp [Ne.symm hn]

/-- The order of the fields does not matter where no name is repeated. -/
theorem slots_perm {fields others : List (String × Json)} (h : (fields.map Prod.fst).Nodup)
    (hperm : fields.Perm others) : slots others = slots fields := by
  funext name
  have hothers : (others.map Prod.fst).Nodup := (hperm.map Prod.fst).nodup_iff.1 h
  apply Option.ext
  intro s
  rw [slots_eq_some_iff hothers, slots_eq_some_iff h]
  simp only [hperm.mem_iff]

private theorem insertField_perm {name : String} (value : Json) {fields : List (String × Json)}
    (h : name ∉ fields.map Prod.fst) : (insertField name value fields).Perm ((name, value) :: fields) := by
  induction fields with
  | nil => exact .refl _
  | cons field fields ih =>
    obtain ⟨n, v⟩ := field
    rw [List.map_cons, List.mem_cons, not_or] at h
    rw [insertField]
    split
    · exact .refl _
    · rw [if_neg h.1]
      exact ((ih h.2).cons _).trans (.swap _ _ _)

private theorem foldl_insertField_perm (fields acc : List (String × Json))
    (h : ((acc ++ fields).map Prod.fst).Nodup) :
    (fields.foldl (fun acc p => insertField p.1 p.2 acc) acc).Perm (acc ++ fields) := by
  induction fields generalizing acc with
  | nil => simp
  | cons field fields ih =>
    have hperm : (acc ++ field :: fields).Perm (field :: acc ++ fields) := List.perm_middle
    have hnodup := (hperm.map Prod.fst).nodup_iff.1 h
    have hfresh : field.1 ∉ acc.map Prod.fst := by
      simp only [List.cons_append, List.map_cons, List.map_append, List.nodup_cons, List.mem_append,
        not_or] at hnodup
      exact hnodup.1.1
    -- Nothing is replaced, since the name is new.
    have hinsert := (insertField_perm field.2 hfresh).append_right fields
    rw [List.foldl_cons]
    exact (ih _ ((hinsert.map Prod.fst).nodup_iff.2 hnodup)).trans (hinsert.trans hperm.symm)

theorem plain_ofFields {depth : Nat} {fields : List (String × Json)} (hnodup : (fields.map Prod.fst).Nodup)
    (h : ∀ p ∈ fields, Plain depth p.2) : Plain (depth + 1) (.ofFields fields) := by
  have hperm := foldl_insertField_perm fields [] hnodup
  exact ⟨Nat.succ_ne_zero depth, plainFields_iff.2 fun p hp => h p (hperm.mem_iff.1 hp)⟩

/-! ### Members -/

/-- What an object has under a name. -/
def values (name : String) (members : List (Token × Syntax)) : List Syntax :=
  (members.filter fun m => m.1 == some name).map Prod.snd

theorem values_cons (name : String) (m : Token × Syntax) (members : List (Token × Syntax)) :
    values name (m :: members) = if m.1 = some name then m.2 :: values name members else values name members := by
  by_cases h : m.1 = some name
  · simp [values, h]
  · simp [values, h]

theorem values_eq_nil {name : String} {fields : List (String × Json)} (h : name ∉ fields.map Prod.fst) :
    values name (ofMembers fields) = [] := by
  induction fields with
  | nil => rfl
  | cons field fields ih =>
    rw [List.map_cons, List.mem_cons, not_or] at h
    rw [ofMembers, values_cons, if_neg (by simpa using Ne.symm h.1), ih h.2]

/-- What is written under a name is the one field that has it. -/
theorem values_ofMembers {fields : List (String × Json)} (hnodup : (fields.map Prod.fst).Nodup)
    {field : String × Json} (hfield : field ∈ fields) :
    values field.1 (ofMembers fields) = [ofJson field.2] := by
  induction fields with
  | nil => cases hfield
  | cons first fields ih =>
    rw [List.map_cons, List.nodup_cons] at hnodup
    rw [ofMembers, values_cons]
    rcases List.mem_cons.1 hfield with rfl | hrest
    · rw [if_pos rfl, values_eq_nil hnodup.1]
    · have hne : first.1 ≠ field.1 := fun heq => hnodup.1 (heq ▸ List.mem_map_of_mem hrest)
      rw [if_neg (by simpa using hne), ih hnodup.2 hrest]

theorem names_ofMembers (fields : List (String × Json)) : ∀ m ∈ ofMembers fields, m.1 ≠ none := by
  induction fields with
  | nil => simp [ofMembers]
  | cons field fields ih => exact List.forall_mem_cons.2 ⟨by simp, ih⟩

theorem length_values_ofMembers {fields : List (String × Json)} (hnodup : (fields.map Prod.fst).Nodup) (name : String) :
    (values name (ofMembers fields)).length ≤ 1 := by
  by_cases h : name ∈ fields.map Prod.fst
  · obtain ⟨field, hfield, rfl⟩ := List.mem_map.1 h
    rw [values_ofMembers hnodup hfield]
    exact Nat.le_refl _
  · rw [values_eq_nil h]
    exact Nat.zero_le _

theorem head?_values_ofMembers (fields : List (String × Json)) (name : String) :
    (values name (ofMembers fields)).head? = slots fields name := by
  induction fields with
  | nil => rfl
  | cons field fields ih =>
    rw [ofMembers, values_cons, slots_cons]
    by_cases h : field.1 = name
    · rw [if_pos (congrArg some h), if_pos h, List.head?_cons]
    · rw [if_neg (by simpa using h), if_neg h, ih]

/-! ### Records -/

namespace Record

variable {α β : Type} {depth : Nat} {fields : List (String × Json)}

/-- The fields of an object are those of a record and make a value: each passes its check, and the value depends
on nothing else that may be found. -/
structure Reads (r : Record α) (depth : Nat) (fields : List (String × Json)) (a : α) : Prop where
  check : ∀ name ∈ r.names, ∀ s, slots fields name = some s → r.check name depth s = .ok ()
  build : ∀ found : String → Option Syntax, (∀ name ∈ r.names, found name = slots fields name) →
    r.build depth found = .ok a

namespace Reads

theorem pure (a : α) : (Record.pure a).Reads depth fields a where
  check _ _ _ _ := rfl
  build _ _ := rfl

theorem both {f : Record (α → β)} {x : Record α} {g : α → β} {a : α} (hf : f.Reads depth fields g)
    (hx : x.Reads depth fields a) : (f.both x).Reads depth fields (g a) where
  check name hname s hs := by
    simp only [Record.both, List.contains_eq_mem, decide_eq_true_eq]
    -- A name that both records have is checked as the first one has it.
    split
    case isTrue hmem => exact hf.check name hmem s hs
    case isFalse hmem => exact hx.check name ((List.mem_append.1 hname).resolve_left hmem) s hs
  build found hfound := by
    have hg := hf.build found fun name hname => hfound name (List.mem_append_left _ hname)
    have ha := hx.build found fun name hname => hfound name (List.mem_append_right _ hname)
    simp only [Record.both, hg, ha]
    rfl

theorem fieldOr {name : String} {d : Decoder α} {absent : Except DecodeError α} {defaulted : Bool} {a : α}
    (h : (slots fields name).map (d depth) = some (.ok a)) :
    (Record.fieldOr name d absent defaulted).Reads depth fields a where
  check n hn t ht := by
    obtain rfl : n = name := by simpa [Record.fieldOr] using hn
    rw [ht, Option.map_some, Option.some.injEq] at h
    simp [Record.fieldOr, h, Except.map]
  build found hfound := by
    obtain ⟨s, hs, hd⟩ := Option.map_eq_some_iff.1 h
    have hname : found name = some s := (hfound name (by simp [Record.fieldOr])).trans hs
    simp only [Record.fieldOr, hname, hd]

theorem absent {name : String} {d : Decoder α} {defaulted : Bool} {a : α} (hs : slots fields name = none) :
    (Record.fieldOr name d (.ok a) defaulted).Reads depth fields a where
  check n hn t ht := by
    obtain rfl : n = name := by simpa [Record.fieldOr] using hn
    rw [hs] at ht
    cases ht
  build found hfound := by
    have hname : found name = none := (hfound name (by simp [Record.fieldOr])).trans hs
    simp only [Record.fieldOr, hname]

variable {name : String} {a : α} {o : Option α}

theorem field {f : Record (α → β)} {g : α → β} {d : Decoder α} (hf : f.Reads depth fields g)
    (h : (slots fields name).map (d depth) = some (.ok a)) : (f.field name d).Reads depth fields (g a) :=
  hf.both (fieldOr h)

theorem optionalField {f : Record (Option α → β)} {g : Option α → β} {d : Decoder α}
    (hf : f.Reads depth fields g) (h : (slots fields name).map (Decoder.optional d depth) = some (.ok o)) :
    (f.optionalField name d).Reads depth fields (g o) :=
  hf.both (fieldOr h)

theorem optionalField_absent {f : Record (Option α → β)} {g : Option α → β} {d : Decoder α}
    (hf : f.Reads depth fields g) (h : slots fields name = none) :
    (f.optionalField name d).Reads depth fields (g none) :=
  hf.both (absent h)

theorem trailingField {f : Record (Option α → β)} {g : Option α → β} {d : Decoder α}
    (hf : f.Reads depth fields g) (h : (slots fields name).map (Decoder.optional d depth) = some (.ok o)) :
    (f.trailingField name d).Reads depth fields (g o) :=
  hf.both (fieldOr h)

theorem defaultField {f : Record (α → β)} {g : α → β} {d : Decoder α} {value : α}
    (hf : f.Reads depth fields g) (h : (slots fields name).map (d depth) = some (.ok a)) :
    (f.defaultField name d value).Reads depth fields (g a) :=
  hf.both (fieldOr h)

end Reads

/-- The members of an object that are fields of a record. -/
def known (r : Record α) : List (Token × Syntax) → List (String × Syntax)
  | [] => []
  | (some name, s) :: members => if r.names.contains name then (name, s) :: known r members else known r members
  | (none, _) :: members => known r members

section

variable {r : Record α} {members : List (Token × Syntax)}

theorem mem_names_of_mem_known {p : String × Syntax} (h : p ∈ r.known members) : p.1 ∈ r.names := by
  fun_induction known r members with
  | case1 => cases h
  | case2 name s members hname ih =>
    rcases List.mem_cons.1 h with rfl | hrest
    · simpa using hname
    · exact ih hrest
  | case3 _ _ _ _ ih => exact ih h
  | case4 _ _ ih => exact ih h

theorem filter_known {name : String} (h : name ∈ r.names) :
    ((r.known members).filter fun p => p.1 == name).map Prod.snd = values name members := by
  fun_induction known r members with
  | case1 => rfl
  | case2 n s members _ ih =>
    rw [values_cons, ← ih]
    by_cases hn : n = name
    · simp [hn]
    · simp [hn]
  | case3 n s members hnot ih =>
    have hne : n ≠ name := by
      rintro rfl
      exact hnot (by simpa using h)
    rw [values_cons, if_neg (by simpa using hne), ih]
  | case4 s members ih => rw [values_cons, if_neg (by simp), ih]

theorem lookup_known {name : String} (h : name ∈ r.names) :
    lookup (r.known members) name = (values name members).head? := by
  rw [← filter_known h, lookup, List.head?_map, List.head?_filter]

theorem lookup_of_mem {slots : List (String × Syntax)} (hnodup : (slots.map Prod.fst).Nodup) {p : String × Syntax}
    (hp : p ∈ slots) : lookup slots p.1 = some p.2 := by
  induction slots with
  | nil => cases hp
  | cons q slots ih =>
    obtain ⟨hnew, hnodup⟩ := List.nodup_cons.1 hnodup
    rcases List.mem_cons.1 hp with rfl | hrest
    · simp [lookup]
    · have hne : q.1 ≠ p.1 := fun heq => hnew (heq ▸ List.mem_map_of_mem hrest)
      simpa [lookup, hne] using ih hnodup hrest

/-- No field is repeated. -/
theorem nodup_known : ((r.known members).map Prod.fst).Nodup ↔
    ∀ name ∈ r.names, (values name members).length ≤ 1 := by
  have hcount : ∀ name, ((r.known members).map Prod.fst).count name =
      ((r.known members).filter fun p => p.1 == name).length := fun name => by
    rw [List.count_eq_countP, List.countP_map, List.countP_eq_length_filter]
    rfl
  rw [List.nodup_iff_count_le_one]
  constructor
  · intro h name hname
    rw [← filter_known hname, List.length_map, ← hcount]
    exact h name
  · intro h name
    by_cases hname : name ∈ r.names
    · rw [hcount, ← List.length_map (f := Prod.snd), filter_known hname]
      exact h name hname
    · have hnot : name ∉ (r.known members).map Prod.fst := fun hmem => by
        obtain ⟨p, hp, rfl⟩ := List.mem_map.1 hmem
        exact hname (mem_names_of_mem_known hp)
      rw [List.count_eq_zero.2 hnot]
      exact Nat.zero_le 1

private theorem any_iff {seen : List (String × Syntax)} {name : String} :
    (seen.any fun p => p.1 == name) = true ↔ name ∈ seen.map Prod.fst := by
  simp

/-- What is collected from an object are its known members; every name is a text and no field is repeated. -/
theorem of_collect {seen slots : List (String × Syntax)} (h : r.collect depth members seen = .ok slots) :
    (∀ m ∈ members, m.1 ≠ none) ∧ ((r.known members).map Prod.fst).Nodup ∧
      (∀ p ∈ r.known members, p.1 ∉ seen.map Prod.fst) ∧ slots = seen ++ r.known members := by
  induction members generalizing seen with
  | nil =>
    obtain rfl : seen = slots := Except.ok.inj h
    simp [known]
  | cons m members ih =>
    obtain ⟨_ | name, s⟩ := m
    · cases h
    · rw [collect] at h
      rw [known]
      by_cases hname : r.names.contains name = true
      · rw [if_pos hname] at h ⊢
        split at h
        case isTrue => cases h
        case isFalse hnot =>
          cases hcheck : r.check name depth s with
          | error e => simp [hcheck, bind, Except.bind] at h
          | ok _ =>
            obtain ⟨hnames, hnodup, hfresh, rfl⟩ := ih (by simpa [hcheck, bind, Except.bind] using h)
            simp only [List.map_append, List.map_cons, List.map_nil, List.mem_append, List.mem_singleton,
              not_or] at hfresh
            have hnew : name ∉ (r.known members).map Prod.fst := fun hmem => by
              obtain ⟨p, hp, heq⟩ := List.mem_map.1 hmem
              exact (hfresh p hp).2 heq
            exact ⟨List.forall_mem_cons.2 ⟨by simp, hnames⟩, List.nodup_cons.2 ⟨hnew, hnodup⟩,
              List.forall_mem_cons.2 ⟨fun hmem => hnot (any_iff.2 hmem), fun p hp => (hfresh p hp).1⟩,
              (List.append_cons _ _ _).symm⟩
      · rw [if_neg hname] at h ⊢
        obtain ⟨hnames, hrest⟩ := ih h
        exact ⟨List.forall_mem_cons.2 ⟨by simp, hnames⟩, hrest⟩

/-- The known members of an object are collected where each passes its check. -/
theorem collect_known {seen : List (String × Syntax)} (hnames : ∀ m ∈ members, m.1 ≠ none)
    (hnodup : ((r.known members).map Prod.fst).Nodup) (hfresh : ∀ p ∈ r.known members, p.1 ∉ seen.map Prod.fst)
    (hcheck : ∀ p ∈ r.known members, r.check p.1 depth p.2 = .ok ()) :
    r.collect depth members seen = .ok (seen ++ r.known members) := by
  induction members generalizing seen with
  | nil => simp [collect, known]
  | cons m members ih =>
    obtain ⟨name?, s⟩ := m
    obtain ⟨hfirst, hothers⟩ := List.forall_mem_cons.1 hnames
    obtain ⟨name, rfl⟩ := Option.ne_none_iff_exists'.1 hfirst
    rw [collect]
    rw [known] at hnodup hfresh hcheck ⊢
    by_cases hname : r.names.contains name = true
    · simp only [if_pos hname] at hnodup hfresh hcheck ⊢
      obtain ⟨hnew, hnodup⟩ := List.nodup_cons.1 hnodup
      obtain ⟨hout, hfresh⟩ := List.forall_mem_cons.1 hfresh
      obtain ⟨hvalue, hcheck⟩ := List.forall_mem_cons.1 hcheck
      have hnext : ∀ p ∈ r.known members, p.1 ∉ (seen ++ [(name, s)]).map Prod.fst := fun p hp hmem => by
        rw [List.map_append, List.mem_append] at hmem
        rcases hmem with hold | hlast
        · exact hfresh p hp hold
        · have heq : p.1 = name := List.mem_singleton.1 hlast
          exact hnew (List.mem_map.2 ⟨p, hp, heq⟩)
      have hrest := ih hothers hnodup hnext hcheck
      rw [if_neg fun h => hout (any_iff.1 h), hvalue]
      simpa [bind, Except.bind] using hrest
    · simp only [if_neg hname] at hnodup hfresh hcheck ⊢
      exact ih hothers hnodup hfresh hcheck

end

/-- A record is read from an object that has its fields, whatever other fields there are. -/
theorem Reads.decoder {r : Record α} {a : α} (type : String) (h : r.Reads depth fields a)
    (hnodup : (fields.map Prod.fst).Nodup) :
    r.decoder type (depth + 1) (ofJson (.object fields)) = .ok a := by
  have hlookup : ∀ name ∈ r.names, lookup (r.known (ofMembers fields)) name = slots fields name :=
    fun name hname => (lookup_known hname).trans (head?_values_ofMembers fields name)
  have hknown : ((r.known (ofMembers fields)).map Prod.fst).Nodup :=
    nodup_known.2 fun name _ => length_values_ofMembers hnodup name
  have hcheck : ∀ p ∈ r.known (ofMembers fields), r.check p.1 depth p.2 = .ok () := fun p hp => by
    have hname := mem_names_of_mem_known hp
    exact h.check p.1 hname p.2 (hlookup p.1 hname ▸ lookup_of_mem hknown hp)
  have hcollect : r.collect depth (ofMembers fields) [] = .ok (r.known (ofMembers fields)) :=
    collect_known (names_ofMembers fields) hknown (by simp) hcheck
  simp only [ofJson, Record.decoder, Nat.succ_ne_zero, if_false, Nat.add_sub_cancel, hcollect]
  exact h.build _ hlookup

/-- The order of the fields does not matter, so a record is read from the object in canonical form too. -/
theorem Reads.decoder_ofFields {r : Record α} {a : α} (type : String) (h : r.Reads depth fields a)
    (hnodup : (fields.map Prod.fst).Nodup) :
    r.decoder type (depth + 1) (ofJson (.ofFields fields)) = .ok a := by
  have hperm := foldl_insertField_perm fields [] hnodup
  rw [List.nil_append] at hperm
  have hslots := slots_perm hnodup hperm.symm
  have hreads : r.Reads depth (fields.foldl (fun acc p => insertField p.1 p.2 acc) []) a :=
    ⟨by rw [hslots]; exact h.check, by rw [hslots]; exact h.build⟩
  exact hreads.decoder type ((hperm.map Prod.fst).nodup_iff.2 hnodup)

end Record

end IngestionQueue.Json
