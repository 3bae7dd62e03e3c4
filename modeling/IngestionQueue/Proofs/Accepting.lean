import IngestionQueue.Proofs.Spelling

/-!
# What is accepted

A decoder accepts exactly the texts of a spelling (`Json.Decoder.Accepts`): this is checked for each kind of value
and carries over to lists and records.  A record accepts the texts of its parts, by name in an object and in order
in an array, once its fields are known to be the parts (`Json.Record.Covers.accepts`).  For this it is not looked at
as a whole: what is made of the fields is read off one field at a time (`Json.Record.makes_field`).
-/

namespace IngestionQueue.Json

open Syntax

/-! ### Values -/

theorem Syntax.mismatch_ne_ok {α : Type} (s : Syntax) (expected : String) (a : α) :
    s.mismatch expected ≠ .ok a := by
  unfold mismatch
  split
  · simp
  · split <;> simp
  · simp

namespace Decoder

variable {α : Type} {d : Decoder α} {x : α → Spelling}

/-- What is read as a value are exactly the texts that stand for it. -/
def Accepts (d : Decoder α) (x : α → Spelling) : Prop :=
  ∀ depth s a, d depth s = .ok a ↔ (x a).Has depth s

theorem accepts_string : string.Accepts Spelling.text := by
  intro depth s a
  unfold string
  split
  case h_1 t => simp [Spelling.text]
  case h_2 hother =>
    refine iff_of_false (mismatch_ne_ok _ _ _) ?_
    rintro rfl
    exact hother a rfl

theorem not_has_null_text (depth : Nat) (t : String) : ¬(Spelling.text t).Has depth .null := by
  simp [Spelling.text]

theorem accepts_bool : bool.Accepts Spelling.flag := by
  intro depth s a
  unfold bool
  split
  case h_1 b => simp [Spelling.flag]
  case h_2 hother =>
    refine iff_of_false (mismatch_ne_ok _ _ _) ?_
    rintro rfl
    exact hother a rfl

theorem integer_eq_ok (type : String) (least greatest : Int) {depth : Nat} {s : Syntax} {n : Int} :
    integer type least greatest depth s = .ok n ↔
      (least ≤ n ∧ n ≤ greatest) ∧ ∃ m : Numeral, s = .number m ∧ m.toJson? = some (.int n) := by
  unfold integer
  split
  case h_1 m =>
    split
    case h_1 v hv =>
      split
      case isTrue hrange =>
        constructor
        · rintro ⟨⟩
          exact ⟨hrange, m, rfl, hv⟩
        · rintro ⟨_, _, ⟨⟩, hn⟩
          rw [hv] at hn
          obtain rfl : v = n := by simpa using hn
          rfl
      case isFalse hrange =>
        refine iff_of_false (by simp) ?_
        rintro ⟨hn, _, ⟨⟩, hm⟩
        rw [hv] at hm
        obtain rfl : v = n := by simpa using hm
        exact hrange hn
    case h_2 hother =>
      refine iff_of_false (mismatch_ne_ok _ _ _) ?_
      rintro ⟨_, _, ⟨⟩, hm⟩
      exact hother n hm
  case h_2 hother =>
    refine iff_of_false (mismatch_ne_ok _ _ _) ?_
    rintro ⟨_, m, rfl, _⟩
    exact hother m rfl

theorem accepts_int32 : int32.Accepts Spelling.int32 := fun _ _ _ => integer_eq_ok "i32" _ _

theorem accepts_int64 : int64.Accepts Spelling.int64 := fun _ _ _ => integer_eq_ok "i64" _ _

theorem not_has_null_int64 (depth : Nat) (n : Int) : ¬(Spelling.int64 n).Has depth .null := by
  simp [Spelling.int64, Spelling.integer]

theorem accepts_byte : byte.Accepts Spelling.byte := by
  intro depth s b
  have hb := b.toNat_lt
  have hmap : byte depth s = .ok b ↔
      ∃ n, integer "u8" 0 255 depth s = .ok n ∧ UInt8.ofNat n.toNat = b := by
    unfold byte
    cases integer "u8" 0 255 depth s <;> simp [Except.map]
  simp only [hmap, integer_eq_ok]
  constructor
  · rintro ⟨n, ⟨hrange, m, rfl, hm⟩, rfl⟩
    have hn : ((UInt8.ofNat n.toNat).toNat : Int) = n := by
      rw [UInt8.toNat_ofNat']
      omega
    exact ⟨trivial, m, rfl, hn.symm ▸ hm⟩
  · rintro ⟨_, m, rfl, hm⟩
    exact ⟨b.toNat, ⟨by omega, m, rfl, hm⟩, by simp⟩

/-- A member of an enumeration whose members have different names. -/
theorem accepts_variant {members : List α} {name : α → String}
    (hfind : ∀ a, (members.map fun a => (name a, a)).find? (fun p => p.1 == name a) = some (name a, a)) :
    (variant (members.map fun a => (name a, a))).Accepts fun a => .word (name a) := by
  intro depth s a
  have hnamed : ∀ n, variant (members.map fun a => (name a, a)) depth (.string (some n)) = .ok a ↔ n = name a := by
    intro n
    unfold variant
    constructor
    · intro h
      dsimp only at h
      split at h
      case h_1 p hp =>
        obtain ⟨b, _, rfl⟩ := List.mem_map.1 (List.mem_of_find?_eq_some hp)
        obtain rfl : b = a := Except.ok.inj h
        have hname := List.find?_some hp
        exact (beq_iff_eq.1 hname).symm
      case h_2 => cases h
    · rintro rfl
      dsimp only
      rw [hfind a]
  unfold variant
  split
  case h_1 n => exact (hnamed n).trans (by simp [Spelling.word])
  case h_2 n =>
    split
    case isTrue hdepth => simp [Spelling.word, hdepth]
    case isFalse hdepth => exact (hnamed n).trans (by simp [Spelling.word, hdepth])
  case h_3 hother =>
    refine iff_of_false (by simp) ?_
    rintro (hstring | ⟨_, hobject⟩)
    · cases hstring
    · exact hother _ (Syntax.object.inj hobject)
  case h_4 hstring _ hobject =>
    refine iff_of_false (mismatch_ne_ok _ _ _) ?_
    rintro (rfl | ⟨_, rfl⟩)
    · exact hstring _ rfl
    · exact hobject _ rfl

theorem accepts_value : value.Accepts Spelling.value := by
  intro depth s v
  unfold value
  split
  case h_1 w hw => simp [Spelling.value, hw]
  case h_2 hnone => simp [Spelling.value, hnone]

private theorem mapM_eq_ok (h : d.Accepts x) {depth : Nat} {ts : List Syntax} {as : List α} :
    ts.mapM (d depth) = .ok as ↔ List.Forall₂ (fun y t => y.Has depth t) (as.map x) ts := by
  induction ts generalizing as with
  | nil => cases as <;> simp [pure, Except.pure]
  | cons t ts ih =>
    rw [List.mapM_cons]
    constructor
    · intro hok
      cases hfirst : d depth t with
      | error e => simp [hfirst, bind, Except.bind] at hok
      | ok a =>
        cases hrest : ts.mapM (d depth) with
        | error e => simp [hfirst, hrest, bind, Except.bind] at hok
        | ok rest =>
          obtain rfl : a :: rest = as := by simpa [hfirst, hrest, bind, Except.bind, pure, Except.pure] using hok
          exact .cons ((h depth t a).1 hfirst) (ih.1 hrest)
    · intro hhas
      cases as with
      | nil => cases hhas
      | cons a as =>
        obtain ⟨hfirst, hrest⟩ := List.forall₂_cons.1 hhas
        rw [(h depth t a).2 hfirst, ih.2 hrest]
        rfl

theorem accepts_list (h : d.Accepts x) : (list d).Accepts fun as => .items (as.map x) := by
  intro depth s as
  unfold list
  split
  case h_1 ts =>
    split
    case isTrue hdepth => simp [Spelling.items, hdepth]
    case isFalse hdepth => simp [Spelling.items, hdepth, mapM_eq_ok h]
  case h_2 hother =>
    refine iff_of_false (mismatch_ne_ok _ _ _) ?_
    rintro ⟨_, ts, rfl, _⟩
    exact hother ts rfl

/-- What may be missing is not there where the text is `null`, unless `null` stands for a value. -/
theorem optional_eq_ok (name : String) (h : d.Accepts x) (hnull : ∀ depth a, ¬(x a).Has depth .null) {depth : Nat}
    {s : Syntax} {o : Option α} : optional d depth s = .ok o ↔ (Part.optional name (o.map x)).Has depth s := by
  unfold optional
  split
  case h_1 =>
    cases o with
    | none => simp [Part.Has]
    | some a => simpa [Part.Has] using hnull depth a
  case h_2 hother =>
    cases o with
    | none =>
      refine iff_of_false ?_ hother
      cases d depth s <;> simp [Except.map]
    | some a =>
      rw [Option.map_some, Part.Has, ← h depth s a]
      cases d depth s <;> simp [Except.map]

end Decoder

/-! ### Fields -/

namespace Record

variable {α β : Type}

/-- A value with a property is made of what is found. -/
def Makes (r : Record α) (depth : Nat) (found : String → Option Syntax) (Q : α → Prop) : Prop :=
  ∃ a, r.build depth found = .ok a ∧ Q a

/-- Whatever a value is made of passes its check. -/
def Checked (r : Record α) : Prop :=
  ∀ depth found a, r.build depth found = .ok a →
    ∀ name ∈ r.names, ∀ s, found name = some s → r.check name depth s = .ok ()

section

variable {depth : Nat} {found : String → Option Syntax} {Q : β → Prop} {name : String} {d : Decoder α}
  {x : α → Spelling}

theorem makes_pure {a : β} : (Record.pure a).Makes depth found Q ↔ Q a := by
  simp [Makes, Record.pure]

private theorem build_both_eq_ok {f : Record (α → β)} {y : Record α} {b : β} :
    (f.both y).build depth found = .ok b ↔
      ∃ g, f.build depth found = .ok g ∧ ∃ a, y.build depth found = .ok a ∧ g a = b := by
  simp only [both]
  cases f.build depth found with
  | error e => simp [bind, Except.bind]
  | ok g => cases y.build depth found <;> simp [bind, Except.bind, Pure.pure, Except.pure]

private theorem makes_both {f : Record (α → β)} {y : Record α} :
    (f.both y).Makes depth found Q ↔
      f.Makes depth found fun g => ∃ a, y.build depth found = .ok a ∧ Q (g a) := by
  simp only [Makes, build_both_eq_ok]
  constructor
  · rintro ⟨_, ⟨g, hg, a, ha, rfl⟩, hQ⟩
    exact ⟨g, hg, a, ha, hQ⟩
  · rintro ⟨g, hg, a, ha, hQ⟩
    exact ⟨g a, ⟨g, hg, a, ha, rfl⟩, hQ⟩

/-- The last field of a record is a part that fits what is found under its name. -/
theorem makes_field {f : Record (α → β)} (h : d.Accepts x) :
    (f.field name d).Makes depth found Q ↔
      f.Makes depth found fun g => ∃ a, (Part.required name (x a)).Fits depth (found name) ∧ Q (g a) := by
  have hbuild : ∀ a, (required name d).build depth found = .ok a ↔
      (Part.required name (x a)).Fits depth (found name) := by
    intro a
    simp only [required, fieldOr]
    cases found name with
    | none => simp [Part.Fits, Part.MayLack]
    | some s => exact h depth s a
  simp only [field, makes_both, hbuild]

theorem makes_optionalField {f : Record (Option α → β)} (h : d.Accepts x)
    (hnull : ∀ depth a, ¬(x a).Has depth .null) :
    (f.optionalField name d).Makes depth found Q ↔
      f.Makes depth found fun g => ∃ o, (Part.optional name (o.map x)).Fits depth (found name) ∧ Q (g o) := by
  have hbuild : ∀ o, (optional name d).build depth found = .ok o ↔
      (Part.optional name (o.map x)).Fits depth (found name) := by
    intro o
    simp only [optional, fieldOr]
    cases found name with
    | none => simp [Part.Fits, Part.MayLack, eq_comm]
    | some s => exact Decoder.optional_eq_ok name h hnull
  simp only [optionalField, makes_both, hbuild]

theorem makes_trailingField {f : Record (Option α → β)} (h : d.Accepts x)
    (hnull : ∀ depth a, ¬(x a).Has depth .null) :
    (f.trailingField name d).Makes depth found Q ↔
      f.Makes depth found fun g => ∃ o, (Part.trailing name (o.map x)).Fits depth (found name) ∧ Q (g o) := by
  have hbuild : ∀ o, (withDefault name (Decoder.optional d) none).build depth found = .ok o ↔
      (Part.trailing name (o.map x)).Fits depth (found name) := by
    intro o
    simp only [withDefault, fieldOr]
    cases found name with
    | none => simp [Part.Fits, Part.MayLack, eq_comm]
    | some s => cases o <;> exact Decoder.optional_eq_ok name h hnull
  simp only [trailingField, makes_both, hbuild]

end

namespace Checked

theorem pure (a : α) : (Record.pure a).Checked := fun _ _ _ _ _ _ _ _ => rfl

private theorem both {f : Record (α → β)} {y : Record α} (hf : f.Checked) (hy : y.Checked) : (f.both y).Checked := by
  intro depth found b hb name hname s hs
  obtain ⟨g, hg, a, ha, rfl⟩ := build_both_eq_ok.1 hb
  simp only [Record.both, List.contains_eq_mem, decide_eq_true_eq]
  split
  case isTrue hmem => exact hf depth found g hg name hmem s hs
  case isFalse hmem => exact hy depth found a ha name ((List.mem_append.1 hname).resolve_left hmem) s hs

private theorem fieldOr (name : String) (d : Decoder α) (absent : Except DecodeError α) (defaulted : Bool) :
    (Record.fieldOr name d absent defaulted).Checked := by
  intro depth found a ha n hn s hs
  obtain rfl : n = name := by simpa [Record.fieldOr] using hn
  simp only [Record.fieldOr, hs] at ha
  simp [Record.fieldOr, ha, Except.map]

variable {name : String} {d : Decoder α}

theorem field {f : Record (α → β)} (h : f.Checked) : (f.field name d).Checked :=
  h.both (fieldOr _ _ _ _)

theorem optionalField {f : Record (Option α → β)} (h : f.Checked) : (f.optionalField name d).Checked :=
  h.both (fieldOr _ _ _ _)

theorem trailingField {f : Record (Option α → β)} (h : f.Checked) : (f.trailingField name d).Checked :=
  h.both (fieldOr _ _ _ _)

end Checked

/-! ### Objects and arrays -/

variable {r : Record α} {parts : α → List Part}

/-- The fields of a record are the parts of its values: the same fields for each value, those that may be left out
at the end of an array where the record has it so, and a value is made of what fits its parts. -/
structure Covers (r : Record α) (parts : α → List Part) : Prop where
  names : ∀ a, (parts a).map Part.name = r.names
  nodup : r.names.Nodup
  presence : ∀ a b, ((parts a).map fun p => (p.name, p.presence)) = (parts b).map fun p => (p.name, p.presence)
  trailing : ∀ a, ((parts a).filter fun p => p.presence = .trailing).map Part.name = r.defaulted
  checked : r.Checked
  makes : ∀ depth found a, (r.Makes depth found fun b => b = a) ↔ ∀ p ∈ parts a, p.Fits depth (found p.name)

/-- What fits a part, among the values that are found. -/
private theorem fits_values_iff {depth : Nat} {p : Part} {vs : List Syntax} :
    ((vs = [] ∧ p.MayLack) ∨ ∃ s, vs = [s] ∧ p.Has depth s) ↔ vs.length ≤ 1 ∧ p.Fits depth vs.head? := by
  match vs with
  | [] => simp [Part.Fits]
  | [s] => simp [Part.Fits]
  | _ :: _ :: _ => simp

namespace Covers

theorem distinct (h : r.Covers parts) (a : α) : ((parts a).map Part.name).Nodup :=
  h.names a ▸ h.nodup

theorem build_eq_ok (h : r.Covers parts) {depth : Nat} {found : String → Option Syntax} {a : α} :
    r.build depth found = .ok a ↔ ∀ p ∈ parts a, p.Fits depth (found p.name) := by
  rw [← h.makes]
  simp [Makes]

theorem mem_names (h : r.Covers parts) {a : α} {p : Part} (hp : p ∈ parts a) : p.name ∈ r.names :=
  h.names a ▸ List.mem_map_of_mem hp

theorem trailing_iff (h : r.Covers parts) {a : α} {p : Part} (hp : p ∈ parts a) :
    p.presence = .trailing ↔ p.name ∈ r.defaulted := by
  rw [← h.trailing a]
  constructor
  · intro htrailing
    exact List.mem_map_of_mem (List.mem_filter.2 ⟨hp, by simpa using htrailing⟩)
  · intro hname
    obtain ⟨q, hq, hqp⟩ := List.mem_map.1 hname
    obtain ⟨hqmem, hqtrailing⟩ := List.mem_filter.1 hq
    obtain rfl : q = p := List.inj_on_of_nodup_map (h.distinct a) hqmem hp hqp
    simpa using hqtrailing

/-- A record is made of the members of an object where they list its parts. -/
theorem object_iff (h : r.Covers parts) {depth : Nat} {members : List (Token × Syntax)} {a : α} :
    (r.collect depth members [] >>= fun slots => r.build depth (lookup slots)) = .ok a ↔
      Lists depth members (parts a) := by
  have hlookup : ∀ p ∈ parts a, lookup (r.known members) p.name = (values p.name members).head? :=
    fun p hp => lookup_known (h.mem_names hp)
  constructor
  · intro hok
    cases hcollect : r.collect depth members [] with
    | error e => simp [hcollect, bind, Except.bind] at hok
    | ok slots =>
      obtain ⟨hnames, hnodup, _, rfl⟩ := of_collect hcollect
      have hbuild : r.build depth (lookup (r.known members)) = .ok a := by
        simpa [hcollect, bind, Except.bind] using hok
      refine ⟨hnames, fun p hp => fits_values_iff.2 ⟨nodup_known.1 hnodup _ (h.mem_names hp), ?_⟩⟩
      exact hlookup p hp ▸ h.build_eq_ok.1 hbuild p hp
  · intro hlists
    have hfits : ∀ p ∈ parts a, (values p.name members).length ≤ 1 ∧ p.Fits depth (values p.name members).head? :=
      fun p hp => fits_values_iff.1 (hlists.parts p hp)
    have hnodup : ((r.known members).map Prod.fst).Nodup := nodup_known.2 fun name hname => by
      rw [← h.names a] at hname
      obtain ⟨p, hp, rfl⟩ := List.mem_map.1 hname
      exact (hfits p hp).1
    have hbuild : r.build depth (lookup (r.known members)) = .ok a :=
      h.build_eq_ok.2 fun p hp => hlookup p hp ▸ (hfits p hp).2
    have hcheck : ∀ q ∈ r.known members, r.check q.1 depth q.2 = .ok () := fun q hq =>
      h.checked depth _ a hbuild q.1 (mem_names_of_mem_known hq) q.2 (lookup_of_mem hnodup hq)
    rw [collect_known hlists.names hnodup (by simp) hcheck, List.nil_append]
    exact hbuild

/-- The items of an array under the names of the fields. -/
private theorem assign_iff (type : String) (given : Nat) {depth : Nat} {ps : List Part} {items : List Syntax}
    (hdistinct : (ps.map Part.name).Nodup) (htrailing : ∀ p ∈ ps, p.presence = .trailing ↔ p.name ∈ r.defaulted) :
    (∃ slots, r.assign type given (ps.map Part.name) items = .ok slots ∧
      ∀ p ∈ ps, p.Fits depth (lookup slots p.name)) ↔ Places depth ps items := by
  induction ps generalizing items with
  | nil => cases items <;> simp [assign, Places]
  | cons p ps ih =>
    obtain ⟨hnew, hdistinct⟩ := List.nodup_cons.1 hdistinct
    obtain ⟨hfirst, hothers⟩ := List.forall_mem_cons.1 htrailing
    cases items with
    | nil =>
      have hall : (p.name :: ps.map Part.name).all r.defaulted.contains = true ↔
          ∀ q ∈ p :: ps, q.presence = .trailing := by
        rw [← List.map_cons, List.all_eq_true, List.forall_mem_map]
        exact forall₂_congr fun q hq => by simpa using (htrailing q hq).symm
      rw [List.map_cons, assign, Places]
      by_cases htail : (p.name :: ps.map Part.name).all r.defaulted.contains = true
      · rw [if_pos htail]
        constructor
        · rintro ⟨_, ⟨⟩, hfits⟩
          exact fun q hq => ⟨hall.1 htail q hq, hfits q hq⟩
        · intro hplaces
          exact ⟨[], rfl, fun q hq => (hplaces q hq).2⟩
      · rw [if_neg htail]
        refine iff_of_false (by simp) fun hplaces => htail (hall.2 fun q hq => (hplaces q hq).1)
    | cons s items =>
      have hlast : ∀ (rest : List (String × Syntax)) (q : Part), q ∈ ps →
          lookup ((p.name, s) :: rest) q.name = lookup rest q.name := fun rest q hq => by
        have hne : p.name ≠ q.name := fun heq => hnew (heq ▸ List.mem_map_of_mem hq)
        simp [lookup, hne]
      have hown : ∀ rest, lookup ((p.name, s) :: rest) p.name = some s := fun rest => by simp [lookup]
      rw [List.map_cons, assign, Places, ← ih hdistinct hothers]
      constructor
      · rintro ⟨slots, hslots, hfits⟩
        cases hrest : r.assign type given (ps.map Part.name) items with
        | error e => simp [hrest, bind, Except.bind] at hslots
        | ok rest =>
          obtain rfl : (p.name, s) :: rest = slots := by
            simpa [hrest, bind, Except.bind, Pure.pure, Except.pure] using hslots
          obtain ⟨hfit, hfits⟩ := List.forall_mem_cons.1 hfits
          rw [hown] at hfit
          exact ⟨hfit, rest, rfl, fun q hq => hlast rest q hq ▸ hfits q hq⟩
      · rintro ⟨hhas, rest, hrest, hfits⟩
        refine ⟨(p.name, s) :: rest, by rw [hrest]; rfl, List.forall_mem_cons.2 ⟨?_, fun q hq => ?_⟩⟩
        · rw [hown]
          exact hhas
        · rw [hlast rest q hq]
          exact hfits q hq

/-- A record is made of the items of an array where they are its parts in order. -/
theorem array_iff (h : r.Covers parts) (type : String) {given depth : Nat} {items : List Syntax} {a : α} :
    (r.assign type given r.names items >>= fun slots => r.build depth (lookup slots)) = .ok a ↔
      Places depth (parts a) items := by
  rw [← assign_iff type given (h.distinct a) fun p hp => h.trailing_iff hp, h.names a]
  simp only [← h.build_eq_ok]
  cases r.assign type given r.names items <;> simp [bind, Except.bind]

/-- A record accepts the texts of its parts. -/
theorem accepts (h : r.Covers parts) (type : String) :
    (r.decoder type).Accepts fun a => .record (parts a) (h.distinct a) := by
  intro depth s a
  unfold decoder
  split
  case h_1 members =>
    split
    case isTrue hdepth => exact iff_of_false (by simp) fun hhas => hhas.1 hdepth
    case isFalse hdepth => exact h.object_iff.trans (and_iff_right hdepth).symm
  case h_2 items =>
    split
    case isTrue hdepth => exact iff_of_false (by simp) fun hhas => hhas.1 hdepth
    case isFalse hdepth => exact (h.array_iff type).trans (and_iff_right hdepth).symm
  case h_3 hobject harray =>
    refine iff_of_false (mismatch_ne_ok _ _ _) fun hhas => ?_
    cases s with
    | object members => exact hobject members rfl
    | array items => exact harray items rfl
    | _ => exact hhas

end Covers

end Record

end IngestionQueue.Json
