import IngestionQueue.Document
import IngestionQueue.Proofs.Utf8
import Mathlib.Data.List.Infix

/-!
# Damaged texts

A sequence of bytes that breaks off never swallows the character behind it, because no byte that continues a
character begins one.  So every character of a byte string is read, whatever the bytes around it are
(`Utf8.decode_append_encode`), and nothing else is: what stands between the characters holds none
(`Utf8.carries_iff`).
-/

namespace IngestionQueue

namespace Utf8

/-! ### The bytes of a number -/

private theorem toNat_char {n : Nat} (h : n.isValidChar) : (Char.ofNat n).toNat = n := by
  unfold Char.ofNat
  rw [dif_pos h]
  rfl

private theorem ofNat_eq {n : Nat} {b : UInt8} (h : n = b.toNat) : UInt8.ofNat n = b := by
  rw [h, UInt8.ofNat_toNat]

private theorem encodeChar_one {b : UInt8} (h : b.toNat < 0x80) : encodeChar (Char.ofNat b.toNat) = [b] := by
  have hn := toNat_char (n := b.toNat) (Or.inl (by omega))
  unfold encodeChar
  simp only [hn, h, if_true, UInt8.ofNat_toNat]

private theorem encodeChar_two {n : Nat} {a b : UInt8} (hlow : 0x80 ≤ n) (hhigh : n < 0x800)
    (ha : 0xC0 + n / 0x40 = a.toNat) (hb : 0x80 + n % 0x40 = b.toNat) : encodeChar (Char.ofNat n) = [a, b] := by
  have hn := toNat_char (n := n) (Or.inl (by omega))
  have hone : ¬n < 0x80 := by omega
  unfold encodeChar
  simp only [hn, hone, hhigh, if_true, if_false, ofNat_eq ha, ofNat_eq hb]

private theorem encodeChar_three {n : Nat} {a b c : UInt8} (hlow : 0x800 ≤ n) (hhigh : n < 0x10000)
    (hvalid : n < 0xD800 ∨ 0xDFFF < n) (ha : 0xE0 + n / 0x1000 = a.toNat) (hb : 0x80 + n / 0x40 % 0x40 = b.toNat)
    (hc : 0x80 + n % 0x40 = c.toNat) : encodeChar (Char.ofNat n) = [a, b, c] := by
  have hn := toNat_char (n := n) (hvalid.imp id fun h => ⟨h, by omega⟩)
  have hone : ¬n < 0x80 := by omega
  have htwo : ¬n < 0x800 := by omega
  unfold encodeChar
  simp only [hn, hone, htwo, hhigh, if_true, if_false, ofNat_eq ha, ofNat_eq hb, ofNat_eq hc]

private theorem encodeChar_four {n : Nat} {a b c d : UInt8} (hlow : 0x10000 ≤ n) (hhigh : n < 0x110000)
    (ha : 0xF0 + n / 0x40000 = a.toNat) (hb : 0x80 + n / 0x1000 % 0x40 = b.toNat)
    (hc : 0x80 + n / 0x40 % 0x40 = c.toNat) (hd : 0x80 + n % 0x40 = d.toNat) :
    encodeChar (Char.ofNat n) = [a, b, c, d] := by
  have hn := toNat_char (n := n) (Or.inr ⟨by omega, hhigh⟩)
  have hone : ¬n < 0x80 := by omega
  have htwo : ¬n < 0x800 := by omega
  have hthree : ¬n < 0x10000 := by omega
  unfold encodeChar
  simp only [hn, hone, htwo, hthree, if_false, ofNat_eq ha, ofNat_eq hb, ofNat_eq hc, ofNat_eq hd]

/-! ### A character under way -/

/-- The number that some bits and the continuation bytes behind them make up. -/
def value (bits : Nat) (rest : Bytes) : Nat :=
  rest.foldl (fun n b => n * 0x40 + (b.toNat - 0x80)) bits

theorem value_append (bits : Nat) (rest more : Bytes) : value bits (rest ++ more) = value (value bits rest) more :=
  List.foldl_append

/-- A byte may stand behind the first byte of a character. -/
def Continues (b : UInt8) : Prop :=
  0x80 ≤ b.toNat ∧ b.toNat ≤ 0xBF

/-- What a character under way says of the bytes that it has begun with: continuation bytes are missing, and with
them it is written like this. -/
structure Pending.Follows (p : Pending) (seen : Bytes) : Prop where
  missing : 1 ≤ p.missing
  low : 0x80 ≤ p.low
  high : p.high ≤ 0xBF
  written : ∀ b rest, p.low ≤ b.toNat → b.toNat ≤ p.high → rest.length + 1 = p.missing →
    (∀ x ∈ rest, Continues x) → encodeChar (Char.ofNat (value p.bits (b :: rest))) = seen ++ b :: rest

private theorem follows_two {a : UInt8} (hlow : 0xC2 ≤ a.toNat) (hhigh : a.toNat < 0xE0) :
    Pending.Follows ⟨a.toNat - 0xC0, 1, 0x80, 0xBF⟩ [a] := by
  refine ⟨Nat.le_refl 1, Nat.le_refl _, Nat.le_refl _, ?_⟩
  intro b rest hb hb' hlength _
  dsimp only at hb hb' hlength
  obtain rfl : rest = [] := List.eq_nil_of_length_eq_zero (by omega)
  simp only [value, List.foldl_cons, List.foldl_nil]
  exact encodeChar_two (by omega) (by omega) (by omega) (by omega)

private theorem follows_three {a : UInt8} (hlow : 0xE0 ≤ a.toNat) (hhigh : a.toNat < 0xF0) :
    Pending.Follows ⟨a.toNat - 0xE0, 2, if a.toNat = 0xE0 then 0xA0 else 0x80,
      if a.toNat = 0xED then 0x9F else 0xBF⟩ [a] := by
  refine ⟨by dsimp only; omega, by dsimp only; split <;> omega, by dsimp only; split <;> omega, ?_⟩
  intro b rest hb hb' hlength hrest
  dsimp only at hb hb' hlength
  obtain ⟨c, rfl⟩ := List.length_eq_one_iff.1 (show rest.length = 1 by omega)
  obtain ⟨hc, hc'⟩ := hrest c (by simp)
  simp only [value, List.foldl_cons, List.foldl_nil]
  -- The range of the second byte keeps out the numbers of fewer bytes and the surrogates.
  have hrange : 0x800 ≤ ((a.toNat - 0xE0) * 0x40 + (b.toNat - 0x80)) * 0x40 + (c.toNat - 0x80) := by
    split at hb <;> omega
  have hvalid : ((a.toNat - 0xE0) * 0x40 + (b.toNat - 0x80)) * 0x40 + (c.toNat - 0x80) < 0xD800 ∨
      0xDFFF < ((a.toNat - 0xE0) * 0x40 + (b.toNat - 0x80)) * 0x40 + (c.toNat - 0x80) := by
    split at hb' <;> split at hb <;> omega
  have hb128 : 0x80 ≤ b.toNat ∧ b.toNat ≤ 0xBF := by
    split at hb <;> split at hb' <;> omega
  exact encodeChar_three hrange (by omega) hvalid (by omega) (by omega) (by omega)

private theorem follows_four {a : UInt8} (hlow : 0xF0 ≤ a.toNat) (hhigh : a.toNat < 0xF5) :
    Pending.Follows ⟨a.toNat - 0xF0, 3, if a.toNat = 0xF0 then 0x90 else 0x80,
      if a.toNat = 0xF4 then 0x8F else 0xBF⟩ [a] := by
  refine ⟨by dsimp only; omega, by dsimp only; split <;> omega, by dsimp only; split <;> omega, ?_⟩
  intro b rest hb hb' hlength hrest
  dsimp only at hb hb' hlength
  obtain ⟨c, d, rfl⟩ := List.length_eq_two.1 (show rest.length = 2 by omega)
  obtain ⟨hc, hc'⟩ := hrest c (by simp)
  obtain ⟨hd, hd'⟩ := hrest d (by simp)
  simp only [value, List.foldl_cons, List.foldl_nil]
  -- The range of the second byte keeps out the numbers of fewer bytes and those beyond the last character.
  have hb128 : 0x80 ≤ b.toNat ∧ b.toNat ≤ 0xBF := by
    split at hb <;> split at hb' <;> omega
  have hrange : 0x10000 ≤
      (((a.toNat - 0xF0) * 0x40 + (b.toNat - 0x80)) * 0x40 + (c.toNat - 0x80)) * 0x40 + (d.toNat - 0x80) := by
    split at hb <;> omega
  have hvalid :
      (((a.toNat - 0xF0) * 0x40 + (b.toNat - 0x80)) * 0x40 + (c.toNat - 0x80)) * 0x40 + (d.toNat - 0x80) <
        0x110000 := by
    split at hb' <;> omega
  exact encodeChar_four hrange hvalid (by omega) (by omega) (by omega) (by omega)

/-- The bytes of the character under way in a state, of which there are none between two characters. -/
inductive Under : Option Pending → Bytes → Prop
  | between : Under none []
  | within {p : Pending} {seen : Bytes} (h : p.Follows seen) : Under (some p) seen

/-- A byte that begins anew is a character, or begins one, or is dropped. -/
theorem start_cases (b : UInt8) :
    (∃ c, encodeChar c = [b] ∧ start [] b = (none, [c])) ∨
      ∃ dropped seen state, dropped ++ seen = [b] ∧ Under state seen ∧ start [] b = (state, []) := by
  have hb : UInt8.ofNat b.toNat = b := UInt8.ofNat_toNat
  have hlt : b.toNat < 256 := b.toNat_lt
  by_cases hone : b.toNat < 0x80
  · have hlead := lead_one hone
    rw [hb] at hlead
    exact .inl ⟨_, encodeChar_one hone, by simp only [start, hlead]⟩
  right
  by_cases hill : b.toNat < 0xC2 ∨ 0xF5 ≤ b.toNat
  · have hlead := lead_illFormed (by omega) hlt hill
    rw [hb] at hlead
    exact ⟨[b], [], none, rfl, .between, by simp only [start, hlead]⟩
  by_cases htwo : b.toNat < 0xE0
  · have hlead := lead_two (n := b.toNat) (by omega) htwo
    rw [hb] at hlead
    exact ⟨[], [b], _, rfl, .within (follows_two (by omega) htwo), by simp only [start, hlead]⟩
  by_cases hthree : b.toNat < 0xF0
  · have hlead := lead_three (n := b.toNat) (by omega) hthree
    rw [hb] at hlead
    exact ⟨[], [b], _, rfl, .within (follows_three (by omega) hthree), by simp only [start, hlead]⟩
  · have hlead := lead_four (n := b.toNat) (by omega) (by omega)
    rw [hb] at hlead
    exact ⟨[], [b], _, rfl, .within (follows_four (a := b) (by omega) (by omega)), by simp only [start, hlead]⟩

/-- A byte that does not continue the character under way drops its bytes, and itself begins anew. -/
theorem step_of_outside {p : Pending} {b : UInt8} (h : b.toNat < p.low ∨ p.high < b.toNat) :
    step [] (some p) b = start [] b := by
  have hout : (decide (p.low ≤ b.toNat) && decide (b.toNat ≤ p.high)) = false := by
    simp only [Bool.and_eq_false_iff, decide_eq_false_iff_not]
    omega
  simp only [step, hout, Bool.false_eq_true, if_false, List.nil_append]

theorem step_of_within {p : Pending} {b : UInt8} (h : p.low ≤ b.toNat) (h' : b.toNat ≤ p.high) :
    step [] (some p) b =
      if p.missing ≤ 1 then (none, [Char.ofNat (value p.bits [b])])
      else (some ⟨value p.bits [b], p.missing - 1, 0x80, 0xBF⟩, []) := by
  simp only [step, h, h', decide_true, Bool.and_self, if_true]
  rfl

/-- A byte read: it completes the character under way and nothing but its bytes, or it is the last byte of one under
way, all earlier ones being dropped. -/
theorem step_cases {state : Option Pending} {seen : Bytes} (h : Under state seen) (b : UInt8) :
    (∃ dropped c, dropped ++ encodeChar c = seen ++ [b] ∧ step [] state b = (none, [c])) ∨
      ∃ dropped seen' state', dropped ++ seen' = seen ++ [b] ∧ Under state' seen' ∧
        step [] state b = (state', []) := by
  -- What was seen before is dropped when the byte begins anew.
  have hstart : step [] state b = start [] b →
      (∃ dropped c, dropped ++ encodeChar c = seen ++ [b] ∧ step [] state b = (none, [c])) ∨
        ∃ dropped seen' state', dropped ++ seen' = seen ++ [b] ∧ Under state' seen' ∧
          step [] state b = (state', []) := by
    intro hstep
    rw [hstep]
    rcases start_cases b with ⟨c, hc, hb⟩ | ⟨dropped, seen', state', hsplit, hunder, hb⟩
    · exact .inl ⟨seen, c, by rw [hc], hb⟩
    · exact .inr ⟨seen ++ dropped, seen', state', by rw [List.append_assoc, hsplit], hunder, hb⟩
  cases h with
  | between => exact hstart rfl
  | @within p _ hp =>
    by_cases hout : b.toNat < p.low ∨ p.high < b.toNat
    · exact hstart (step_of_outside hout)
    · have hlow : p.low ≤ b.toNat := by omega
      have hhigh : b.toNat ≤ p.high := by omega
      have hstep := step_of_within hlow hhigh
      by_cases hlast : p.missing ≤ 1
      · rw [if_pos hlast] at hstep
        have hmissing : ([] : Bytes).length + 1 = p.missing := Nat.le_antisymm hp.missing hlast
        have hwritten := hp.written b [] hlow hhigh hmissing (by simp)
        exact .inl ⟨[], Char.ofNat (value p.bits [b]), by rw [List.nil_append, hwritten], hstep⟩
      · rw [if_neg hlast] at hstep
        refine .inr ⟨[], seen ++ [b], _, rfl, .within ⟨by dsimp only; omega, Nat.le_refl _, Nat.le_refl _, ?_⟩, hstep⟩
        intro x rest hx hx' hlength hrest
        have hwritten := hp.written b (x :: rest) hlow hhigh (by dsimp only at hlength; simp; omega)
          (List.forall_mem_cons.2 ⟨⟨hx, hx'⟩, hrest⟩)
        rw [List.append_assoc, ← value_append]
        exact hwritten

/-! ### Nothing is swallowed -/

/-- The first byte of a character continues none. -/
theorem encodeChar_eq_cons (c : Char) : ∃ b rest, encodeChar c = b :: rest ∧ ¬Continues b := by
  unfold encodeChar Continues
  have hrange := toNat_range c
  generalize c.toNat = n at hrange
  by_cases hone : n < 0x80
  · exact ⟨_, _, if_pos hone, by rw [toNat_ofNat] <;> omega⟩
  rw [if_neg hone]
  by_cases htwo : n < 0x800
  · exact ⟨_, _, if_pos htwo, by rw [toNat_ofNat] <;> omega⟩
  rw [if_neg htwo]
  by_cases hthree : n < 0x10000
  · exact ⟨_, _, if_pos hthree, by rw [toNat_ofNat] <;> omega⟩
  · exact ⟨_, _, if_neg hthree, by rw [toNat_ofNat] <;> omega⟩

/-- A character is read in every state, and what was under way is dropped. -/
theorem decodeFrom_encodeChar_under {state : Option Pending} {seen : Bytes} (h : Under state seen) (c : Char)
    (rest : Bytes) : decodeFrom [] state (encodeChar c ++ rest) = c :: decode rest := by
  rw [decode, ← decodeFrom_encodeChar [] c rest]
  cases h with
  | between => rfl
  | @within p _ hp =>
    obtain ⟨b, more, hc, hb⟩ := encodeChar_eq_cons c
    have hstep : step [] (some p) b = step [] none b := step_of_outside (by
      have := hp.low
      have := hp.high
      unfold Continues at hb
      omega)
    simp only [hc, List.cons_append, decodeFrom, hstep]

theorem decodeFrom_append_encodeChar {state : Option Pending} {seen : Bytes} (h : Under state seen) (a : Bytes)
    (c : Char) (rest : Bytes) :
    decodeFrom [] state (a ++ (encodeChar c ++ rest)) = decodeFrom [] state a ++ c :: decode rest := by
  induction a generalizing state seen with
  | nil =>
    have hend : decodeFrom [] state [] = [] := by simp [decodeFrom]
    rw [hend, List.nil_append, decodeFrom_encodeChar_under h, List.nil_append]
  | cons b a ih =>
    rcases step_cases h b with ⟨_, c', _, hstep⟩ | ⟨_, seen', state', _, hunder, hstep⟩
    · simp only [List.cons_append, decodeFrom, hstep, ih .between, List.append_assoc]
    · simp only [List.cons_append, decodeFrom, hstep, ih hunder, List.nil_append]

theorem decode_append_encodeChar (a : Bytes) (c : Char) (rest : Bytes) :
    decode (a ++ (encodeChar c ++ rest)) = decode a ++ c :: decode rest :=
  decodeFrom_append_encodeChar .between a c rest

theorem decode_encode_append (cs : List Char) (rest : Bytes) : decode (encode cs ++ rest) = cs ++ decode rest := by
  induction cs with
  | nil => rfl
  | cons c cs ih =>
    have hcons : encode (c :: cs) = encodeChar c ++ encode cs := List.flatMap_cons
    have hread := decode_append_encodeChar [] c (encode cs ++ rest)
    rw [hcons, List.append_assoc]
    rw [ih] at hread
    exact hread

/-- A text is read whatever stands around it. -/
theorem decode_append_encode {cs : List Char} (hcs : cs ≠ []) (a b : Bytes) :
    decode (a ++ encode cs ++ b) = decode a ++ cs ++ decode b := by
  cases cs with
  | nil => exact absurd rfl hcs
  | cons c cs =>
    have hcons : encode (c :: cs) = encodeChar c ++ encode cs := List.flatMap_cons
    rw [hcons, List.append_assoc, List.append_assoc, decode_append_encodeChar, decode_encode_append,
      List.append_assoc, List.cons_append]

/-! ### Nothing is inserted -/

/-- What is read first was written somewhere, and all else was written behind it. -/
theorem exists_of_decodeFrom {state : Option Pending} {seen x : Bytes} {c : Char} {cs : List Char}
    (h : Under state seen) (hread : decodeFrom [] state x = c :: cs) :
    ∃ before after, seen ++ x = before ++ (encodeChar c ++ after) ∧ decode after = cs := by
  induction x generalizing state seen with
  | nil =>
    simp [decodeFrom] at hread
  | cons b x ih =>
    have hshift : seen ++ b :: x = seen ++ [b] ++ x := by simp
    rcases step_cases h b with ⟨dropped, c', hsplit, hstep⟩ | ⟨dropped, seen', state', hsplit, hunder, hstep⟩
    · simp only [decodeFrom, hstep, List.cons_append, List.nil_append, List.cons.injEq] at hread
      obtain ⟨rfl, hrest⟩ := hread
      exact ⟨dropped, x, by rw [hshift, ← hsplit, List.append_assoc], hrest⟩
    · simp only [decodeFrom, hstep, List.nil_append] at hread
      obtain ⟨before, after, hx, hafter⟩ := ih hunder hread
      exact ⟨dropped ++ before, after, by rw [hshift, ← hsplit, List.append_assoc, hx, List.append_assoc], hafter⟩

/-- No character is written anywhere in the bytes. -/
def Damaged (x : Bytes) : Prop :=
  ∀ c, ¬encodeChar c <:+: x

theorem decode_eq_nil_iff {x : Bytes} : decode x = [] ↔ Damaged x := by
  constructor
  · rintro h c ⟨a, rest, hx⟩
    rw [← hx, List.append_assoc, decode_append_encodeChar] at h
    simp at h
  · intro h
    cases hread : decode x with
    | nil => rfl
    | cons c cs =>
      obtain ⟨before, after, hx, -⟩ := exists_of_decodeFrom .between hread
      exact absurd ⟨before, after, by rw [List.append_assoc, ← hx, List.nil_append]⟩ (h c)

/-- The characters that are written in a byte string, in order, with nothing but damaged bytes between them. -/
inductive Carries : Bytes → List Char → Prop
  | nil {x : Bytes} (hx : Damaged x) : Carries x []
  | cons {x rest : Bytes} {c : Char} {cs : List Char} (hx : Damaged x) (hrest : Carries rest cs) :
      Carries (x ++ (encodeChar c ++ rest)) (c :: cs)

/-- Reading a byte string gives the characters that are written in it. -/
theorem carries_iff {x : Bytes} {cs : List Char} : Carries x cs ↔ decode x = cs := by
  constructor
  · intro h
    induction h with
    | nil hx => exact decode_eq_nil_iff.2 hx
    | cons hx _ ih => rw [decode_append_encodeChar, decode_eq_nil_iff.2 hx, ih, List.nil_append]
  · intro h
    induction cs generalizing x with
    | nil => exact .nil (decode_eq_nil_iff.1 h)
    | cons c cs ih =>
      obtain ⟨before, after, hx, hafter⟩ := exists_of_decodeFrom .between h
      rw [List.nil_append] at hx
      subst hx
      rw [decode_append_encodeChar, hafter] at h
      have hbefore : decode before = [] := List.append_left_eq_self.1 h
      exact .cons (decode_eq_nil_iff.1 hbefore) (ih hafter)

/-- What is read is part of the bytes. -/
theorem Carries.sublist {x : Bytes} {cs : List Char} (h : Carries x cs) : (encode cs).Sublist x := by
  induction h with
  | nil => exact List.nil_sublist _
  | @cons x rest c cs _ _ ih =>
    have hcons : encode (c :: cs) = encodeChar c ++ encode cs := List.flatMap_cons
    rw [hcons]
    exact (List.Sublist.append_left ih (encodeChar c)).trans (List.sublist_append_right x _)

end Utf8

/-! ### Main result -/

namespace ParserType

variable {p : ParserType}

theorem decode_eq (hp : p = .markdown ∨ p = .generic) (x : Bytes) :
    p.decode x = some (String.ofList (Utf8.decode x)) := by
  rcases hp with rfl | rfl <;> rfl

/-- The parsers of texts lose no text: a text is read whatever bytes stand around it, one that is undamaged as it is,
and reading what was read changes nothing.  Of any byte string they read the characters that are written in it, in
order, and nothing else. -/
theorem decoding (hp : p = .markdown ∨ p = .generic) :
    (∀ (a b : Bytes) (s : String), s ≠ "" → ∃ before after, p.decode a = some before ∧ p.decode b = some after ∧
        p.decode (a ++ Utf8.ofString s ++ b) = some (before ++ s ++ after)) ∧
      (∀ s : String, p.decode (Utf8.ofString s) = some s) ∧
      (∀ x s, p.decode x = some s → p.decode (Utf8.ofString s) = some s) ∧
      (∀ x s, p.decode x = some s ↔ Utf8.Carries x s.toList) ∧
      ∀ x s, p.decode x = some s → (Utf8.ofString s).Sublist x := by
  have hself : ∀ s : String, p.decode (Utf8.ofString s) = some s := by
    intro s
    rw [decode_eq hp, Utf8.ofString, Utf8.decode_encode, String.ofList_toList]
  have hcarries : ∀ x s, p.decode x = some s ↔ Utf8.Carries x s.toList := by
    intro x s
    rw [decode_eq hp, Utf8.carries_iff, Option.some.injEq]
    constructor
    · rintro rfl
      rw [String.toList_ofList]
    · intro h
      rw [h, String.ofList_toList]
  refine ⟨?_, hself, fun _ s _ => hself s, hcarries, fun x s h => ((hcarries x s).1 h).sublist⟩
  intro a b s hs
  have hcs : s.toList ≠ [] := fun h => hs (String.toList_eq_nil_iff.1 h)
  refine ⟨_, _, decode_eq hp a, decode_eq hp b, ?_⟩
  rw [decode_eq hp, Utf8.ofString, Utf8.decode_append_encode hcs, String.ofList_append, String.ofList_append,
    String.ofList_toList]

/-- A character that breaks off before `é` and the last byte of one behind it leave no trace. -/
theorem decoding_broken_off :
    let broken : Bytes := [0xF0, 0x9F, 0x98]
    let stray : Bytes := [0xA9, 0x21]
    markdown.decode (broken ++ Utf8.ofString "é" ++ stray) = some "é!" ∧ Utf8.Carries broken [] := by
  intro broken stray
  obtain ⟨hlaw, -, -, hcarries, -⟩ := decoding (p := markdown) (.inl rfl)
  obtain ⟨before, after, hbefore, hafter, hread⟩ := hlaw broken stray "é" (by decide)
  have hbroken : markdown.decode broken = some "" := by decide
  have hstray : markdown.decode stray = some "!" := by decide
  rw [hbroken, Option.some.injEq] at hbefore
  rw [hstray, Option.some.injEq] at hafter
  subst hbefore hafter
  exact ⟨hread, (hcarries broken "").1 hbroken⟩

end ParserType

end IngestionQueue
