import IngestionQueue.Json.Printing
import IngestionQueue.Json.Reading

/-!
# JSON text and back

The text of a value is read as that value (`Json.parse_text`), and the value of what was read is the value with
the fields of its objects in the order of their names (`Json.toJson?_ofJson`).  Both are about values without
floating-point numbers, `Json.Plain`: the text of such a number has other digits than the ones it is read from.

A numeral ends where no digit, point or exponent follows, so what follows a value has to be known
(`Json.Ends`).  The reader is given more fuel than the text has characters, and every level and every item
takes at least one of them.
-/

namespace IngestionQueue.Json

open Syntax

/-! ### Strings -/

private theorem digitValue?_digit {n : Nat} (h : n < 16) : Hex.digitValue? (Hex.digit n) = some n :=
  have hall : ∀ k : Fin 16, Hex.digitValue? (Hex.digit k) = some k.val := by decide
  hall ⟨n, h⟩

private theorem unit?_digits {n : Nat} (h : n < 0x100) :
    unit? '0' '0' (Hex.digit (n / 16)) (Hex.digit (n % 16)) = some n := by
  have hzero : Hex.digitValue? '0' = some 0 := by decide
  have hhigh := digitValue?_digit (show n / 16 < 16 by omega)
  have hlow := digitValue?_digit (show n % 16 < 16 by omega)
  have hvalue : n / 16 * 16 + n % 16 = n := by omega
  simp [unit?, hzero, hhigh, hlow, hvalue]

private theorem ofUnit_toNat {c : Char} (h : c.toNat < 0x20) : Piece.ofUnit c.toNat = .char c := by
  have hhigh : isHighSurrogate c.toNat = false := by
    simp only [isHighSurrogate, Bool.and_eq_false_iff, decide_eq_false_iff_not]
    exact Or.inl (by omega)
  have hlow : isLowSurrogate c.toNat = false := by
    simp only [isLowSurrogate, Bool.and_eq_false_iff, decide_eq_false_iff_not]
    exact Or.inl (by omega)
  simp [Piece.ofUnit, hhigh, hlow]

private theorem readPieces_cons {c : Char} (cs : List Char) (hquote : c ≠ '"') (hslash : c ≠ '\\')
    (hcontrol : ¬c.toNat < 0x20) :
    readPieces (c :: cs) = (readPieces cs).map fun p => (.char c :: p.1, p.2) := by
  rw [readPieces]
  · rw [if_neg hcontrol]
    cases readPieces cs <;> rfl
  all_goals simp [hquote, hslash]

private theorem readPieces_escaped {c e : Char} (cs : List Char) (hunit : e ≠ 'u') (h : escaped? e = some c) :
    readPieces ('\\' :: e :: cs) = (readPieces cs).map fun p => (.char c :: p.1, p.2) := by
  rw [readPieces]
  · rw [h]
    cases readPieces cs <;> rfl
  · intro _ _ _ _ _ heq _
    exact hunit heq

private theorem readPieces_control {c : Char} (cs : List Char) (h : c.toNat < 0x20) :
    readPieces ('\\' :: 'u' :: '0' :: '0' :: Hex.digit (c.toNat / 16) :: Hex.digit (c.toNat % 16) :: cs) =
      (readPieces cs).map fun p => (.char c :: p.1, p.2) := by
  rw [readPieces, unit?_digits (show c.toNat < 0x100 by omega)]
  cases readPieces cs with
  | none => rfl
  | some p => exact congrArg (fun piece => some (piece :: p.1, p.2)) (ofUnit_toNat h)

private theorem readPieces_escapeChar (c : Char) (cs : List Char) :
    readPieces (escapeChar c ++ cs) = (readPieces cs).map fun p => (.char c :: p.1, p.2) := by
  unfold escapeChar
  split
  case h_8 hquote hslash _ _ _ _ _ =>
    split
    case isTrue hcontrol => exact readPieces_control cs hcontrol
    case isFalse hcontrol => exact readPieces_cons cs hquote hslash hcontrol
  all_goals exact readPieces_escaped cs (by decide) rfl

private theorem readPieces_flatMap (cs rest : List Char) :
    readPieces (cs.flatMap escapeChar ++ '"' :: rest) = some (cs.map .char, rest) := by
  induction cs with
  | nil => rfl
  | cons c cs ih =>
    rw [List.flatMap_cons, List.append_assoc, readPieces_escapeChar, ih]
    rfl

private theorem assemble_map (cs : List Char) : assemble (cs.map .char) = some cs := by
  induction cs with
  | nil => rfl
  | cons c cs ih =>
    rw [List.map_cons, assemble, ih]
    rfl

/-- A string is read up to its closing quote. -/
theorem readToken_print (s : String) (rest : List Char) :
    readToken (s.toList.flatMap escapeChar ++ '"' :: rest) = some (some s, rest) := by
  have hread := readPieces_flatMap s.toList rest
  have htext := assemble_map s.toList
  simp [readToken, hread, htext]

/-! ### Numerals -/

/-- What may follow a value in a text. -/
def Ends (rest : List Char) : Prop :=
  ∀ c ∈ rest.head?, c ∈ [',', ']', '\x7d']

private theorem isDigit_of_mem {n : Nat} {c : Char} (h : c ∈ Nat.toDigits 10 n) : c.isDigit = true :=
  Nat.isDigit_of_mem_toDigits (by decide) (by decide) h

private theorem readSomeDigits_toDigits (n : Nat) {rest : List Char} (h : Ends rest) :
    readSomeDigits (Nat.toDigits 10 n ++ rest) = some (Nat.toDigits 10 n, rest) := by
  have hstop : ∀ c ∈ rest.head?, c.isDigit = false := by
    intro c hc
    have hmem := h c hc
    simp only [List.mem_cons, List.not_mem_nil, or_false] at hmem
    rcases hmem with rfl | rfl | rfl <;> decide
  have hdigits : ∀ c ∈ Nat.toDigits 10 n, c.isDigit = true := fun _ => isDigit_of_mem
  have htake : (Nat.toDigits 10 n ++ rest).takeWhile Char.isDigit = Nat.toDigits 10 n := by
    rw [List.takeWhile_append_of_pos hdigits]
    cases rest with
    | nil => simp
    | cons c cs => simp [hstop c rfl]
  have hdrop : (Nat.toDigits 10 n ++ rest).dropWhile Char.isDigit = rest := by
    rw [List.dropWhile_append_of_pos hdigits]
    cases rest with
    | nil => simp
    | cons c cs => simp [hstop c rfl]
  simp [readSomeDigits, readDigits, htake, hdrop, Nat.toDigits_ne_nil]

/-- The digits of a number begin with a zero only if there are no others. -/
private theorem length_toDigits_of_head {n : Nat} (h : (Nat.toDigits 10 n).head? = some '0') :
    (Nat.toDigits 10 n).length = 1 := by
  have hzero : n = 0 := by
    induction n using Nat.strongRecOn with
    | _ n ih =>
      by_cases hn : n < 10
      · rw [Nat.toDigits_of_lt_base hn, List.head?_cons, Option.some.injEq] at h
        exact (show ∀ k : Fin 10, k.val.digitChar = '0' → k.val = 0 by decide) ⟨n, hn⟩ h
      · rw [Nat.toDigits_of_base_le (by decide) (by omega), List.head?_append] at h
        -- The first digit is the one of the number without its last digit, which is not zero.
        cases hhead : (Nat.toDigits 10 (n / 10)).head? with
        | none => exact absurd (List.head?_eq_none_iff.1 hhead) Nat.toDigits_ne_nil
        | some c =>
          rw [hhead, Option.some_or] at h
          have hzero := ih (n / 10) (by omega) (hhead.trans h)
          omega
  rw [hzero]
  rfl

private theorem readUnsigned_toDigits (negative : Bool) (n : Nat) {rest : List Char} (h : Ends rest) :
    readUnsigned negative (Nat.toDigits 10 n ++ rest) =
      some (.number ⟨negative, Nat.toDigits 10 n, none, none⟩, rest) := by
  have hzero : ((Nat.toDigits 10 n).head? == some '0' && decide (1 < (Nat.toDigits 10 n).length)) = false := by
    rw [Bool.and_eq_false_iff, beq_eq_false_iff_ne, decide_eq_false_iff_not]
    by_cases hhead : (Nat.toDigits 10 n).head? = some '0'
    · rw [length_toDigits_of_head hhead]
      exact Or.inr (by decide)
    · exact Or.inl hhead
  have hfraction : readFraction rest = some (none, rest) := by
    unfold readFraction
    split
    · exact absurd (h '.' rfl) (by decide)
    · rfl
  have hexponent : readExponent rest = some (none, rest) := by
    unfold readExponent
    split
    · rename_i c rest
      have hmem := h c rfl
      have hc : (c == 'e' || c == 'E') = false := by
        simp only [List.mem_cons, List.not_mem_nil, or_false] at hmem
        rcases hmem with rfl | rfl | rfl <;> decide
      rw [hc]
      rfl
    · rfl
  unfold readUnsigned
  rw [readSomeDigits_toDigits n h]
  simp only [Option.bind_eq_bind, Option.bind_some, hzero, hfraction, hexponent, Bool.false_eq_true, if_false]
  rfl

private theorem ne_of_isDigit {c d : Char} (h : c.isDigit = true) (hd : d.isDigit = false) : c ≠ d := by
  rintro rfl
  rw [h] at hd
  cases hd

private theorem isSpace_of_isDigit {c : Char} (h : c.isDigit = true) : isSpace c = false := by
  have hspace := ne_of_isDigit (d := ' ') h (by decide)
  have hline := ne_of_isDigit (d := '\n') h (by decide)
  have htab := ne_of_isDigit (d := '\t') h (by decide)
  have hreturn := ne_of_isDigit (d := '\r') h (by decide)
  simp [isSpace, hspace, hline, htab, hreturn]

private theorem skipSpace_cons {c : Char} (cs : List Char) (h : isSpace c = false) :
    skipSpace (c :: cs) = c :: cs := by
  simp [skipSpace, h]

private theorem readValue_digit (fuel : Nat) {c : Char} (cs : List Char) (h : c.isDigit = true) :
    readValue (fuel + 1) (c :: cs) = readUnsigned false (c :: cs) := by
  rw [readValue, skipSpace_cons cs (isSpace_of_isDigit h)]
  split
  case h_8 => rfl
  all_goals
    rename_i heq
    rw [List.cons.injEq] at heq
    exact absurd heq.1 (ne_of_isDigit h (by decide))

private theorem exists_toDigits (n : Nat) :
    ∃ c cs, Nat.toDigits 10 n = c :: cs ∧ c.isDigit = true := by
  cases hdigits : Nat.toDigits 10 n with
  | nil => exact absurd hdigits Nat.toDigits_ne_nil
  | cons c cs => exact ⟨c, cs, rfl, isDigit_of_mem (n := n) (by simp [hdigits])⟩

private theorem readValue_printInt (fuel : Nat) (n : Int) {rest : List Char} (h : Ends rest) :
    readValue (fuel + 1) (printInt n ++ rest) = some (ofJson (.int n), rest) := by
  unfold printInt
  by_cases hneg : n < 0
  · rw [if_pos hneg, List.cons_append, readValue, skipSpace_cons _ (by decide)]
    simp [readUnsigned_toDigits true n.natAbs h, ofJson, hneg]
  · rw [if_neg hneg]
    obtain ⟨c, cs, hdigits, hc⟩ := exists_toDigits n.natAbs
    have hread := readUnsigned_toDigits false n.natAbs h
    rw [hdigits, List.cons_append] at hread ⊢
    rw [readValue_digit fuel _ hc, hread]
    simp [ofJson, hneg, hdigits]

/-! ### Values -/

mutual

/-- Whole numbers of 64 bits, texts, truth values and `null`, nested at most as deep as the number says. -/
def Plain : Nat → Json → Prop
  | _, .null => True
  | _, .bool _ => True
  | _, .int n => Word.least ≤ n ∧ n ≤ Word.greatestUnsigned
  | _, .float _ => False
  | _, .string _ => True
  | depth, .array items => depth ≠ 0 ∧ PlainItems (depth - 1) items
  | depth, .object fields => depth ≠ 0 ∧ PlainFields (depth - 1) fields

def PlainItems : Nat → List Json → Prop
  | _, [] => True
  | depth, item :: items => Plain depth item ∧ PlainItems depth items

def PlainFields : Nat → List (String × Json) → Prop
  | _, [] => True
  | depth, (_, value) :: fields => Plain depth value ∧ PlainFields depth fields

end

theorem plainItems_map {α : Type} {depth : Nat} {f : α → Json} {xs : List α}
    (h : ∀ x ∈ xs, Plain depth (f x)) : PlainItems depth (xs.map f) := by
  induction xs with
  | nil => trivial
  | cons x xs ih => exact ⟨h x List.mem_cons_self, ih fun y hy => h y (List.mem_cons_of_mem _ hy)⟩

theorem plainFields_iff {depth : Nat} {fields : List (String × Json)} :
    PlainFields depth fields ↔ ∀ p ∈ fields, Plain depth p.2 := by
  induction fields with
  | nil => simp [PlainFields]
  | cons field fields ih => simp [PlainFields, ih]

/-- A value does not begin with white space, nor with the end of an array. -/
private theorem exists_print {depth : Nat} {v : Json} (h : Plain depth v) :
    ∃ c cs, print v = c :: cs ∧ isSpace c = false ∧ c ≠ ']' := by
  cases v with
  | null => exact ⟨_, _, rfl, by decide, by decide⟩
  | bool b =>
    cases b
    · exact ⟨_, _, rfl, by decide, by decide⟩
    · exact ⟨_, _, rfl, by decide, by decide⟩
  | int n =>
    simp only [print, printInt]
    split
    · exact ⟨_, _, rfl, by decide, by decide⟩
    · obtain ⟨c, cs, hdigits, hc⟩ := exists_toDigits n.natAbs
      exact ⟨c, cs, hdigits, isSpace_of_isDigit hc, ne_of_isDigit hc (by decide)⟩
  | float x => simp [Plain] at h
  | string s => exact ⟨_, _, rfl, by decide, by decide⟩
  | array items => exact ⟨_, _, rfl, by decide, by decide⟩
  | object fields => exact ⟨_, _, rfl, by decide, by decide⟩

private theorem printItems_cons (item : Json) {items : List Json} (h : items ≠ []) :
    printItems (item :: items) = print item ++ ',' :: printItems items := by
  cases items with
  | nil => exact absurd rfl h
  | cons next items => rw [printItems]; simp

private theorem printFields_cons (name : String) (value : Json) {fields : List (String × Json)}
    (h : fields ≠ []) :
    printFields ((name, value) :: fields) =
      printString name ++ ':' :: (print value ++ ',' :: printFields fields) := by
  cases fields with
  | nil => exact absurd rfl h
  | cons next fields => rw [printFields]; simp

private theorem exists_printItems {depth : Nat} {items : List Json} (hne : items ≠ [])
    (h : PlainItems depth items) :
    ∃ c cs, printItems items = c :: cs ∧ isSpace c = false ∧ c ≠ ']' := by
  cases items with
  | nil => exact absurd rfl hne
  | cons item items =>
    simp only [PlainItems] at h
    obtain ⟨c, cs, hprint, hc⟩ := exists_print h.1
    by_cases hitems : items = []
    · subst hitems
      exact ⟨c, cs, hprint, hc⟩
    · exact ⟨c, _, by rw [printItems_cons item hitems, hprint, List.cons_append], hc⟩

private theorem exists_printFields {fields : List (String × Json)} (h : fields ≠ []) :
    ∃ cs, printFields fields = '"' :: cs := by
  cases fields with
  | nil => exact absurd rfl h
  | cons field fields =>
    obtain ⟨name, value⟩ := field
    by_cases hfields : fields = []
    · subst hfields
      exact ⟨_, rfl⟩
    · exact ⟨_, by rw [printFields_cons name value hfields, printString, List.cons_append]⟩

private theorem ends_comma (cs : List Char) : Ends (',' :: cs) := by
  simp [Ends]

private theorem ends_bracket (cs : List Char) : Ends (']' :: cs) := by
  simp [Ends]

private theorem ends_brace (cs : List Char) : Ends ('\x7d' :: cs) := by
  simp [Ends]

/-- An array and an object with something in them. -/
private theorem readValue_array {fuel : Nat} {cs : List Char} {items : List Syntax} {rest : List Char}
    (hhead : ∃ c cs', cs = c :: cs' ∧ isSpace c = false ∧ c ≠ ']')
    (h : readItems fuel cs = some (items, rest)) :
    readValue (fuel + 1) ('[' :: cs) = some (.array items, rest) := by
  obtain ⟨c, cs, rfl, hspace, hc⟩ := hhead
  rw [readValue, skipSpace_cons _ (by decide)]
  simp only [skipSpace_cons _ hspace]
  split
  · rename_i heq
    exact absurd (List.cons.inj heq).1 hc
  · rw [h]
    rfl

private theorem readValue_object {fuel : Nat} {cs : List Char} {members : List (Token × Syntax)}
    {rest : List Char} (h : readMembers fuel ('"' :: cs) = some (members, rest)) :
    readValue (fuel + 1) ('\x7b' :: '"' :: cs) = some (.object members, rest) := by
  rw [readValue, skipSpace_cons _ (by decide)]
  simp only [skipSpace_cons _ (show isSpace '"' = false by decide)]
  split
  · rename_i heq
    cases (List.cons.inj heq).1
  · rw [h]
    rfl

mutual

/-- A value is read back from its text, whatever follows. -/
theorem readValue_print {depth : Nat} (v : Json) (h : Plain depth v) {fuel : Nat} {rest : List Char}
    (hfuel : (print v).length < fuel) (hrest : Ends rest) :
    readValue fuel (print v ++ rest) = some (ofJson v, rest) := by
  obtain ⟨fuel, rfl⟩ := Nat.exists_eq_add_one.2 (Nat.zero_lt_of_lt hfuel)
  cases v with
  | null => simp [print, readValue, skipSpace, isSpace, readWord, ofJson]
  | bool b =>
    cases b
    · simp [print, readValue, skipSpace, isSpace, readWord, ofJson]
    · simp [print, readValue, skipSpace, isSpace, readWord, ofJson]
  | int n => exact readValue_printInt fuel n hrest
  | float x => simp [Plain] at h
  | string s =>
    have hread := readToken_print s rest
    rw [print, printString, List.cons_append, List.append_assoc, readValue, skipSpace_cons _ (by decide)]
    simp [hread, ofJson]
  | array items =>
    simp only [Plain] at h
    simp only [print, List.length_cons, List.length_append, List.length_nil] at hfuel
    -- An empty array ends before any item is read, so it has no items to read back.
    by_cases hitems : items = []
    · subst hitems
      simp [print, printItems, readValue, skipSpace, isSpace, ofJson, ofItems]
    · have hread := readItems_print items hitems h.2 (show _ < fuel by omega) rest
      rw [print, List.cons_append, List.append_assoc, List.singleton_append, ofJson]
      obtain ⟨c, cs, hprint, hspace, hc⟩ := exists_printItems hitems h.2
      exact readValue_array ⟨c, cs ++ ']' :: rest, by rw [hprint, List.cons_append], hspace, hc⟩ hread
  | object fields =>
    simp only [Plain] at h
    simp only [print, List.length_cons, List.length_append, List.length_nil] at hfuel
    by_cases hfields : fields = []
    · subst hfields
      simp [print, printFields, readValue, skipSpace, isSpace, ofJson, ofMembers]
    · have hread := readMembers_print fields hfields h.2 (show _ < fuel by omega) rest
      obtain ⟨cs, hprint⟩ := exists_printFields hfields
      rw [hprint, List.cons_append] at hread
      rw [print, List.cons_append, List.append_assoc, List.singleton_append, ofJson, hprint, List.cons_append]
      exact readValue_object hread

theorem readItems_print {depth : Nat} (items : List Json) (hne : items ≠ []) (h : PlainItems depth items)
    {fuel : Nat} (hfuel : (printItems items).length + 1 < fuel) (rest : List Char) :
    readItems fuel (printItems items ++ ']' :: rest) = some (ofItems items, rest) := by
  obtain ⟨fuel, rfl⟩ := Nat.exists_eq_add_one.2 (Nat.zero_lt_of_lt hfuel)
  cases items with
  | nil => exact absurd rfl hne
  | cons item items =>
    simp only [PlainItems] at h
    by_cases hitems : items = []
    · subst hitems
      rw [printItems] at hfuel ⊢
      have hitem := readValue_print item h.1 (show _ < fuel by omega) (ends_bracket rest)
      rw [readItems, hitem]
      simp [skipSpace_cons _ (show isSpace ']' = false by decide), ofItems]
    · rw [printItems_cons item hitems] at hfuel ⊢
      simp only [List.length_append, List.length_cons] at hfuel
      have hitem := readValue_print item h.1 (show _ < fuel by omega)
        (ends_comma (printItems items ++ ']' :: rest))
      have hitems := readItems_print items hitems h.2 (show _ < fuel by omega) rest
      rw [List.append_assoc, List.cons_append, readItems, hitem]
      simp [skipSpace_cons _ (show isSpace ',' = false by decide), hitems, ofItems]

theorem readMembers_print {depth : Nat} (fields : List (String × Json)) (hne : fields ≠ [])
    (h : PlainFields depth fields) {fuel : Nat} (hfuel : (printFields fields).length + 1 < fuel)
    (rest : List Char) :
    readMembers fuel (printFields fields ++ '\x7d' :: rest) = some (ofMembers fields, rest) := by
  obtain ⟨fuel, rfl⟩ := Nat.exists_eq_add_one.2 (Nat.zero_lt_of_lt hfuel)
  cases fields with
  | nil => exact absurd rfl hne
  | cons field fields =>
    obtain ⟨name, value⟩ := field
    simp only [PlainFields] at h
    by_cases hfields : fields = []
    · subst hfields
      rw [printFields] at hfuel ⊢
      simp only [List.length_append, List.length_cons] at hfuel
      have hname := readToken_print name (':' :: (print value ++ '\x7d' :: rest))
      have hvalue := readValue_print value h.1 (show _ < fuel by omega) (ends_brace rest)
      simp only [printString, List.cons_append, List.append_assoc, List.nil_append]
      rw [readMembers, skipSpace_cons _ (by decide)]
      simp [hname, skipSpace_cons _ (show isSpace ':' = false by decide), hvalue,
        skipSpace_cons _ (show isSpace '\x7d' = false by decide), ofMembers]
    · rw [printFields_cons name value hfields] at hfuel ⊢
      simp only [List.length_append, List.length_cons] at hfuel
      have hname := readToken_print name
        (':' :: (print value ++ ',' :: (printFields fields ++ '\x7d' :: rest)))
      have hvalue := readValue_print value h.1 (show _ < fuel by omega)
        (ends_comma (printFields fields ++ '\x7d' :: rest))
      have hfields := readMembers_print fields hfields h.2 (show _ < fuel by omega) rest
      simp only [printString, List.cons_append, List.append_assoc, List.nil_append]
      rw [readMembers, skipSpace_cons _ (by decide)]
      simp [hname, skipSpace_cons _ (show isSpace ':' = false by decide), hvalue,
        skipSpace_cons _ (show isSpace ',' = false by decide), hfields, ofMembers]

end

/-- The text of a value is read as the value, to the end. -/
theorem parse_text {depth : Nat} {v : Json} (h : Plain depth v) : Syntax.parse v.text = some (ofJson v) := by
  have hread := readValue_print v h (Nat.lt_succ_self (print v).length) (show Ends [] by simp [Ends])
  have hchars : v.text.toList = print v := String.toList_ofList
  rw [List.append_nil] at hread
  rw [Syntax.parse, hchars, hread]
  rfl

/-! ### The value of a text -/

private theorem digitsValue_toDigits (n : Nat) : digitsValue (Nat.toDigits 10 n) = n := by
  have hvalue := Nat.ofDigitChars_ten_toDigits (n := n)
  rw [Nat.ofDigitChars_eq_foldl] at hvalue
  simpa only [digitsValue, Nat.mul_comm 10, show '0'.toNat = 48 from rfl] using hvalue

/-- A whole number of 64 bits is read exactly. -/
theorem toJson?_digits {n : Int} (hleast : Word.least ≤ n) (hgreatest : n ≤ Word.greatestUnsigned) :
    Numeral.toJson? ⟨n < 0, Nat.toDigits 10 n.natAbs, none, none⟩ = some (.int n) := by
  simp only [Word.least] at hleast
  simp only [Word.greatestUnsigned] at hgreatest
  simp only [Numeral.toJson?, digitsValue_toDigits, Option.isNone_none, Bool.and_self, if_true]
  by_cases hneg : n < 0
  · have hrange : (decide (0 < n.natAbs) && decide (n.natAbs ≤ 0x8000000000000000)) = true := by
      rw [Bool.and_eq_true, decide_eq_true_eq, decide_eq_true_eq]
      omega
    have hvalue : -(n.natAbs : Int) = n := by omega
    simp only [hneg, decide_true, if_true, hrange, hvalue]
  · have hrange : n.natAbs < unsignedBound := by
      rw [unsignedBound]
      omega
    have hvalue : (n.natAbs : Int) = n := by omega
    simp only [hneg, decide_false, Bool.false_eq_true, if_false, hrange, if_true, hvalue]

mutual

/-- The value with the fields of its objects in the order of their names. -/
def canonical : Json → Json
  | .array items => .array (canonicalItems items)
  | .object fields => .ofFields (canonicalFields fields)
  | v => v

def canonicalItems : List Json → List Json
  | [] => []
  | item :: items => canonical item :: canonicalItems items

def canonicalFields : List (String × Json) → List (String × Json)
  | [] => []
  | (name, value) :: fields => (name, canonical value) :: canonicalFields fields

end

theorem canonicalItems_map {α : Type} (f : α → Json) (xs : List α) :
    canonicalItems (xs.map f) = xs.map fun x => canonical (f x) := by
  induction xs with
  | nil => rfl
  | cons x xs ih => rw [List.map_cons, canonicalItems, ih, List.map_cons]

mutual

/-- A value that is read from its own text is the same value in canonical form. -/
theorem toJson?_ofJson {depth : Nat} (v : Json) (h : Plain depth v) :
    toJson? depth (ofJson v) = some (canonical v) := by
  cases v with
  | null => rfl
  | bool b => rfl
  | int n => exact toJson?_digits h.1 h.2
  | float x => simp [Plain] at h
  | string s => rfl
  | array items =>
    rw [ofJson, toJson?, if_neg h.1, itemsToJson?_ofItems items h.2]
    rfl
  | object fields =>
    rw [ofJson, toJson?, if_neg h.1, membersToJson?_ofMembers fields h.2]
    rfl

theorem itemsToJson?_ofItems {depth : Nat} (items : List Json) (h : PlainItems depth items) :
    itemsToJson? depth (ofItems items) = some (canonicalItems items) := by
  cases items with
  | nil => rfl
  | cons item items =>
    rw [ofItems, itemsToJson?, toJson?_ofJson item h.1, itemsToJson?_ofItems items h.2]
    rfl

theorem membersToJson?_ofMembers {depth : Nat} (fields : List (String × Json)) (h : PlainFields depth fields) :
    membersToJson? depth (ofMembers fields) = some (canonicalFields fields) := by
  cases fields with
  | nil => rfl
  | cons field fields =>
    obtain ⟨name, value⟩ := field
    rw [ofMembers, membersToJson?, toJson?_ofJson value h.1, membersToJson?_ofMembers fields h.2]
    rfl

end

end IngestionQueue.Json
