import IngestionQueue.Bytes.Base64
import IngestionQueue.Bytes.Utf8

/-!
# Base64 and back

Reading inverts writing, for every byte string and each of the three paddings (`Base64.decode_encode`).  The
reader treats the last quad apart from the others; what it makes of a quad is the same three bytes either way.
The written symbols are all below 128, so the bytes of the written text are the symbols themselves
(`Base64.ofString_encodeText`).
-/

namespace IngestionQueue.Base64

/-! ### Symbols -/

theorem toNat_symbol_lt (n : Nat) : (symbol n).toNat < 128 := by
  unfold symbol
  repeat' split
  all_goals
    rw [UInt8.toNat_ofNat']
    omega

private theorem symbolValue?_symbol_all : ∀ n : Fin 64, symbolValue? (symbol n) = some n.val := by
  decide

theorem symbolValue?_symbol {n : Nat} (h : n < 64) : symbolValue? (symbol n) = some n :=
  symbolValue?_symbol_all ⟨n, h⟩

private theorem symbol_ne_padding_all : ∀ n : Fin 64, symbol n ≠ padding := by
  decide

theorem symbol_ne_padding {n : Nat} (h : n < 64) : symbol n ≠ padding :=
  symbol_ne_padding_all ⟨n, h⟩

/-! ### The text of symbols -/

private theorem toNat_lt_of_mem_encode {b : UInt8} (bytes : Bytes) (h : b ∈ encode bytes) : b.toNat < 128 := by
  induction bytes using encode.induct with
  | case1 => simp [encode] at h
  | case2 a =>
    simp only [encode, List.mem_cons, List.not_mem_nil, or_false] at h
    rcases h with rfl | rfl | rfl | rfl
    · exact toNat_symbol_lt _
    · exact toNat_symbol_lt _
    · decide
    · decide
  | case3 a b =>
    simp only [encode, List.mem_cons, List.not_mem_nil, or_false] at h
    rcases h with rfl | rfl | rfl | rfl
    · exact toNat_symbol_lt _
    · exact toNat_symbol_lt _
    · exact toNat_symbol_lt _
    · decide
  | case4 a b c rest ih =>
    simp only [encode, List.mem_cons] at h
    rcases h with rfl | rfl | rfl | rfl | h
    · exact toNat_symbol_lt _
    · exact toNat_symbol_lt _
    · exact toNat_symbol_lt _
    · exact toNat_symbol_lt _
    · exact ih h

private theorem encodeChar_ofNat {b : UInt8} (h : b.toNat < 128) :
    Utf8.encodeChar (Char.ofNat b.toNat) = [b] := by
  have hvalid : b.toNat.isValidChar := Or.inl (by omega)
  have hnat : (Char.ofNat b.toNat).toNat = b.toNat := by
    rw [Char.ofNat, dif_pos hvalid]
    rfl
  simp only [Utf8.encodeChar, hnat]
  rw [if_pos h]
  simp

theorem ofString_encodeText (bytes : Bytes) : Utf8.ofString (encodeText bytes) = encode bytes := by
  have hchars : ∀ symbols : Bytes, (∀ b ∈ symbols, b.toNat < 128) →
      Utf8.encode (symbols.map fun b => Char.ofNat b.toNat) = symbols := by
    intro symbols hsymbols
    induction symbols with
    | nil => rfl
    | cons b symbols ih =>
      have hhead := encodeChar_ofNat (hsymbols b List.mem_cons_self)
      have htail := ih fun b hb => hsymbols b (List.mem_cons_of_mem _ hb)
      simp only [Utf8.encode, List.map_cons, List.flatMap_cons, hhead] at htail ⊢
      rw [htail]
      rfl
  rw [Utf8.ofString, encodeText, String.toList_ofList]
  exact hchars _ fun b hb => toNat_lt_of_mem_encode bytes hb

/-! ### Reading -/

/-- The symbols come in quads. -/
theorem length_encode (bytes : Bytes) : (encode bytes).length = (bytes.length + 2) / 3 * 4 := by
  induction bytes using encode.induct with
  | case1 => rfl
  | case2 a => simp [encode]
  | case3 a b => simp [encode]
  | case4 a b c rest ih =>
    simp only [encode, List.length_cons, ih]
    omega

/-- A symbol of the last quad adds its value to those seen. -/
private theorem readTail_symbol (offset index firstPad : Nat) (values : List Nat) (last : UInt8) {n : Nat}
    (h : n < 64) (rest : Bytes) :
    readTail offset index firstPad ⟨values, last, 0⟩ (symbol n :: rest) =
      readTail offset (index + 1) firstPad ⟨values ++ [n], symbol n, 0⟩ rest := by
  have hsymbol : (symbol n == padding) = false := by simpa using symbol_ne_padding h
  simp [readTail, hsymbol, symbolValue?_symbol h]

private theorem readTail_one (offset : Nat) {v w : Nat} (hv : v < 64) (hw : w < 64) :
    readTail offset 0 0 ⟨[], 0, 0⟩ [symbol v, symbol w, padding, padding] = .ok ⟨[v, w], symbol w, 2⟩ := by
  rw [readTail_symbol offset 0 0 [] 0 hv, readTail_symbol offset 1 0 _ _ hw]
  simp [readTail]

private theorem readTail_two (offset : Nat) {v w x : Nat} (hv : v < 64) (hw : w < 64) (hx : x < 64) :
    readTail offset 0 0 ⟨[], 0, 0⟩ [symbol v, symbol w, symbol x, padding] =
      .ok ⟨[v, w, x], symbol x, 1⟩ := by
  rw [readTail_symbol offset 0 0 [] 0 hv, readTail_symbol offset 1 0 _ _ hw,
    readTail_symbol offset 2 0 _ _ hx]
  simp [readTail]

private theorem readTail_three (offset : Nat) {v w x y : Nat} (hv : v < 64) (hw : w < 64) (hx : x < 64)
    (hy : y < 64) :
    readTail offset 0 0 ⟨[], 0, 0⟩ [symbol v, symbol w, symbol x, symbol y] =
      .ok ⟨[v, w, x, y], symbol y, 0⟩ := by
  rw [readTail_symbol offset 0 0 [] 0 hv, readTail_symbol offset 1 0 _ _ hw,
    readTail_symbol offset 2 0 _ _ hx, readTail_symbol offset 3 0 _ _ hy]
  simp [readTail]

private theorem ofNat_eq {n : Nat} {b : UInt8} (h : n % 256 = b.toNat) : UInt8.ofNat n = b := by
  apply UInt8.toNat.inj
  rw [UInt8.toNat_ofNat', h]

/-- What the last quad holds, by the number of its bytes. -/
private theorem finish_one (offset length : Nat) (a last : UInt8) :
    finish offset length ⟨[a.toNat / 4, a.toNat % 4 * 16], last, 2⟩ = .ok [a] := by
  have ha := a.toNat_lt
  have hbits : a.toNat / 4 * 64 + a.toNat % 4 * 16 = a.toNat * 16 := by omega
  have hspare : a.toNat * 16 % Nat.pow 2 4 = 0 := Nat.mul_mod_left _ _
  have hbyte : UInt8.ofNat (a.toNat * 16 / Nat.pow 2 4) = a := ofNat_eq (by
    rw [show a.toNat * 16 / Nat.pow 2 4 = a.toNat from Nat.mul_div_cancel _ (by decide)]
    omega)
  simp [finish, hbits, hspare, List.range_succ]

private theorem finish_two (offset length : Nat) (a b last : UInt8) :
    finish offset length ⟨[a.toNat / 4, a.toNat % 4 * 16 + b.toNat / 16, b.toNat % 16 * 4], last, 1⟩ =
      .ok [a, b] := by
  have ha := a.toNat_lt
  have hb := b.toNat_lt
  have hbits : (a.toNat / 4 * 64 + (a.toNat % 4 * 16 + b.toNat / 16)) * 64 + b.toNat % 16 * 4 =
      (a.toNat * 256 + b.toNat) * 4 := by omega
  have hspare : (a.toNat * 256 + b.toNat) * 4 % Nat.pow 2 2 = 0 := Nat.mul_mod_left _ _
  have hfirst : UInt8.ofNat ((a.toNat * 256 + b.toNat) * 4 / Nat.pow 2 10) = a := ofNat_eq (by
    rw [show Nat.pow 2 10 = 1024 from rfl]
    omega)
  have hsecond : UInt8.ofNat ((a.toNat * 256 + b.toNat) * 4 / Nat.pow 2 2) = b := ofNat_eq (by
    rw [show Nat.pow 2 2 = 4 from rfl]
    omega)
  simp [finish, hbits, hspare, hfirst, List.range_succ]

private theorem finish_three (offset length : Nat) (a b c last : UInt8) :
    finish offset length ⟨[a.toNat / 4, a.toNat % 4 * 16 + b.toNat / 16, b.toNat % 16 * 4 + c.toNat / 64,
      c.toNat % 64], last, 0⟩ = .ok [a, b, c] := by
  have ha := a.toNat_lt
  have hb := b.toNat_lt
  have hc := c.toNat_lt
  have hbits : ((a.toNat / 4 * 64 + (a.toNat % 4 * 16 + b.toNat / 16)) * 64 +
      (b.toNat % 16 * 4 + c.toNat / 64)) * 64 + c.toNat % 64 =
        a.toNat * 65536 + b.toNat * 256 + c.toNat := by omega
  have hfirst : UInt8.ofNat ((a.toNat * 65536 + b.toNat * 256 + c.toNat) / Nat.pow 2 16) = a := ofNat_eq (by
    rw [show Nat.pow 2 16 = 65536 from rfl]
    omega)
  have hsecond : UInt8.ofNat ((a.toNat * 65536 + b.toNat * 256 + c.toNat) / Nat.pow 2 8) = b := ofNat_eq (by
    rw [show Nat.pow 2 8 = 256 from rfl]
    omega)
  have hthird : UInt8.ofNat ((a.toNat * 65536 + b.toNat * 256 + c.toNat) / Nat.pow 2 0) = c := ofNat_eq (by
    rw [show Nat.pow 2 0 = 1 from rfl]
    omega)
  simp [finish, hbits, hfirst, hsecond, Nat.mod_one, List.range_succ]

private theorem readQuads_zero (length offset : Nat) {bytes : Bytes} {tail : Tail}
    (h : readTail offset 0 0 ⟨[], 0, 0⟩ bytes = .ok tail) :
    readQuads length 0 offset bytes = finish offset length tail := by
  rw [readQuads]
  · rw [h]
    rfl
  · intro _ _ _ _ _ _ hzero
    cases hzero

/-- All quads but the last one are whole. -/
private theorem readQuads_encode (length offset : Nat) (bytes : Bytes) (h : bytes ≠ []) :
    readQuads length ((bytes.length + 2) / 3 - 1) offset (encode bytes) = .ok bytes := by
  induction bytes using encode.induct generalizing offset with
  | case1 => exact absurd rfl h
  | case2 a =>
    have ha := a.toNat_lt
    have htail := readTail_one offset (show a.toNat / 4 < 64 by omega) (show a.toNat % 4 * 16 < 64 by omega)
    have hquads : ([a].length + 2) / 3 - 1 = 0 := by simp
    rw [hquads, encode]
    exact (readQuads_zero length offset htail).trans (finish_one offset length a _)
  | case3 a b =>
    have ha := a.toNat_lt
    have hb := b.toNat_lt
    have htail := readTail_two offset (show a.toNat / 4 < 64 by omega)
      (show a.toNat % 4 * 16 + b.toNat / 16 < 64 by omega) (show b.toNat % 16 * 4 < 64 by omega)
    have hquads : ([a, b].length + 2) / 3 - 1 = 0 := by simp
    rw [hquads, encode]
    exact (readQuads_zero length offset htail).trans (finish_two offset length a b _)
  | case4 a b c rest ih =>
    have ha := a.toNat_lt
    have hb := b.toNat_lt
    have hc := c.toNat_lt
    have hv : a.toNat / 4 < 64 := by omega
    have hw : a.toNat % 4 * 16 + b.toNat / 16 < 64 := by omega
    have hx : b.toNat % 16 * 4 + c.toNat / 64 < 64 := by omega
    have hy : c.toNat % 64 < 64 := by omega
    -- Three bytes with nothing after them are the last quad, which is read apart.
    by_cases hrest : rest = []
    · subst hrest
      have htail := readTail_three offset hv hw hx hy
      have hquads : ([a, b, c].length + 2) / 3 - 1 = 0 := by simp
      rw [hquads, encode, encode]
      exact (readQuads_zero length offset htail).trans (finish_three offset length a b c _)
    · have hpos := List.length_pos_iff.2 hrest
      have hquads : ((a :: b :: c :: rest).length + 2) / 3 - 1 = (rest.length + 2) / 3 - 1 + 1 := by
        simp only [List.length_cons]
        omega
      rw [hquads]
      simp only [encode, readQuads, symbolValue?_symbol hv, symbolValue?_symbol hw, symbolValue?_symbol hx,
        symbolValue?_symbol hy, ih (offset + 4) hrest]
      have hfirst : UInt8.ofNat (a.toNat / 4 * 4 + (a.toNat % 4 * 16 + b.toNat / 16) / 16) = a :=
        ofNat_eq (by omega)
      have hsecond : UInt8.ofNat ((a.toNat % 4 * 16 + b.toNat / 16) % 16 * 16 +
          (b.toNat % 16 * 4 + c.toNat / 64) / 4) = b := ofNat_eq (by omega)
      have hthird : UInt8.ofNat ((b.toNat % 16 * 4 + c.toNat / 64) % 4 * 64 + c.toNat % 64) = c :=
        ofNat_eq (by omega)
      rw [hfirst, hsecond, hthird]
      rfl

/-- What is written is read back, whatever the bytes. -/
theorem decode_encode (bytes : Bytes) : decode (encode bytes) = .ok bytes := by
  rcases bytes.eq_nil_or_concat with rfl | ⟨_, _, hbytes⟩
  · rfl
  · have hne : bytes ≠ [] := by simp [hbytes]
    have hlength := length_encode bytes
    have hpos := List.length_pos_iff.2 hne
    have hsome : encode bytes ≠ [] := by
      intro hnil
      rw [hnil, List.length_nil] at hlength
      omega
    have hrem : (encode bytes).length % 4 = 0 := by omega
    have hquads : ((encode bytes).length - 0 - 4) / 4 = (bytes.length + 2) / 3 - 1 := by omega
    simp only [decode, List.getLast?_eq_some_getLast hsome, hrem]
    simp only [Nat.reduceBEq, Bool.false_and, Bool.false_eq_true, if_false, if_true, hquads, BEq.rfl]
    exact readQuads_encode _ 0 bytes hne

end IngestionQueue.Base64
