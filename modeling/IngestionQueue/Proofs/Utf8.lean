import IngestionQueue.Bytes.Utf8

/-!
# Texts and their bytes

Every character is read back from its bytes, whatever follows them (`Utf8.decodeFrom_encodeChar`).  So a text
is read back from its bytes (`Utf8.decode_encode`), and no two texts have the same bytes
(`Utf8.ofString_injective`).
-/

namespace IngestionQueue.Utf8

/-! ### Single bytes -/

theorem toNat_ofNat {n : Nat} (h : n < 256) : (UInt8.ofNat n).toNat = n := by
  rw [UInt8.toNat_ofNat']
  omega

theorem lead_one {n : Nat} (h : n < 0x80) : lead (UInt8.ofNat n) = .single (Char.ofNat n) := by
  simp only [lead, toNat_ofNat (show n < 256 by omega), h, if_true]

theorem lead_two {n : Nat} (hlow : 0xC2 ≤ n) (hhigh : n < 0xE0) :
    lead (UInt8.ofNat n) = .sequence ⟨n - 0xC0, 1, 0x80, 0xBF⟩ := by
  have hone : ¬n < 0x80 := by omega
  have hill : ¬n < 0xC2 := by omega
  simp only [lead, toNat_ofNat (show n < 256 by omega), hone, hill, hhigh, if_true, if_false]

/-- The bytes that begin three are followed by any continuation byte, but for the first and the one before the
surrogates. -/
theorem lead_three {n : Nat} (hlow : 0xE0 ≤ n) (hhigh : n < 0xF0) :
    lead (UInt8.ofNat n) = .sequence
      ⟨n - 0xE0, 2, if n = 0xE0 then 0xA0 else 0x80, if n = 0xED then 0x9F else 0xBF⟩ := by
  have hone : ¬n < 0x80 := by omega
  have hill : ¬n < 0xC2 := by omega
  have htwo : ¬n < 0xE0 := by omega
  simp only [lead, toNat_ofNat (show n < 256 by omega), hone, hill, htwo, hhigh, if_true, if_false, beq_iff_eq]
  by_cases hfirst : n = 0xE0
  · simp [hfirst]
  · by_cases hsurrogates : n = 0xED
    · simp [hsurrogates]
    · simp [hfirst, hsurrogates]

/-- The bytes that begin four are followed by any continuation byte, but for the first and the last one. -/
theorem lead_four {n : Nat} (hlow : 0xF0 ≤ n) (hhigh : n < 0xF5) :
    lead (UInt8.ofNat n) = .sequence
      ⟨n - 0xF0, 3, if n = 0xF0 then 0x90 else 0x80, if n = 0xF4 then 0x8F else 0xBF⟩ := by
  have hone : ¬n < 0x80 := by omega
  have hill : ¬n < 0xC2 := by omega
  have htwo : ¬n < 0xE0 := by omega
  have hfirst : n ≠ 0xE0 := by omega
  have hsurrogates : n ≠ 0xED := by omega
  have hthree : ¬n < 0xF0 := by omega
  simp only [lead, toNat_ofNat (show n < 256 by omega), hone, hill, htwo, hfirst, hsurrogates, hthree, if_false,
    beq_iff_eq]
  by_cases hleast : n = 0xF0
  · simp [hleast]
  · by_cases hlast : n = 0xF4
    · simp [hlast]
    · have hbelow : n < 0xF4 := by omega
      simp [hleast, hlast, hbelow]

theorem lead_illFormed {n : Nat} (hlow : 0x80 ≤ n) (hhigh : n < 256) (h : n < 0xC2 ∨ 0xF5 ≤ n) :
    lead (UInt8.ofNat n) = .illFormed := by
  have hone : ¬n < 0x80 := by omega
  simp only [lead, toNat_ofNat hhigh, hone, if_false, beq_iff_eq]
  rcases h with h | h
  · simp only [h, if_true]
  · have hill : ¬n < 0xC2 := by omega
    have htwo : ¬n < 0xE0 := by omega
    have hfirst : n ≠ 0xE0 := by omega
    have hsurrogates : n ≠ 0xED := by omega
    have hthree : ¬n < 0xF0 := by omega
    have hleast : n ≠ 0xF0 := by omega
    have hfour : ¬n < 0xF4 := by omega
    have hlast : n ≠ 0xF4 := by omega
    simp only [hill, htwo, hfirst, hsurrogates, hthree, hleast, hfour, hlast, if_false]

/-! ### Reading a character -/

private theorem decodeFrom_single (mark : List Char) {b : UInt8} {c : Char} (rest : Bytes)
    (h : lead b = .single c) : decodeFrom mark none (b :: rest) = c :: decodeFrom mark none rest := by
  simp [decodeFrom, step, start, h]

private theorem decodeFrom_sequence (mark : List Char) {b : UInt8} {p : Pending} (rest : Bytes)
    (h : lead b = .sequence p) : decodeFrom mark none (b :: rest) = decodeFrom mark (some p) rest := by
  simp [decodeFrom, step, start, h]

private theorem step_within (mark : List Char) {n bits missing low high : Nat} (hlow : low ≤ 0x80 + n)
    (hhigh : 0x80 + n ≤ high) (hbyte : n < 0x40) :
    step mark (some ⟨bits, missing, low, high⟩) (UInt8.ofNat (0x80 + n)) =
      if missing ≤ 1 then (none, [Char.ofNat (bits * 0x40 + n)])
      else (some ⟨bits * 0x40 + n, missing - 1, 0x80, 0xBF⟩, []) := by
  have hvalue : 0x80 + n - 0x80 = n := by omega
  simp only [step, toNat_ofNat (show 0x80 + n < 256 by omega), hlow, hhigh, hvalue, decide_true, Bool.and_self,
    if_true]

private theorem decodeFrom_next (mark : List Char) {n bits missing low high : Nat} (rest : Bytes)
    (hlow : low ≤ 0x80 + n) (hhigh : 0x80 + n ≤ high) (hbyte : n < 0x40) (hmissing : 2 ≤ missing) :
    decodeFrom mark (some ⟨bits, missing, low, high⟩) (UInt8.ofNat (0x80 + n) :: rest) =
      decodeFrom mark (some ⟨bits * 0x40 + n, missing - 1, 0x80, 0xBF⟩) rest := by
  have hmore : ¬missing ≤ 1 := by omega
  simp only [decodeFrom, step_within mark hlow hhigh hbyte, hmore, if_false, List.nil_append]

private theorem decodeFrom_last (mark : List Char) {n bits low high : Nat} (rest : Bytes)
    (hlow : low ≤ 0x80 + n) (hhigh : 0x80 + n ≤ high) (hbyte : n < 0x40) :
    decodeFrom mark (some ⟨bits, 1, low, high⟩) (UInt8.ofNat (0x80 + n) :: rest) =
      Char.ofNat (bits * 0x40 + n) :: decodeFrom mark none rest := by
  simp only [decodeFrom, step_within mark hlow hhigh hbyte, Nat.le_refl, if_true, List.cons_append,
    List.nil_append]

/-- The number of a character is in range, and it is no surrogate. -/
theorem toNat_range (c : Char) : c.toNat < 0xD800 ∨ 0xDFFF < c.toNat ∧ c.toNat < 0x110000 :=
  c.valid

/-- A character is read from its bytes, and reading goes on behind them. -/
theorem decodeFrom_encodeChar (mark : List Char) (c : Char) (rest : Bytes) :
    decodeFrom mark none (encodeChar c ++ rest) = c :: decodeFrom mark none rest := by
  have hrange := toNat_range c
  have hchar : ∀ n, n = c.toNat → Char.ofNat n = c := by
    rintro n rfl
    exact Char.ofNat_toNat c
  unfold encodeChar
  generalize c.toNat = n at hrange hchar
  by_cases hone : n < 0x80
  · simp only [hone, if_true, List.cons_append, List.nil_append]
    rw [decodeFrom_single mark rest (lead_one hone), hchar n rfl]
  by_cases htwo : n < 0x800
  · simp only [hone, htwo, if_true, if_false, List.cons_append, List.nil_append]
    rw [decodeFrom_sequence mark _ (lead_two (by omega) (by omega)),
      decodeFrom_last mark rest (by omega) (by omega) (by omega), hchar _ (by omega)]
  by_cases hthree : n < 0x10000
  · simp only [hone, htwo, hthree, if_true, if_false, List.cons_append, List.nil_append]
    rw [decodeFrom_sequence mark _ (lead_three (by omega) (by omega)),
      decodeFrom_next mark _ (by split <;> omega) (by split <;> omega) (by omega) (by omega),
      decodeFrom_last mark rest (by omega) (by omega) (by omega), hchar _ (by omega)]
  · simp only [hone, htwo, hthree, if_false, List.cons_append, List.nil_append]
    rw [decodeFrom_sequence mark _ (lead_four (by omega) (by omega)),
      decodeFrom_next mark _ (by split <;> omega) (by split <;> omega) (by omega) (by omega),
      decodeFrom_next mark _ (by omega) (by omega) (by omega) (by omega),
      decodeFrom_last mark rest (by omega) (by omega) (by omega), hchar _ (by omega)]

/-! ### Texts -/

theorem decode_encode (cs : List Char) : decode (encode cs) = cs := by
  induction cs with
  | nil => rfl
  | cons c cs ih =>
    have hcons : encode (c :: cs) = encodeChar c ++ encode cs := List.flatMap_cons
    rw [decode, hcons, decodeFrom_encodeChar]
    exact congrArg (c :: ·) ih

/-- Different texts have different bytes. -/
theorem ofString_injective : Function.Injective ofString := by
  intro s t h
  have hchars := congrArg decode h
  simp only [ofString, decode_encode] at hchars
  exact String.toList_inj.1 hchars

end IngestionQueue.Utf8
