import IngestionQueue.Proofs.Chunk
import Mathlib.Algebra.Order.Floor.Div
import Mathlib.Data.List.Range

/-!
# What the overlap is for

With an overlap that is shorter than a chunk, the windows begin at the multiples of the difference of the two
(`Chunk.windows_eq_map`).  A phrase that is at most one character longer than the overlap lies in one of them: where
it does not end within a window, it begins within the next one (`Chunk.exists_window_of_phrase`).  So the phrase
stands unbroken in a chunk, if it begins and ends visibly.  The main result is `ChunkConfig.phrases`.
-/

namespace IngestionQueue

namespace Chunk

open List (range)

variable {size overlap length start : Nat} {cs : List Char} {w : Window}

/-! ### Where the windows begin -/

private theorem ceilDiv_next {m step : Nat} (hstep : 0 < step) (hm : 0 < m) :
    m ⌈/⌉ step = (m - step) ⌈/⌉ step + 1 := by
  simp only [Nat.ceilDiv_eq_add_pred_div]
  by_cases hle : step ≤ m
  · rw [← Nat.add_div_right _ hstep]
    congr 1
    omega
  · rw [Nat.div_eq_of_lt (show m - step + step - 1 < step by omega)]
    exact Nat.div_eq_of_lt_le (by omega) (by omega)

theorem windowsFrom_eq_map (hoverlap : overlap < size) (hstart : start < length) :
    windowsFrom size overlap length start =
      (range (1 + (length - start - size) ⌈/⌉ (size - overlap))).map fun i =>
        ⟨start + i * (size - overlap), min (start + i * (size - overlap) + size) length⟩ := by
  induction start using windowsFrom.induct size overlap length with
  | case1 start stop hend =>
    have hlast : length ≤ start + size := by omega
    have hcount : length - start - size = 0 := by omega
    rw [windowsFrom_last hlast, hcount, zero_ceilDiv]
    simp [Nat.min_eq_right hlast]
  | case2 start stop hend ih =>
    have hstop : stop = start + size := by omega
    have hmore : start + size < length := by omega
    have hnext : max (start + size - overlap) (start + 1) = start + (size - overlap) := by omega
    have hcount : (length - start - size) ⌈/⌉ (size - overlap) =
        (length - (start + (size - overlap)) - size) ⌈/⌉ (size - overlap) + 1 := by
      rw [ceilDiv_next (by omega) (by omega)]
      congr 2
      omega
    rw [hstop, hnext] at ih
    rw [windowsFrom_next hmore, hnext, ih (by omega), hcount, ← Nat.add_assoc, List.range_succ_eq_map]
    simp only [List.map_cons, List.map_map, Nat.zero_mul, Nat.add_zero, Nat.min_eq_left (Nat.le_of_lt hmore)]
    congr 1
    refine List.map_congr_left fun i _ => ?_
    simp [Nat.succ_mul, Nat.add_assoc, Nat.add_comm (size - overlap)]

/-- The windows over a text begin at the multiples of what a chunk is longer than the overlap. -/
theorem windows_eq_map (hoverlap : overlap < size) (hlength : 0 < length) :
    windows size overlap length =
      (range (1 + (length - size) ⌈/⌉ (size - overlap))).map fun i =>
        ⟨i * (size - overlap), min (i * (size - overlap) + size) length⟩ := by
  rw [windows_eq_windowsFrom (by omega) hlength, windowsFrom_eq_map hoverlap hlength]
  simp

theorem start_of_first (hw : w ∈ (windows size overlap length).head?) : w.start = 0 := by
  by_cases hnone : (length = 0 || size = 0) = true
  · rw [windows, if_pos hnone] at hw
    cases hw
  · simp only [Bool.or_eq_true, decide_eq_true_eq, not_or] at hnone
    have hfirst := (covers_windows overlap (Nat.pos_of_ne_zero hnone.2) (Nat.pos_of_ne_zero hnone.1)).first
    rw [hfirst, Option.mem_some_iff] at hw
    exact hw ▸ rfl

/-- A window begins at the same distance from the one before it. -/
theorem isChain_windows (hoverlap : overlap < size) :
    (windows size overlap length).IsChain fun v w => w.start = v.start + (size - overlap) := by
  by_cases hlength : 0 < length
  · rw [windows_eq_map hoverlap hlength, List.isChain_map, List.isChain_range]
    intro i _
    exact Nat.succ_mul i (size - overlap)
  · have hnone : windows size overlap length = [] := by simp [windows, Nat.eq_zero_of_not_pos hlength]
    rw [hnone]
    exact .nil

theorem length_windows (hoverlap : overlap < size) (hlength : 0 < length) :
    (windows size overlap length).length = 1 + (length - size) ⌈/⌉ (size - overlap) := by
  rw [windows_eq_map hoverlap hlength, List.length_map, List.length_range]

/-! ### Phrases -/

/-- A phrase that does not end within a window begins in the part of it that the next window repeats. -/
private theorem next_start_le {p count : Nat} (hoverlap : overlap < size) (hcount : count ≤ overlap + 1)
    (hends : start + size < p + count) : max (start + size - overlap) (start + 1) ≤ p := by
  omega

private theorem exists_windowFrom_of_phrase (hoverlap : overlap < size) {p count : Nat} (hstart : start ≤ p)
    (hphrase : p + count ≤ length) (hcount : count ≤ overlap + 1) :
    ∃ w ∈ windowsFrom size overlap length start, w.start ≤ p ∧ p + count ≤ w.stop := by
  induction start using windowsFrom.induct size overlap length with
  | case1 start stop hend =>
    rw [windowsFrom_last (by omega)]
    exact ⟨_, List.mem_singleton_self _, hstart, hphrase⟩
  | case2 start stop hend ih =>
    obtain ⟨hmore, hstop⟩ : start + size < length ∧ stop = start + size := by
      clear ih
      omega
    rw [hstop] at ih
    rw [windowsFrom_next hmore]
    by_cases hends : p + count ≤ start + size
    · exact ⟨_, List.mem_cons_self, hstart, hends⟩
    · have hbegins := next_start_le hoverlap hcount (Nat.lt_of_not_le hends)
      obtain ⟨w, hw, hwithin⟩ := ih hbegins
      exact ⟨w, List.mem_cons_of_mem _ hw, hwithin⟩

/-- A phrase that is at most one character longer than the overlap lies in one window. -/
theorem exists_window_of_phrase (hoverlap : overlap < size) {p count : Nat} (hlength : 0 < length)
    (hphrase : p + count ≤ length) (hcount : count ≤ overlap + 1) :
    ∃ w ∈ windows size overlap length, w.start ≤ p ∧ p + count ≤ w.stop := by
  rw [windows_eq_windowsFrom (by omega) hlength]
  exact exists_windowFrom_of_phrase hoverlap (Nat.zero_le p) hphrase hcount

/-- What lies within a window is a piece of its content. -/
theorem slice_infix {v : Window} (hstart : w.start ≤ v.start) (hstop : v.stop ≤ w.stop) :
    v.slice cs <:+: w.slice cs := by
  have hpiece : v.slice cs = ((w.slice cs).drop (v.start - w.start)).take (v.stop - v.start) := by
    rw [Window.slice, Window.slice, List.drop_take, List.drop_drop, Nat.add_sub_cancel' hstart, List.take_take]
    congr 1
    omega
  rw [hpiece]
  exact (List.take_prefix ..).isInfix.trans (List.drop_suffix ..).isInfix

/-- A phrase of a text that begins and ends visibly still stands in the text when that is trimmed. -/
private theorem exists_place {text before phrase after : List Char} (htext : text = before ++ phrase ++ after)
    (hne : phrase ≠ []) (hvisible : Text.Trimmed phrase) :
    ∃ p, p + phrase.length ≤ (Text.trimChars text).length ∧
      Window.slice ⟨p, p + phrase.length⟩ (Text.trimChars text) = phrase := by
  have hpos := List.length_pos_iff.2 hne
  have hfirst : text[before.length]? = some (phrase.head hne) := by
    rw [htext, List.append_assoc, List.getElem?_append_right (Nat.le_refl _), Nat.sub_self,
      List.getElem?_append_left hpos, ← List.head?_eq_getElem?, List.head?_eq_some_head]
  have hlast : text[before.length + (phrase.length - 1)]? = some (phrase.getLast hne) := by
    rw [htext, List.append_assoc, List.getElem?_append_right (by omega), Nat.add_sub_cancel_left,
      List.getElem?_append_left (by omega), ← List.getLast?_eq_getElem?, List.getLast?_eq_some_getLast]
  have hlow := (Text.bounds_of_visible hfirst (hvisible.1 _ (by simp [List.head?_eq_some_head hne]))).1
  have hhigh := (Text.bounds_of_visible hlast (hvisible.2 _ (by simp [List.getLast?_eq_some_getLast hne]))).2
  refine ⟨before.length - (Text.leading text).length, by omega, ?_⟩
  -- The place in the trimmed text is the place in the text, but for what was taken off the beginning.
  have hslice := slice_append before phrase after
  rw [← htext, Window.slice] at hslice
  simp only [Window.slice, Nat.add_sub_cancel_left] at hslice ⊢
  conv at hslice => lhs; rw [← Text.append_trimChars text]
  rw [List.append_assoc, List.drop_append, List.drop_eq_nil_of_le hlow, List.nil_append, List.drop_append_of_le_length
    (by omega), List.take_append_of_le_length (by simp; omega)] at hslice
  exact hslice

end Chunk

namespace ChunkConfig

theorem check_eq_ok {chunkSize overlap : Nat} {c : ChunkConfig} (h : check chunkSize overlap = .ok c) :
    c = ⟨chunkSize, overlap⟩ ∧ overlap < chunkSize := by
  unfold check at h
  split at h
  · cases h
  · exact ⟨(Except.ok.inj h).symm, by omega⟩

/-- A phrase that begins and ends visibly and is at most one character longer than the overlap stands unbroken in a
chunk. -/
theorem exists_chunk_of_phrase {c : ChunkConfig} (hoverlap : c.overlap < c.chunkSize) {text : String}
    {before phrase after : List Char} (htext : text.toList = before ++ phrase ++ after) (hne : phrase ≠ [])
    (hvisible : Text.Trimmed phrase) (hcount : phrase.length ≤ c.overlap + 1) :
    ∃ chunk ∈ c.chunk text, phrase <:+: chunk.toList := by
  obtain ⟨p, hend, hslice⟩ := Chunk.exists_place htext hne hvisible
  have hpos := List.length_pos_iff.2 hne
  obtain ⟨w, hw, hstart, hstop⟩ := Chunk.exists_window_of_phrase hoverlap (by omega) hend hcount
  have hfirst : (Text.trimChars text.toList)[p]? = some (phrase.head hne) := by
    rw [← Nat.add_zero p, ← Chunk.getElem?_slice (w := ⟨p, p + phrase.length⟩) (by simpa using hpos), hslice,
      ← List.head?_eq_getElem?, List.head?_eq_some_head]
  have hlast : (Text.trimChars text.toList)[p + (phrase.length - 1)]? = some (phrase.getLast hne) := by
    rw [← Chunk.getElem?_slice (w := ⟨p, p + phrase.length⟩) (by simp; omega), hslice,
      ← List.getLast?_eq_getElem?, List.getLast?_eq_some_getLast]
  -- The first and the last character of the phrase are visible, so trimming the window leaves the phrase in it.
  obtain ⟨u, hu, hbegin, hfinish⟩ := Chunk.exists_span_of_window hw hstart (by omega) (by omega) hfirst
    (hvisible.1 _ (List.head?_eq_some_head hne)) hlast (hvisible.2 _ (List.getLast?_eq_some_getLast hne))
  refine ⟨String.ofList (u.slice (Text.trimChars text.toList)), ?_, ?_⟩
  · rw [chunk, Chunk.chunkText_eq_spans]
    exact List.mem_map_of_mem hu
  · rw [String.toList_ofList, ← hslice]
    exact Chunk.slice_infix hbegin (by simp only; omega)

/-- For every configuration that passes its check and every text, the windows begin at the same distance from one
another, which is what a chunk is longer than the overlap; a text that fits in one chunk has one window, and a longer
one has one more for each such distance, or part of it, that the rest of the text is long.  The chunks are the
contents of the windows, trimmed, and a phrase that begins and ends visibly and is at most one character longer than
the overlap stands unbroken in one of them. -/
theorem phrases {chunkSize overlap : Nat} {c : ChunkConfig} (h : check chunkSize overlap = .ok c) (text : String) :
    let cs := Text.trimChars text.toList
    let ws := Chunk.windows chunkSize overlap cs.length
    (∀ w ∈ ws.head?, w.start = 0) ∧ (ws.IsChain fun v w => w.start = v.start + (chunkSize - overlap)) ∧
    (1 ≤ cs.length → cs.length ≤ chunkSize → ws.length = 1) ∧
    (chunkSize < cs.length → ws.length = 1 + (cs.length - chunkSize) ⌈/⌉ (chunkSize - overlap)) ∧
    c.chunk text = ((ws.map fun w => w.slice cs).filter fun piece => !piece.all Text.isBlank).map
      (fun piece => String.ofList (Text.trimChars piece)) ∧
    ∀ before phrase after, text.toList = before ++ phrase ++ after → phrase ≠ [] → Text.Trimmed phrase →
      phrase.length ≤ overlap + 1 → ∃ chunk ∈ c.chunk text, phrase <:+: chunk.toList := by
  obtain ⟨rfl, hoverlap⟩ := check_eq_ok h
  intro cs ws
  refine ⟨fun w => Chunk.start_of_first, Chunk.isChain_windows hoverlap, ?_, ?_,
    Chunk.chunkText_eq_windows text chunkSize overlap, ?_⟩
  · intro hone hshort
    have hcount := Chunk.length_windows hoverlap (show 0 < cs.length from hone)
    rwa [Nat.sub_eq_zero_of_le hshort, zero_ceilDiv] at hcount
  · intro hlong
    exact Chunk.length_windows hoverlap (by omega)
  · intro before phrase after htext hne hvisible hcount
    exact exists_chunk_of_phrase hoverlap htext hne hvisible hcount

/-- A phrase of two characters across the end of the first chunk stands in the second one, where the overlap is one
character; a phrase of three characters is broken. -/
theorem phrases_across_ends :
    let c : ChunkConfig := ⟨3, 1⟩
    (∃ chunk ∈ c.chunk "abcdef ", ['c', 'd'] <:+: chunk.toList) ∧
      ∀ chunk ∈ c.chunk "abcdef ", ¬['b', 'c', 'd'] <:+: chunk.toList := by
  intro c
  have hchecked : check 3 1 = .ok c := by decide
  obtain ⟨_, _, _, _, _, hphrase⟩ := phrases hchecked "abcdef "
  have hchunks : c.chunk "abcdef " = ["abc", "cde", "ef"] := by decide +kernel
  have hvisible : Text.Trimmed ['c', 'd'] := by decide
  refine ⟨hphrase ['a', 'b'] ['c', 'd'] ['e', 'f', ' '] (by decide) (by decide) hvisible (by decide), ?_⟩
  rw [hchunks]
  decide

end ChunkConfig

end IngestionQueue
