import IngestionQueue.Bytes.Utf8
import IngestionQueue.Chunk
import IngestionQueue.Number.Word
import IngestionQueue.Proofs.Blank
import Mathlib.Data.List.Chain

/-!
# Chunks cover the text

Whatever the size and the overlap are, every window begins behind the one before it, within it or right behind it,
and the last one ends with the text (`Chunk.covers_windows`).  A chunk is the visible part of a window
(`Chunk.chunkText_eq_spans`), so it is a contiguous piece of the trimmed text, and no visible character is lost
between two chunks (`Chunk.cuts_spans`).  The sums of the loop stay in 64 bits for every text that fits in memory,
and the ends of a window lie in the table of offsets, at the bounds of characters (`Chunk.inRange_windows`).  The
main result is `Chunk.coverage`.
-/

namespace IngestionQueue.Chunk

/-! ### Windows -/

/-- The windows lie one behind the other, without a gap, over the characters from `start` up to `length`. -/
structure Covers (size start length : Nat) (ws : List Window) : Prop where
  first : ws.head? = some ⟨start, min (start + size) length⟩
  last : ∃ w, ws.getLast? = some w ∧ w.stop = length
  next : ws.IsChain fun v w => v.start < w.start ∧ w.start ≤ v.stop ∧ v.stop < w.stop
  within : ∀ w ∈ ws, w.start < w.stop ∧ w.stop - w.start ≤ size ∧ w.stop ≤ length

variable {size overlap start length : Nat}

private theorem covers_single (hstart : start < length) (hend : length ≤ start + size) :
    Covers size start length [⟨start, length⟩] where
  first := by simp [Nat.min_eq_right hend]
  last := ⟨_, rfl, rfl⟩
  next := .singleton _
  within := by
    simp only [List.mem_singleton, forall_eq]
    omega

private theorem Covers.cons {start' : Nat} {ws : List Window} (h : Covers size start' length ws)
    (hmore : start + size < length) (hnext : start < start') (hgap : start' ≤ start + size) :
    Covers size start length (⟨start, start + size⟩ :: ws) where
  first := by simp [Nat.min_eq_left (Nat.le_of_lt hmore)]
  last := by
    obtain ⟨w, hw, hstop⟩ := h.last
    exact ⟨w, by simp [List.getLast?_cons, hw], hstop⟩
  next := by
    refine List.isChain_cons.2 ⟨fun w hw => ?_, h.next⟩
    rw [h.first, Option.mem_some_iff] at hw
    subst hw
    simp only
    omega
  within := by
    intro w hw
    rcases List.mem_cons.1 hw with rfl | hw
    · simp only
      omega
    · exact h.within w hw

/-- The last window ends with the text. -/
theorem windowsFrom_last (h : length ≤ start + size) :
    windowsFrom size overlap length start = [⟨start, length⟩] := by
  have hstop : min (start + size) length = length := Nat.min_eq_right h
  rw [windowsFrom, hstop, dif_pos (Nat.le_refl _)]

/-- A window that is not the last one is a full one. -/
theorem windowsFrom_next (h : start + size < length) :
    windowsFrom size overlap length start =
      ⟨start, start + size⟩ :: windowsFrom size overlap length (max (start + size - overlap) (start + 1)) := by
  have hstop : min (start + size) length = start + size := Nat.min_eq_left (Nat.le_of_lt h)
  rw [windowsFrom, hstop, dif_neg (Nat.not_le.2 h)]

theorem covers_windowsFrom (hsize : 0 < size) (hstart : start < length) :
    Covers size start length (windowsFrom size overlap length start) := by
  induction start using windowsFrom.induct size overlap length with
  | case1 start stop hend =>
    have hlast : length ≤ start + size := by omega
    rw [windowsFrom_last hlast]
    exact covers_single hstart hlast
  | case2 start stop hend ih =>
    have hstop : stop = start + size := by omega
    have hmore : start + size < length := by omega
    rw [hstop] at ih
    rw [windowsFrom_next hmore]
    exact (ih (by omega)).cons hmore (by omega) (by omega)

/-- The loop comes to its end: it makes at most one turn for each character that is left. -/
theorem length_windowsFrom_le (hsize : 0 < size) (hstart : start < length) :
    (windowsFrom size overlap length start).length ≤ length - start := by
  induction start using windowsFrom.induct size overlap length with
  | case1 start stop hend =>
    rw [windowsFrom_last (by omega), List.length_singleton]
    omega
  | case2 start stop hend ih =>
    have hstop : stop = start + size := by omega
    rw [hstop] at ih
    have hrest := ih (by omega)
    rw [windowsFrom_next (by omega), List.length_cons]
    omega

theorem windows_eq_windowsFrom (hsize : 0 < size) (hlength : 0 < length) :
    windows size overlap length = windowsFrom size overlap length 0 := by
  have hsome : ¬(length = 0 || size = 0) = true := by
    simp
    omega
  rw [windows, if_neg hsome]

theorem covers_windows (overlap : Nat) (hsize : 0 < size) (hlength : 0 < length) :
    Covers size 0 length (windows size overlap length) := by
  rw [windows_eq_windowsFrom hsize hlength]
  exact covers_windowsFrom hsize hlength

theorem length_windows_le : (windows size overlap length).length ≤ length := by
  by_cases hnone : (length = 0 || size = 0) = true
  · rw [windows, if_pos hnone]
    exact Nat.zero_le length
  · simp only [Bool.or_eq_true, decide_eq_true_eq, not_or] at hnone
    rw [windows_eq_windowsFrom (by omega) (by omega)]
    exact length_windowsFrom_le (by omega) (by omega)

theorem within_windows {w : Window} (hw : w ∈ windows size overlap length) :
    w.start < w.stop ∧ w.stop - w.start ≤ size ∧ w.stop ≤ length := by
  by_cases hnone : (length = 0 || size = 0) = true
  · rw [windows, if_pos hnone] at hw
    cases hw
  · simp only [Bool.or_eq_true, decide_eq_true_eq, not_or] at hnone
    exact (covers_windows overlap (by omega) (by omega)).within w hw

/-- Where each window begins within the one before it or right behind it, no place between the first and the last
end is left out. -/
private theorem exists_window_of_chain {ws : List Window} {i : Nat}
    (hnext : ws.IsChain fun v w => w.start ≤ v.stop) (hfirst : ∀ w ∈ ws.head?, w.start ≤ i)
    (hlast : ∃ w, ws.getLast? = some w ∧ i < w.stop) : ∃ w ∈ ws, w.start ≤ i ∧ i < w.stop := by
  induction ws with
  | nil =>
    obtain ⟨w, hw, _⟩ := hlast
    cases hw
  | cons v ws ih =>
    by_cases hv : i < v.stop
    · exact ⟨v, List.mem_cons_self, hfirst v rfl, hv⟩
    · obtain ⟨hhead, htail⟩ := List.isChain_cons.1 hnext
      have hrest : ∃ w, ws.getLast? = some w ∧ i < w.stop := by
        obtain ⟨w, hw, hi⟩ := hlast
        cases hlast' : ws.getLast? with
        | none =>
          obtain rfl : v = w := by simpa [List.getLast?_cons, hlast'] using hw
          exact absurd hi hv
        | some u =>
          obtain rfl : u = w := by simpa [List.getLast?_cons, hlast'] using hw
          exact ⟨u, rfl, hi⟩
      obtain ⟨w, hw, hwithin⟩ := ih htail (fun w hw => by have := hhead w hw; omega) hrest
      exact ⟨w, List.mem_cons_of_mem _ hw, hwithin⟩

/-- Every character lies in some window. -/
theorem Covers.exists_window {ws : List Window} (h : Covers size start length ws) {i : Nat} (hstart : start ≤ i)
    (hi : i < length) : ∃ w ∈ ws, w.start ≤ i ∧ i < w.stop := by
  refine exists_window_of_chain (h.next.imp fun v w hvw => hvw.2.1) ?_ ?_
  · intro w hw
    rw [h.first, Option.mem_some_iff] at hw
    subst hw
    exact hstart
  · obtain ⟨w, hw, hstop⟩ := h.last
    exact ⟨w, hw, by omega⟩

/-! ### Visible parts of windows -/

/-- The visible part of a window. -/
def Window.trim (w : Window) (cs : List Char) : Window :=
  let start := w.start + (Text.leading (w.slice cs)).length
  ⟨start, start + (Text.trimChars (w.slice cs)).length⟩

/-- Where the chunks of a trimmed text lie in it. -/
def spans (cs : List Char) (size overlap : Nat) : List Window :=
  ((windows size overlap cs.length).map fun w => w.trim cs).filter fun w => w.start < w.stop

variable {cs : List Char} {v w : Window} {i : Nat} {c : Char}

theorem length_slice (h : w.stop ≤ cs.length) : (w.slice cs).length = w.stop - w.start := by
  simp [Window.slice]
  omega

theorem getElem?_slice (hi : i < w.stop - w.start) : (w.slice cs)[i]? = cs[w.start + i]? := by
  simp [Window.slice, hi]

theorem slice_append (before piece after : List Char) :
    Window.slice ⟨before.length, before.length + piece.length⟩ (before ++ piece ++ after) = piece := by
  simp [Window.slice]

/-- A text is what stands before a window, its content, and what stands after it. -/
theorem append_slice (cs : List Char) (h : w.start ≤ w.stop) :
    cs.take w.start ++ w.slice cs ++ cs.drop w.stop = cs := by
  have hrest : cs.drop w.stop = (cs.drop w.start).drop (w.stop - w.start) := by
    rw [List.drop_drop, Nat.add_sub_cancel' h]
  rw [hrest, Window.slice, List.append_assoc, List.take_append_drop, List.take_append_drop]

/-- The visible part holds what is left of the content when it is trimmed. -/
theorem slice_trim (h : w.start ≤ w.stop) (hstop : w.stop ≤ cs.length) :
    (w.trim cs).slice cs = Text.trimChars (w.slice cs) := by
  have hbefore : (cs.take w.start ++ Text.leading (w.slice cs)).length =
      w.start + (Text.leading (w.slice cs)).length := by
    simp
    omega
  have htext : cs.take w.start ++ Text.leading (w.slice cs) ++ Text.trimChars (w.slice cs) ++
      (Text.trailing (w.slice cs) ++ cs.drop w.stop) = cs := by
    conv => rhs; rw [← append_slice cs h, ← Text.append_trimChars (w.slice cs)]
    simp only [List.append_assoc]
  have hslice := slice_append (cs.take w.start ++ Text.leading (w.slice cs)) (Text.trimChars (w.slice cs))
    (Text.trailing (w.slice cs) ++ cs.drop w.stop)
  rwa [htext, hbefore] at hslice

/-- The visible part lies in its window. -/
theorem trim_within (h : w.start ≤ w.stop) (hstop : w.stop ≤ cs.length) :
    w.start ≤ (w.trim cs).start ∧ (w.trim cs).stop ≤ w.stop := by
  have hlength := congrArg List.length (Text.append_trimChars (w.slice cs))
  simp only [List.length_append, length_slice hstop] at hlength
  simp only [Window.trim]
  omega

/-- A visible character of a window lies in its visible part. -/
theorem mem_trim (hi : w.start ≤ i ∧ i < w.stop) (hc : cs[i]? = some c) (hvisible : Text.isBlank c = false) :
    (w.trim cs).start ≤ i ∧ i < (w.trim cs).stop := by
  have hplace : (w.slice cs)[i - w.start]? = some c := by
    rw [getElem?_slice (by omega), Nat.add_sub_cancel' hi.1, hc]
  have hbounds := Text.bounds_of_visible hplace hvisible
  simp only [Window.trim]
  omega

/-- The first and the last character of a visible part that is not empty are visible. -/
theorem visible_ends (h : w.start ≤ w.stop) (hstop : w.stop ≤ cs.length)
    (hne : (w.trim cs).start < (w.trim cs).stop) :
    (∃ c, cs[(w.trim cs).start]? = some c ∧ Text.isBlank c = false) ∧
      ∃ c, cs[(w.trim cs).stop - 1]? = some c ∧ Text.isBlank c = false := by
  have hslice := slice_trim h hstop
  have hwithin := trim_within h hstop
  have hlength : ((w.trim cs).slice cs).length = (w.trim cs).stop - (w.trim cs).start :=
    length_slice (by omega)
  obtain ⟨hfirst, hlast⟩ := Text.trimmed_trimChars (w.slice cs)
  rw [← hslice] at hfirst hlast
  constructor
  · refine ⟨cs[(w.trim cs).start], List.getElem?_eq_getElem (by omega), hfirst _ ?_⟩
    rw [List.head?_eq_getElem?, getElem?_slice (by omega), Nat.add_zero]
    exact List.getElem?_eq_getElem (by omega)
  · refine ⟨cs[(w.trim cs).stop - 1], List.getElem?_eq_getElem (by omega), hlast _ ?_⟩
    rw [List.getLast?_eq_getElem?, hlength, getElem?_slice (by omega),
      show (w.trim cs).start + ((w.trim cs).stop - (w.trim cs).start - 1) = (w.trim cs).stop - 1 by omega]
    exact List.getElem?_eq_getElem (by omega)

/-- Visible parts come in the order of their windows. -/
theorem trim_mono (hv : v.start < v.stop) (hw : w.start < w.stop) (hstart : v.start < w.start)
    (hstop : v.stop < w.stop) (hend : w.stop ≤ cs.length) (hvne : (v.trim cs).start < (v.trim cs).stop)
    (hwne : (w.trim cs).start < (w.trim cs).stop) :
    (v.trim cs).start ≤ (w.trim cs).start ∧ (v.trim cs).stop ≤ (w.trim cs).stop := by
  have hvstop : v.stop ≤ cs.length := by omega
  have hwithinv := trim_within (Nat.le_of_lt hv) hvstop
  have hwithinw := trim_within (Nat.le_of_lt hw) hend
  obtain ⟨⟨c, hc, hvisible⟩, -⟩ := visible_ends (Nat.le_of_lt hw) hend hwne
  obtain ⟨-, d, hd, hvisible'⟩ := visible_ends (Nat.le_of_lt hv) hvstop hvne
  constructor
  · -- The first visible character of the later window may lie in the earlier one, which then begins before it.
    by_contra hless
    have hmem := mem_trim (w := v) ⟨by omega, by omega⟩ hc hvisible
    omega
  · by_contra hless
    have hmem := mem_trim (w := w) ⟨by omega, by omega⟩ hd hvisible'
    omega

/-! ### Chunks -/

private theorem filterMap_trim {ws : List Window} (h : ∀ w ∈ ws, w.start < w.stop ∧ w.stop ≤ cs.length) :
    (ws.filterMap fun w =>
      let piece := Text.trimChars (w.slice cs)
      if piece.isEmpty then none else some (String.ofList piece)) =
      ((ws.map fun w => w.trim cs).filter fun w => w.start < w.stop).map fun w => String.ofList (w.slice cs) := by
  induction ws with
  | nil => rfl
  | cons w ws ih =>
    obtain ⟨⟨hw, hend⟩, hrest⟩ := List.forall_mem_cons.1 h
    have hslice := slice_trim (Nat.le_of_lt hw) hend
    have hne : (w.trim cs).start < (w.trim cs).stop ↔ Text.trimChars (w.slice cs) ≠ [] := by
      simp [Window.trim, List.length_pos_iff]
    by_cases hnil : Text.trimChars (w.slice cs) = []
    · have hempty : ¬(w.trim cs).start < (w.trim cs).stop := fun hlt => hne.1 hlt hnil
      rw [List.map_cons, List.filter_cons_of_neg (by simpa using hempty), ← ih hrest]
      simp [hnil]
    · rw [List.map_cons, List.filter_cons_of_pos (by simpa using hne.2 hnil), List.map_cons, hslice, ← ih hrest]
      simp [hnil]

/-- The chunks are the contents of the spans, in their order. -/
theorem chunkText_eq_spans (text : String) (size overlap : Nat) :
    chunkText text size overlap =
      (spans (Text.trimChars text.toList) size overlap).map fun w =>
        String.ofList (w.slice (Text.trimChars text.toList)) :=
  filterMap_trim fun _ hw => ⟨(within_windows hw).1, (within_windows hw).2.2⟩

theorem mem_spans : w ∈ spans cs size overlap ↔
    ∃ u ∈ windows size overlap cs.length, u.trim cs = w ∧ w.start < w.stop := by
  simp only [spans, List.mem_filter, List.mem_map, decide_eq_true_eq]
  constructor
  · rintro ⟨⟨u, hu, rfl⟩, hlt⟩
    exact ⟨u, hu, rfl, hlt⟩
  · rintro ⟨u, hu, rfl, hlt⟩
    exact ⟨⟨u, hu, rfl⟩, hlt⟩

/-- The visible characters of a window lie in one span. -/
theorem exists_span_of_window (hw : w ∈ windows size overlap cs.length) {j : Nat} {d : Char}
    (hstart : w.start ≤ i) (hij : i ≤ j) (hstop : j < w.stop) (hi : cs[i]? = some c) (hc : Text.isBlank c = false)
    (hj : cs[j]? = some d) (hd : Text.isBlank d = false) :
    ∃ u ∈ spans cs size overlap, u.start ≤ i ∧ j < u.stop := by
  have hfirst := mem_trim (w := w) ⟨hstart, by omega⟩ hi hc
  have hlast := mem_trim (w := w) ⟨by omega, hstop⟩ hj hd
  exact ⟨w.trim cs, mem_spans.2 ⟨w, hw, rfl, by omega⟩, hfirst.1, hlast.2⟩

/-- The chunks are the contents of the windows, trimmed, but for those of white space alone. -/
theorem chunkText_eq_windows (text : String) (size overlap : Nat) :
    chunkText text size overlap =
      (((windows size overlap (Text.trimChars text.toList).length).map fun w =>
        w.slice (Text.trimChars text.toList)).filter fun piece => !piece.all Text.isBlank).map fun piece =>
          String.ofList (Text.trimChars piece) := by
  rw [chunkText, List.filter_map, List.map_map, ← List.filterMap_eq_map, List.filterMap_filter]
  refine List.filterMap_congr fun w _ => ?_
  have hnil : Text.trimChars (w.slice (Text.trimChars text.toList)) = [] ↔
      (w.slice (Text.trimChars text.toList)).all Text.isBlank = true := by
    rw [List.all_eq_true, Text.trimChars_eq_nil_iff]
  by_cases hblank : (w.slice (Text.trimChars text.toList)).all Text.isBlank = true
  · simp [hblank, hnil.2 hblank]
  · simp [hblank, mt hnil.1 hblank]

/-- Where the chunks of a trimmed text lie: each is a visible piece of it that is not too long, they come in the order
of the text, and no visible character is left out. -/
structure Cuts (size : Nat) (cs : List Char) (ws : List Window) : Prop where
  within : ∀ w ∈ ws, w.start < w.stop ∧ w.stop - w.start ≤ size ∧ w.stop ≤ cs.length
  trimmed : ∀ w ∈ ws, Text.Trimmed (w.slice cs)
  order : ws.Pairwise fun v w => v.start ≤ w.start ∧ v.stop ≤ w.stop
  visible : ∀ i c, cs[i]? = some c → Text.isBlank c = false → ∃ w ∈ ws, w.start ≤ i ∧ i < w.stop

/-- One window begins and ends before another one does. -/
def Window.Before (v w : Window) : Prop :=
  v.start < w.start ∧ v.stop < w.stop

instance : Trans Window.Before Window.Before Window.Before where
  trans h h' := ⟨h.1.trans h'.1, h.2.trans h'.2⟩

private theorem pairwise_windows (hsize : 0 < size) : (windows size overlap length).Pairwise Window.Before := by
  by_cases hlength : length = 0
  · subst hlength
    exact .nil
  · have hnext := (covers_windows overlap hsize (Nat.pos_of_ne_zero hlength)).next
    have hbefore : (windows size overlap length).IsChain Window.Before :=
      hnext.imp fun v w h => ⟨h.1, h.2.2⟩
    exact hbefore.pairwise

theorem cuts_spans (cs : List Char) (overlap : Nat) (hsize : 0 < size) : Cuts size cs (spans cs size overlap) where
  within := by
    intro w hw
    obtain ⟨u, hu, rfl, hlt⟩ := mem_spans.1 hw
    obtain ⟨hustart, husize, hustop⟩ := within_windows hu
    have hwithin := trim_within (Nat.le_of_lt hustart) hustop
    omega
  trimmed := by
    intro w hw
    obtain ⟨u, hu, rfl, _⟩ := mem_spans.1 hw
    obtain ⟨hustart, _, hustop⟩ := within_windows hu
    rw [slice_trim (Nat.le_of_lt hustart) hustop]
    exact Text.trimmed_trimChars _
  order := by
    -- Two spans that are not empty come in the order of their windows.
    refine List.pairwise_filter.2 (List.pairwise_map.2 ((pairwise_windows hsize).imp_of_mem ?_))
    intro v w hv hw hbefore hvne hwne
    obtain ⟨hvstart, _, _⟩ := within_windows hv
    obtain ⟨hwstart, _, hwstop⟩ := within_windows hw
    exact trim_mono hvstart hwstart hbefore.1 hbefore.2 hwstop (by simpa using hvne) (by simpa using hwne)
  visible := by
    intro i c hi hc
    have hlength : i < cs.length := (List.getElem?_eq_some_iff.1 hi).1
    obtain ⟨w, hw, hstart, hstop⟩ :=
      (covers_windows overlap hsize (by omega)).exists_window (Nat.zero_le i) hlength
    exact exists_span_of_window hw hstart (Nat.le_refl i) hstop hi hc hi hc

theorem chunkText_eq_nil_iff (text : String) (hsize : 0 < size) :
    chunkText text size overlap = [] ↔ ∀ c ∈ text.toList, Text.isBlank c = true := by
  rw [chunkText_eq_spans, List.map_eq_nil_iff, ← Text.trimChars_eq_nil_iff]
  constructor
  · intro hnil
    -- A text that is not empty once it is trimmed begins with a visible character, which lies in a span.
    by_contra hne
    have hpos := List.length_pos_iff.2 hne
    have hhead : (Text.trimChars text.toList)[0]? = some ((Text.trimChars text.toList)[0]) :=
      List.getElem?_eq_getElem hpos
    have hvisible := (Text.trimmed_trimChars text.toList).1 _ (by rw [List.head?_eq_getElem?]; exact hhead)
    obtain ⟨w, hw, _⟩ := (cuts_spans _ overlap hsize).visible 0 _ hhead hvisible
    rw [hnil] at hw
    cases hw
  · intro hnil
    rw [hnil]
    rfl

/-! ### The range of the loop -/

/-- The offsets of the characters of a text in its bytes, and that of its end. -/
def offsets (cs : List Char) : List Nat :=
  (List.range (cs.length + 1)).map fun i => (Utf8.encode (cs.take i)).length

/-- Nothing that the loop computes for a window leaves its range: the sums are integers of 64 bits, the ends of the
window have their places in the table of offsets, and the bytes between these are those of the content. -/
structure Window.InRange (size : Nat) (cs : List Char) (w : Window) : Prop where
  sums : ((w.start + size : Nat) : Int) ≤ Word.greatestUnsigned ∧
    ((w.start + 1 : Nat) : Int) ≤ Word.greatestUnsigned
  bytes : ∃ a b, (offsets cs)[w.start]? = some a ∧ (offsets cs)[w.stop]? = some b ∧ a ≤ b ∧
    b ≤ (Utf8.encode cs).length ∧ ((Utf8.encode cs).drop a).take (b - a) = Utf8.encode (w.slice cs)

private theorem encode_append (xs ys : List Char) : Utf8.encode (xs ++ ys) = Utf8.encode xs ++ Utf8.encode ys :=
  List.flatMap_append

private theorem length_le_encode (cs : List Char) : cs.length ≤ (Utf8.encode cs).length := by
  induction cs with
  | nil => exact Nat.le_refl 0
  | cons c cs ih =>
    have hchar : 0 < (Utf8.encodeChar c).length := by
      simp only [Utf8.encodeChar]
      split_ifs <;> simp
    have hcons : Utf8.encode (c :: cs) = Utf8.encodeChar c ++ Utf8.encode cs := List.flatMap_cons
    rw [hcons, List.length_append, List.length_cons]
    omega

private theorem encode_trimChars_le (cs : List Char) :
    (Utf8.encode (Text.trimChars cs)).length ≤ (Utf8.encode cs).length := by
  have hlength := congrArg (fun cs => (Utf8.encode cs).length) (Text.append_trimChars cs)
  simp only [encode_append, List.length_append] at hlength
  omega

private theorem getElem?_offsets (hi : i ≤ cs.length) :
    (offsets cs)[i]? = some (Utf8.encode (cs.take i)).length := by
  simp [offsets, Nat.lt_succ_of_le hi]

/-- A window of a text that fits in memory, whose bytes are counted by signed integers of 64 bits, is in range. -/
theorem inRange_windows (hbytes : ((Utf8.encode cs).length : Int) ≤ Word.greatest)
    (hsize : (size : Int) ≤ Word.greatestUnsigned) (hw : w ∈ windows size overlap cs.length) :
    w.InRange size cs := by
  obtain ⟨hstart, hwsize, hstop⟩ := within_windows hw
  have hlength := length_le_encode cs
  refine ⟨⟨?_, ?_⟩, ?_⟩
  · by_cases hone : cs.length ≤ size
    · -- The first window is the only one, so nothing is added to the size.
      rw [windows_eq_windowsFrom (by omega) (by omega), windowsFrom_last (by omega), List.mem_singleton] at hw
      subst hw
      simpa using hsize
    · simp only [Word.greatest, Word.greatestUnsigned] at *
      omega
  · simp only [Word.greatest, Word.greatestUnsigned] at *
    omega
  · refine ⟨_, _, getElem?_offsets (by omega), getElem?_offsets hstop, ?_⟩
    have htake : cs.take w.stop = cs.take w.start ++ w.slice cs := by
      rw [Window.slice, ← List.take_add, Nat.add_sub_cancel' (Nat.le_of_lt hstart)]
    have htext := congrArg Utf8.encode (append_slice cs (Nat.le_of_lt hstart))
    rw [htake, ← htext]
    simp only [encode_append, List.length_append, Nat.add_sub_cancel_left]
    refine ⟨by omega, by omega, ?_⟩
    simp

/-- A chunk shows something at both of its ends, is not longer than the size, and is a piece of the trimmed text. -/
theorem chunk_piece {text chunk : String} (hsize : 0 < size) (h : chunk ∈ chunkText text size overlap) :
    chunk ≠ "" ∧ Text.Trimmed chunk.toList ∧ chunk.length ≤ size ∧ chunk.toList <:+: Text.trimChars text.toList := by
  rw [chunkText_eq_spans] at h
  obtain ⟨w, hw, rfl⟩ := List.mem_map.1 h
  have hcuts := cuts_spans (Text.trimChars text.toList) overlap hsize
  obtain ⟨hstart, hlong, hstop⟩ := hcuts.within w hw
  have hlength := length_slice hstop
  refine ⟨?_, ?_, ?_, ?_⟩
  · intro hnil
    have hzero : (w.slice (Text.trimChars text.toList)).length = 0 := by
      rw [← String.length_ofList, hnil]
      rfl
    omega
  · rw [String.toList_ofList]
    exact hcuts.trimmed w hw
  · rw [String.length_ofList]
    omega
  · rw [String.toList_ofList]
    exact ⟨_, _, append_slice _ (Nat.le_of_lt hstart)⟩

/-- For every text, every size and every overlap, windows without a gap lie over the trimmed text, and the chunks
are their trimmed contents but for those of white space alone.  So a chunk is not empty, has no white space at its
ends, is not longer than the size and is a piece of the text; the chunks come in the order of the text, hold every
visible character of it, and there is none exactly where there is nothing to see.  If the text fits in memory and
the size is a word, nothing that the loop computes leaves its range. -/
theorem coverage (text : String) (size overlap : Nat) (hsize : 0 < size) :
    let cs := Text.trimChars text.toList
    let ws := windows size overlap cs.length
    (cs = [] → ws = []) ∧ (cs ≠ [] → Covers size 0 cs.length ws) ∧ ws.length ≤ cs.length ∧
    chunkText text size overlap =
      ((ws.map fun w => w.slice cs).filter fun piece => !piece.all Text.isBlank).map
        (fun piece => String.ofList (Text.trimChars piece)) ∧
    (chunkText text size overlap =
      (spans cs size overlap).map (fun w => String.ofList (w.slice cs)) ∧ Cuts size cs (spans cs size overlap)) ∧
    (∀ chunk ∈ chunkText text size overlap, chunk ≠ "" ∧ Text.Trimmed chunk.toList ∧ chunk.length ≤ size ∧
      chunk.toList <:+: cs) ∧
    (chunkText text size overlap = [] ↔ ∀ c ∈ text.toList, Text.isBlank c = true) ∧
    (((Utf8.ofString text).length : Int) ≤ Word.greatest → (size : Int) ≤ Word.greatestUnsigned →
      ∀ w ∈ ws, w.InRange size cs) := by
  intro cs ws
  refine ⟨?_, ?_, length_windows_le, chunkText_eq_windows text size overlap,
    ⟨chunkText_eq_spans text size overlap, cuts_spans cs overlap hsize⟩, fun chunk => chunk_piece hsize,
    chunkText_eq_nil_iff text hsize, ?_⟩
  · intro hnil
    simp [ws, hnil, windows]
  · intro hne
    exact covers_windows overlap hsize (List.length_pos_iff.2 hne)
  · intro hbytes hword w hw
    have htrimmed : (Utf8.encode cs).length ≤ (Utf8.ofString text).length := encode_trimChars_le text.toList
    exact inRange_windows (by omega) hword hw

/-- Windows of three characters that reach back further than they are long: their chunks overlap, and those of white
space give none. -/
theorem coverage_reaching_back :
    let text := " añb    c\n"
    let cs := "añb    c".toList
    chunkText text 3 5 = ["añb", "ñb", "b", "c"] ∧ Covers 3 0 8 (windows 3 5 8) ∧ Cuts 3 cs (spans cs 3 5) ∧
      ∀ w ∈ windows 3 5 8, w.InRange 3 cs := by
  intro text cs
  have htrimmed : Text.trimChars text.toList = cs := by decide
  have hlength : cs.length = 8 := by decide
  have hchunks : chunkText text 3 5 = ["añb", "ñb", "b", "c"] := by decide +kernel
  obtain ⟨_, hcovers, _, _, ⟨_, hcuts⟩, _, _, hrange⟩ := coverage text 3 5 (by decide)
  rw [htrimmed] at hcovers hcuts hrange
  rw [hlength] at hcovers hrange
  refine ⟨hchunks, hcovers (by decide), hcuts, hrange ?_ (by decide)⟩
  decide

end IngestionQueue.Chunk
