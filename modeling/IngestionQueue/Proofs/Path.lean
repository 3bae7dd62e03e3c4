import IngestionQueue.Text.Path
import Mathlib.Data.List.Basic

/-!
# Paths and places

A path is its segments joined by slashes (`Path.intercalate_segments`).  From a place a path leads down by its names,
unless it is absolute or steps to a parent (`Path.walk_eq`); so it never leads out of the place.
-/

namespace IngestionQueue.Path

/-! ### Segments -/

variable {isCut : Char → Bool}

theorem splitAt_ne_nil (isCut : Char → Bool) (cs : List Char) : splitAt isCut cs ≠ [] := by
  cases cs with
  | nil => simp [splitAt]
  | cons c cs =>
    simp only [splitAt]
    split
    · simp
    · split <;> simp

theorem splitAt_append_cut (xs ys : List Char) {c : Char} (hc : isCut c = true) :
    splitAt isCut (xs ++ c :: ys) = splitAt isCut xs ++ splitAt isCut ys := by
  induction xs with
  | nil => simp [splitAt, hc]
  | cons x xs ih =>
    simp only [List.cons_append, splitAt, ih]
    split
    · rfl
    · cases hxs : splitAt isCut xs with
      | nil => exact absurd hxs (splitAt_ne_nil isCut xs)
      | cons s ss => rfl

theorem splitAt_of_forall_not {cs : List Char} (h : ∀ c ∈ cs, isCut c = false) : splitAt isCut cs = [cs] := by
  induction cs with
  | nil => rfl
  | cons c cs ih =>
    have htail := ih fun d hd => h d (List.mem_cons_of_mem c hd)
    simp [splitAt, h c List.mem_cons_self, htail]

/-- No piece contains a character at which the text is cut. -/
theorem not_cut_of_mem_splitAt {cs s : List Char} (hs : s ∈ splitAt isCut cs) : ∀ c ∈ s, isCut c = false := by
  induction cs generalizing s with
  | nil =>
    obtain rfl : s = [] := by simpa [splitAt] using hs
    simp
  | cons c cs ih =>
    simp only [splitAt] at hs
    split at hs
    · rcases List.mem_cons.1 hs with rfl | hs
      · simp
      · exact ih hs
    · rename_i hc
      cases hcs : splitAt isCut cs with
      | nil => exact absurd hcs (splitAt_ne_nil isCut cs)
      | cons p ps =>
        rw [hcs] at hs ih
        rcases List.mem_cons.1 hs with rfl | hs
        · intro d hd
          rcases List.mem_cons.1 hd with rfl | hd
          · simpa using hc
          · exact ih List.mem_cons_self d hd
        · exact ih (List.mem_cons_of_mem p hs)

theorem segments_append_slash (xs ys : List Char) : segments (xs ++ '/' :: ys) = segments xs ++ segments ys :=
  splitAt_append_cut xs ys rfl

theorem segments_of_no_slash {cs : List Char} (h : '/' ∉ cs) : segments cs = [cs] := by
  refine splitAt_of_forall_not fun c hc => ?_
  rw [beq_eq_false_iff_ne]
  rintro rfl
  exact h hc

theorem slash_not_mem_of_mem_segments {path s : List Char} (h : s ∈ segments path) : '/' ∉ s := by
  intro hmem
  have hcut := not_cut_of_mem_splitAt h '/' hmem
  simp at hcut

private theorem splitAt_cons_cut (cs : List Char) {c : Char} (hc : isCut c = true) :
    splitAt isCut (c :: cs) = [] :: splitAt isCut cs := by
  rw [splitAt, if_pos hc]

private theorem splitAt_cons_not {cs s : List Char} {ss : List Name} {c : Char} (hc : isCut c = false)
    (h : splitAt isCut cs = s :: ss) : splitAt isCut (c :: cs) = (c :: s) :: ss := by
  simp [splitAt, hc, h]

private theorem exists_splitAt (isCut : Char → Bool) (cs : List Char) : ∃ s ss, splitAt isCut cs = s :: ss :=
  List.exists_cons_of_ne_nil (splitAt_ne_nil isCut cs)

/-- Joined by slashes, the segments are the path. -/
theorem intercalate_segments (path : List Char) : ['/'].intercalate (segments path) = path := by
  unfold segments
  induction path with
  | nil => simp [splitAt, List.intercalate]
  | cons c cs ih =>
    obtain ⟨s, ss, hcs⟩ := exists_splitAt (· == '/') cs
    by_cases hc : c = '/'
    · subst hc
      rw [splitAt_cons_cut cs (by decide), hcs, ← ih, hcs]
      simp [List.intercalate]
    · rw [splitAt_cons_not (by simpa using hc) hcs]
      rw [hcs] at ih
      conv => rhs; rw [← ih]
      cases ss <;> simp [List.intercalate]

theorem segments_injective : Function.Injective segments := by
  intro path path' h
  rw [← intercalate_segments path, h, intercalate_segments]

/-- Every character but the slashes is in some segment, and the segments have no others. -/
theorem mem_segments_iff {path : List Char} {c : Char} (hc : c ≠ '/') :
    (∃ s ∈ segments path, c ∈ s) ↔ c ∈ path := by
  unfold segments
  induction path with
  | nil => simp [splitAt]
  | cons d cs ih =>
    obtain ⟨s, ss, hcs⟩ := exists_splitAt (· == '/') cs
    by_cases hd : d = '/'
    · subst hd
      rw [splitAt_cons_cut cs (by decide), List.exists_mem_cons_iff, ih]
      simp [hc]
    · rw [splitAt_cons_not (by simpa using hd) hcs]
      rw [hcs, List.exists_mem_cons_iff] at ih
      rw [List.exists_mem_cons_iff, List.mem_cons, List.mem_cons, or_assoc, ih]

/-! ### Names -/

/-- A segment that leads one step down. -/
structure IsName (s : Name) : Prop where
  nonempty : s ≠ []
  not_stay : s ≠ ['.']
  not_climb : s ≠ ['.', '.']
  no_slash : '/' ∉ s

variable {path s : List Char}

theorem mem_names : s ∈ names path ↔ s ∈ segments path ∧ s ≠ [] ∧ s ≠ ['.'] := by
  simp [names]

theorem nil_mem_segments (h : isAbsolute path = true) : [] ∈ segments path := by
  obtain ⟨rest, rfl⟩ : ∃ rest, path = '/' :: rest := List.head?_eq_some_iff.1 (by simpa [isAbsolute] using h)
  unfold segments
  rw [splitAt_cons_cut rest (by decide)]
  exact List.mem_cons_self

theorem climbs_eq_false_iff : climbs path = false ↔ ['.', '.'] ∉ segments path := by
  simp [climbs, mem_names]

theorem isName_of_mem_names (h : climbs path = false) (hs : s ∈ names path) : IsName s := by
  obtain ⟨hmem, hnil, hdot⟩ := mem_names.1 hs
  refine ⟨hnil, hdot, ?_, slash_not_mem_of_mem_segments hmem⟩
  rintro rfl
  exact climbs_eq_false_iff.1 h hmem

theorem names_append_slash (xs ys : List Char) : names (xs ++ '/' :: ys) = names xs ++ names ys := by
  rw [names, segments_append_slash, List.filter_append]
  rfl

theorem names_of_isName (h : IsName s) : names s = [s] := by
  rw [names, segments_of_no_slash h.no_slash]
  simp [h.nonempty, h.not_stay]

/-- A path of names only has no other segments. -/
theorem names_eq_segments (h : ∀ s ∈ segments path, IsName s) : names path = segments path := by
  rw [names, List.filter_eq_self]
  intro s hs
  simp [(h s hs).nonempty, (h s hs).not_stay]

/-! ### The end of a path -/

/-- A path whose last segment is a name. -/
def EndsInName (path : List Char) : Prop :=
  ∃ s, (segments path).getLast? = some s ∧ IsName s

theorem EndsInName.names_ne_nil (h : EndsInName path) : names path ≠ [] := by
  obtain ⟨s, hlast, hs⟩ := h
  exact List.ne_nil_of_mem (mem_names.2 ⟨List.mem_of_getLast? hlast, hs.nonempty, hs.not_stay⟩)

/-- The last segment is empty behind a slash. -/
theorem getLast?_segments_eq_nil_iff (hpath : path ≠ []) :
    (segments path).getLast? = some [] ↔ path.getLast? = some '/' := by
  constructor
  · intro h
    induction path with
    | nil => exact absurd rfl hpath
    | cons c cs ih =>
      obtain ⟨s, ss, hcs⟩ := exists_splitAt (· == '/') cs
      unfold segments at h ih
      by_cases hc : c = '/'
      · subst hc
        rw [splitAt_cons_cut cs (by decide), hcs, List.getLast?_cons_cons, ← hcs] at h
        by_cases hnil : cs = []
        · simp [hnil]
        · rw [List.getLast?_cons_of_ne_nil hnil]
          exact ih hnil h
      · rw [splitAt_cons_not (by simpa using hc) hcs] at h
        cases ss with
        | nil => simp at h
        | cons s' ss =>
          have hnil : cs ≠ [] := by
            rintro rfl
            simp [splitAt] at hcs
          rw [List.getLast?_cons_cons] at h
          rw [List.getLast?_cons_of_ne_nil hnil]
          exact ih hnil (by rw [hcs, List.getLast?_cons_cons, h])
  · intro h
    obtain ⟨init, rfl⟩ := List.getLast?_eq_some_iff.1 h
    rw [segments_append_slash]
    simp [segments, splitAt]

/-! ### Walks -/

/-- One segment of a walk: an empty one and a dot stay, two dots go up, a name goes down. -/
def move (place : List Name) (s : Name) : List Name :=
  if s.isEmpty || s == ['.'] then place
  else if s == ['.', '.'] then place.dropLast
  else place ++ [s]

/-- Where a path leads from a place; an absolute path leads from the top. -/
def walk (place : List Name) (path : List Char) : List Name :=
  (segments path).foldl move (if isAbsolute path then [] else place)

/-- A path that is not absolute and does not climb leads down by its names. -/
theorem walk_eq (habsolute : isAbsolute path = false) (hclimbs : climbs path = false) (place : List Name) :
    walk place path = place ++ names path := by
  rw [climbs_eq_false_iff] at hclimbs
  unfold walk names
  simp only [habsolute, Bool.false_eq_true, if_false]
  generalize segments path = ss at hclimbs
  induction ss generalizing place with
  | nil => simp
  | cons s ss ih =>
    obtain ⟨hs, hss⟩ : ¬['.', '.'] = s ∧ ['.', '.'] ∉ ss := by simpa only [List.mem_cons, not_or] using hclimbs
    have hup : (s == ['.', '.']) = false := by simpa using Ne.symm hs
    rw [List.foldl_cons, ih _ hss]
    cases hstays : (s.isEmpty || s == ['.']) with
    | true =>
      rw [List.filter_cons_of_neg (by simp only [hstays, Bool.not_true, Bool.false_eq_true, not_false_eq_true])]
      simp only [move, hstays, if_true]
    | false =>
      rw [List.filter_cons_of_pos (by simp only [hstays, Bool.not_false])]
      simp only [move, hstays, hup, Bool.false_eq_true, if_false, List.append_assoc, List.cons_append,
        List.nil_append]

end IngestionQueue.Path
