import IngestionQueue.Text.Blank
import Mathlib.Data.List.DropRight

/-!
# Trimmed texts

Trimming takes white space off the two ends of a text and nothing else (`Text.append_trimChars`), so what is left
begins and ends visibly (`Text.trimmed_trimChars`), nothing is left exactly of white space
(`Text.trimChars_eq_nil_iff`), and every visible character is still there (`Text.bounds_of_visible`).
-/

namespace IngestionQueue.Text

/-- No white space stands at either end of the text. -/
def Trimmed (cs : List Char) : Prop :=
  (∀ c ∈ cs.head?, isBlank c = false) ∧ ∀ c ∈ cs.getLast?, isBlank c = false

instance (cs : List Char) : Decidable (Trimmed cs) :=
  decidable_of_iff ((cs.head?.all fun c => !isBlank c) = true ∧ (cs.getLast?.all fun c => !isBlank c) = true)
    (by simp [Trimmed, Option.all_eq_true])

/-- The white space that trimming takes off the beginning of a text. -/
def leading (cs : List Char) : List Char :=
  cs.takeWhile isBlank

/-- The white space that trimming takes off the end of a text. -/
def trailing (cs : List Char) : List Char :=
  (cs.dropWhile isBlank).rtakeWhile isBlank

variable {cs : List Char} {c : Char}

private theorem trimEnd_eq (cs : List Char) : trimEnd cs = cs.rdropWhile isBlank := rfl

theorem append_trimChars (cs : List Char) : leading cs ++ trimChars cs ++ trailing cs = cs := by
  rw [trimChars, trimEnd_eq, trailing, List.append_assoc, List.rdropWhile_append_rtakeWhile, leading,
    List.takeWhile_append_dropWhile]

theorem isBlank_of_mem_leading (h : c ∈ leading cs) : isBlank c = true :=
  List.mem_takeWhile_imp h

theorem isBlank_of_mem_trailing (h : c ∈ trailing cs) : isBlank c = true :=
  List.mem_rtakeWhile_imp h

theorem trimmed_trimChars (cs : List Char) : Trimmed (trimChars cs) := by
  constructor
  · intro c hc
    -- What remains is a beginning of the text that begins visibly.
    have hprefix : trimChars cs <+: cs.dropWhile isBlank := List.rdropWhile_prefix ..
    obtain ⟨rest, hrest⟩ := hprefix
    have hhead : (cs.dropWhile isBlank).head? = some c := by
      rw [← hrest, List.head?_append]
      simp [Option.mem_def.1 hc]
    have hnot := List.head?_dropWhile_not isBlank cs
    rw [hhead] at hnot
    simpa using hnot
  · intro c hc
    have hne : trimChars cs ≠ [] := by
      rintro hnil
      simp [hnil] at hc
    have hlast : ¬isBlank ((trimChars cs).getLast hne) = true := List.rdropWhile_last_not isBlank _ hne
    have hc' : (trimChars cs).getLast hne = c := by
      simpa [List.getLast?_eq_getLast_of_ne_nil hne] using hc
    rw [← hc']
    simpa using hlast

theorem mem_of_mem_trimChars (h : c ∈ trimChars cs) : c ∈ cs := by
  rw [← append_trimChars cs]
  exact List.mem_append_left _ (List.mem_append_right _ h)

theorem trimChars_of_trimmed (h : Trimmed cs) : trimChars cs = cs := by
  have hbegin : cs.dropWhile isBlank = cs := by
    rw [List.dropWhile_eq_self_iff]
    intro hlength
    have hhead := h.1 cs[0] (by simp [List.head?_eq_getElem?])
    simp [hhead]
  rw [trimChars, hbegin, trimEnd_eq, List.rdropWhile_eq_self_iff]
  intro hne
  have hlast := h.2 (cs.getLast hne) (by simp [List.getLast?_eq_getLast_of_ne_nil hne])
  simp [hlast]

theorem trimChars_eq_nil_iff : trimChars cs = [] ↔ ∀ c ∈ cs, isBlank c = true := by
  rw [trimChars, trimEnd_eq, List.rdropWhile_eq_nil_iff]
  constructor
  · intro h c hc
    rw [← List.takeWhile_append_dropWhile (p := isBlank) (l := cs)] at hc
    rcases List.mem_append.1 hc with hc | hc
    · exact List.mem_takeWhile_imp hc
    · exact h c hc
  · exact fun h c hc => h c ((List.dropWhile_sublist _).subset hc)

/-- A visible character of a text stands behind what is taken off its beginning, and before what is taken off its
end. -/
theorem bounds_of_visible {i : Nat} (hi : cs[i]? = some c) (hc : isBlank c = false) :
    (leading cs).length ≤ i ∧ i < (leading cs).length + (trimChars cs).length := by
  rw [← append_trimChars cs] at hi
  constructor
  · by_contra hless
    rw [List.append_assoc, List.getElem?_append_left (by omega)] at hi
    rw [isBlank_of_mem_leading (List.mem_of_getElem? hi)] at hc
    cases hc
  · by_contra hless
    rw [List.getElem?_append_right (by simp; omega)] at hi
    rw [isBlank_of_mem_trailing (List.mem_of_getElem? hi)] at hc
    cases hc

end IngestionQueue.Text
