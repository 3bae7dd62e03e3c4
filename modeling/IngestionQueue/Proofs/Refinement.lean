import IngestionQueue.Proofs.ObjectMap

/-!
# Stores on files and in memory

A store on files whose root was empty is read as a map from places to what was stored last, whatever calls were made on
it.  Where every key is plain and nothing that is put lies above or below another key, a put cannot fail and a store in
memory gives the same answers (`ObjectStore.refinement`).
-/

namespace IngestionQueue

namespace ObjectStore

variable {o : ObjectStore} {t : FileTree} {calls : List Call} {stored : List (List Path.Name × Bytes)}
  {place : List Path.Name} {bytes content : Bytes} {key : String}

/-! ### Plain keys -/

/-- A key whose segments can all be names of files. -/
structure IsPlain (key : String) : Prop where
  not_blank : Text.isBlankText key = false
  name : ∀ s ∈ Path.segments key.toList, Path.IsName s
  short : ∀ s ∈ Path.segments key.toList, FileTree.isTooLong s = false
  no_nul : FileTree.nul ∉ key.toList

/-- The place of a key lies neither above nor below the place of a key that is put. -/
def Apart (calls : List Call) (key : String) : Prop :=
  ∀ key' content, .put key' content ∈ calls →
    Path.names key'.toList <+: Path.names key.toList ∨ Path.names key.toList <+: Path.names key'.toList →
      Path.names key'.toList = Path.names key.toList

/-- What a key reads if `stored` is what was stored. -/
def reading (stored : List (List Path.Name × Bytes)) (key : String) : Except ObjectError Bytes :=
  match lastAt stored (Path.names key.toList) with
  | some bytes => .ok bytes
  | none => .error (.notFound key)

namespace IsPlain

variable {other : String}

theorem names_eq (h : IsPlain key) : Path.names key.toList = Path.segments key.toList :=
  Path.names_eq_segments h.name

theorem names_inj (h : IsPlain key) (h' : IsPlain other) (hnames : Path.names key.toList = Path.names other.toList) :
    key = other := by
  rw [h.names_eq, h'.names_eq] at hnames
  exact String.toList_inj.1 (Path.segments_injective hnames)

theorem isBelowRoot_eq (h : IsPlain key) : isBelowRoot key = true := by
  refine isBelowRoot_iff.2 ⟨h.not_blank, ?_, fun hclimb => (h.name _ hclimb).not_climb rfl⟩
  rw [Bool.eq_false_iff]
  intro habsolute
  exact (h.name [] (Path.nil_mem_segments habsolute)).nonempty rfl

theorem endsInName (h : IsPlain key) : Path.EndsInName key.toList := by
  have hsegments := Path.splitAt_ne_nil (· == '/') key.toList
  refine ⟨(Path.segments key.toList).getLast hsegments, List.getLast?_eq_some_getLast hsegments, ?_⟩
  exact h.name _ (List.getLast_mem hsegments)

theorem names_ne_nil (h : IsPlain key) : Path.names key.toList ≠ [] :=
  h.endsInName.names_ne_nil

end IsPlain

theorem Apart.mono {calls' : List Call} (h : Apart calls' key) (hcalls : calls ⊆ calls') : Apart calls key :=
  fun key' content hmem => h key' content (hcalls hmem)

/-- Nothing is stored above a key that is apart. -/
theorem Mirrors.nothing_above (h : Mirrors t calls stored) (hapart : Apart calls key)
    (habove : place <+: Path.names key.toList) (hne : place ≠ Path.names key.toList) : lastAt stored place = none := by
  rw [Option.eq_none_iff_forall_ne_some]
  intro bytes hlast
  obtain ⟨key', hmem, -, -, hplace⟩ := h.origin _ (mem_of_lastAt hlast)
  obtain rfl : place = Path.names key'.toList := hplace
  exact hne (hapart key' bytes hmem (.inl habove))

/-- No directory lies at a key that is apart. -/
theorem Mirrors.not_directory (h : Mirrors t calls stored) (hkey : IsPlain key) (hapart : Apart calls key) :
    t.entry? (Path.names key.toList) ≠ some .directory := by
  intro hdirectory
  rcases h.directory _ hdirectory with hroot | ⟨key', content, hmem, -, hprefix⟩
  · exact hkey.names_ne_nil hroot
  · have hbelow := hprefix.trans (List.dropLast_prefix _)
    rw [hapart key' content hmem (.inr hbelow)] at hprefix
    exact not_prefix_dropLast hkey.names_ne_nil hprefix

theorem Mirrors.get_eq (h : Mirrors t calls stored) (hkey : IsPlain key) (hapart : Apart calls key) :
    (files t).get key = reading stored key := by
  unfold reading
  cases hlast : lastAt stored (Path.names key.toList) with
  | some bytes => exact h.get_iff.2 ⟨hkey.isBelowRoot_eq, hkey.endsInName, hlast⟩
  | none =>
    -- Neither a file nor a directory is at the place, and no file is above it.
    have hentry : t.entry? (Path.names key.toList) = none := by
      cases he : t.entry? (Path.names key.toList) with
      | none => rfl
      | some e =>
        cases e with
        | directory => exact absurd he (h.not_directory hkey hapart)
        | file bytes =>
          rw [h.file, hlast] at he
          cases he
    have hopen : t.Open [] (Path.names key.toList) := by
      rw [h.open_iff]
      intro above habove
      by_cases hsame : above = Path.names key.toList
      · rw [hsame, hlast]
      · exact h.nothing_above hapart habove hsame
    have hfollow := FileTree.follow_eq_notFound hopen (by rw [hkey.names_eq]; exact hkey.short) (by simpa using hentry)
    have hnul : key.toList.contains FileTree.nul = false := by simpa using hkey.no_nul
    simp only [get, hkey.isBelowRoot_eq, if_true, FileTree.lookUp, hnul, hfollow, Bool.false_eq_true, if_false]

theorem Mirrors.put_ok (h : Mirrors t calls stored) (hkey : IsPlain key) (hapart : Apart calls key)
    (content : Bytes) : ((files t).put key content).2 = .ok () := by
  refine h.put_ok_iff.2 ⟨hkey.isBelowRoot_eq, hkey.no_nul, hkey.endsInName, ?_, ?_, h.not_directory hkey hapart⟩
  · rw [hkey.names_eq]
    exact hkey.short
  · intro above habove
    refine h.nothing_above hapart (habove.trans (List.dropLast_prefix _)) ?_
    rintro rfl
    exact not_prefix_dropLast hkey.names_ne_nil habove

/-! ### A store in memory -/

theorem reading_concat : reading (stored ++ [(place, content)]) key =
    if place = Path.names key.toList then .ok content else reading stored key := by
  unfold reading
  rw [lastAt_concat]
  by_cases h : place = Path.names key.toList
  · rw [if_pos h, if_pos h]
  · rw [if_neg h, if_neg h]

/-- A store in memory whose plain keys read what was stored. -/
def Remembers (o : ObjectStore) (stored : List (List Path.Name × Bytes)) : Prop :=
  ∃ objects, o = memory objects ∧ ∀ key, IsPlain key → o.get key = reading stored key

theorem remembers_nil : Remembers (memory []) [] :=
  ⟨[], rfl, fun _ _ => rfl⟩

theorem Remembers.put (h : Remembers o stored) (hkey : IsPlain key) (content : Bytes) :
    (o.put key content).2 = .ok () ∧
      Remembers (o.put key content).1 (stored ++ [(Path.names key.toList, content)]) := by
  obtain ⟨objects, rfl, hget⟩ := h
  have hput : (memory objects).put key content =
      (memory ((key, content) :: objects.filter fun p => p.1 != key), .ok ()) := by
    refine if_neg fun hempty => ?_
    rw [String.isEmpty_iff] at hempty
    subst hempty
    cases hkey.not_blank
  rw [hput]
  refine ⟨rfl, _, rfl, ?_⟩
  intro other hother
  rw [reading_concat]
  by_cases hsame : other = key
  · subst hsame
    rw [if_pos rfl]
    simp [ObjectStore.get]
  · rw [if_neg fun hnames => hsame (hkey.names_inj hother hnames).symm, ← hget other hother]
    simp only [ObjectStore.get, find?_replaced _ _ hsame]

theorem contains_eq (h : o.get key = reading stored key) :
    o.contains key = .ok (lastAt stored (Path.names key.toList)).isSome := by
  unfold reading at h
  split at h
  · rename_i hlast
    rw [contains_of_get h, hlast]
    rfl
  · rename_i hlast
    rw [contains_of_get_notFound h, hlast]
    rfl

/-- One call on both stores. -/
theorem Mirrors.call_agrees (h : Mirrors t calls stored) (hmemory : Remembers o stored) {c : Call}
    (hkey : IsPlain c.key) (hapart : Apart calls c.key) :
    ((files t).call c).2 = (o.call c).2 ∧ Remembers (o.call c).1 (stored ++ (files t).stores c) := by
  have hfiles := h.get_eq hkey hapart
  have hread : o.get c.key = reading stored c.key := by
    obtain ⟨_, _, hread⟩ := hmemory
    exact hread c.key hkey
  cases c with
  | put key content =>
    have hput : ((files t).put key content).2 = .ok () := h.put_ok hkey hapart content
    obtain ⟨hput', hremembers⟩ : (o.put key content).2 = .ok () ∧ _ := hmemory.put hkey content
    rw [stores_of_ok hput]
    exact ⟨by rw [ObjectStore.call, ObjectStore.call, hput, hput'], hremembers⟩
  | get key =>
    rw [stores, List.append_nil]
    exact ⟨congrArg Answer.read (hfiles.trans hread.symm), hmemory⟩
  | contains key =>
    rw [stores, List.append_nil]
    exact ⟨congrArg Answer.found ((contains_eq hfiles).trans (contains_eq hread).symm), hmemory⟩

theorem answers_agree (ht : t = .missing ∨ t = .empty) (calls : List Call) (hplain : ∀ c ∈ calls, IsPlain c.key)
    (hapart : ∀ c ∈ calls, Apart calls c.key) :
    (files t).answers calls = (memory []).answers calls ∧
      Remembers ((memory []).after calls) ((files t).stored calls) := by
  induction calls using List.reverseRecOn with
  | nil => exact ⟨rfl, remembers_nil⟩
  | append_singleton calls c ih =>
    have hsub : calls ⊆ calls ++ [c] := List.subset_append_left calls [c]
    obtain ⟨hanswers, hmemory⟩ :=
      ih (fun d hd => hplain d (hsub hd)) (fun d hd => (hapart d (hsub hd)).mono hsub)
    obtain ⟨t', hafter, hmirrors⟩ := mirrors_after ht calls
    have hc : c ∈ calls ++ [c] := by simp
    obtain ⟨hanswer, hremembers⟩ := hmirrors.call_agrees hmemory (hplain c hc) ((hapart c hc).mono hsub)
    rw [answers_concat, answers_concat, stored_concat, after_concat, hafter, hanswers, hanswer]
    exact ⟨rfl, hremembers⟩

/-- Whatever calls are made on a store on files whose root is missing or empty, what they leave is read as a map from
places to what was stored last.  Where every key is plain and nothing that is put lies above or below another key, all
answers are those of a store in memory. -/
theorem refinement (ht : t = .missing ∨ t = .empty) (calls : List Call) :
    (∃ t', (files t).after calls = files t' ∧ Refines t' calls ((files t).stored calls)) ∧
      ((∀ c ∈ calls, IsPlain c.key ∧ Apart calls c.key) →
        (files t).answers calls = (memory []).answers calls) := by
  constructor
  · obtain ⟨t', hafter, hmirrors⟩ := mirrors_after ht calls
    exact ⟨t', hafter, hmirrors.refines⟩
  · intro h
    exact (answers_agree ht calls (fun c hc => (h c hc).1) (fun c hc => (h c hc).2)).1

private theorem isPlain_a : IsPlain "a" := by
  have hsegments : Path.segments "a".toList = [['a']] := by decide
  refine ⟨by decide, ?_, ?_, by decide⟩
  · rw [hsegments]
    simpa using ⟨by decide, by decide, by decide, by decide⟩
  · rw [hsegments]
    decide

/-- The second put finds a directory in its way, the third one has another key for the place of the first.  With one
plain key the answers are those of a store in memory. -/
theorem refinement_overwritten :
    (∃ t', (files .missing).after [.put "a/b" [1], .put "a" [2], .put "./a//b" [3]] = files t' ∧
      (files t').get "a/./b" = .ok [3]) ∧
    (files .missing).answers [.get "a", .put "a" [1], .contains "a"] =
      (memory []).answers [.get "a", .put "a" [1], .contains "a"] := by
  constructor
  · obtain ⟨⟨t', hafter, h⟩, -⟩ := refinement (.inl rfl) [.put "a/b" [1], .put "a" [2], .put "./a//b" [3]]
    have hstored : (files .missing).stored [.put "a/b" [1], .put "a" [2], .put "./a//b" [3]] =
        [([['a'], ['b']], [1]), ([['a'], ['b']], [3])] := by
      decide +kernel
    refine ⟨t', hafter, (h.get _ _).2 ⟨by decide, ⟨['b'], by decide, ?_⟩, ?_⟩⟩
    · exact ⟨by decide, by decide, by decide, by decide⟩
    · rw [hstored]
      decide
  · refine (refinement (.inl rfl) _).2 ?_
    intro c hc
    have hkey : c.key = "a" := by
      simp only [List.mem_cons, List.not_mem_nil, or_false] at hc
      rcases hc with rfl | rfl | rfl <;> rfl
    rw [hkey]
    refine ⟨isPlain_a, ?_⟩
    intro key' content hmem _
    obtain ⟨rfl, rfl⟩ : key' = "a" ∧ content = [1] := by simpa using hmem
    rfl

end ObjectStore

end IngestionQueue
