import IngestionQueue.FileTree
import IngestionQueue.Proofs.Path
import Mathlib.Data.List.Induction

/-!
# Entries of a file tree

What is in a tree stays in it, but for a file that is written again (`FileTree.Keeps`).  In a tree whose entries lie in
directories and have names that are not too long, following names is looking the entry up (`FileTree.Sound.follow_iff`).
A write adds no more than directories on the way to its file, and the file (`FileTree.write_cases`).  It succeeds
exactly if the path may lead to a file, no name is too long, and nothing is in the way (`FileTree.write_ok_iff`).
-/

namespace IngestionQueue

/-- Where one entry is replaced, the others are found as before. -/
theorem find?_replaced {κ β : Type} [BEq κ] [LawfulBEq κ] (entries : List (κ × β)) {k other : κ} (b : β)
    (h : other ≠ k) :
    (((k, b) :: entries.filter fun e => e.1 != k).find? fun e => e.1 == other) =
      entries.find? fun e => e.1 == other := by
  rw [List.find?_cons_of_neg (by simpa using Ne.symm h), List.find?_filter]
  congr 1
  funext e
  by_cases he : e.1 = other
  · simp [he, h]
  · simp [he]

/-- What is above a place is not the place. -/
theorem not_prefix_dropLast {α : Type} {l : List α} (h : l ≠ []) : ¬l <+: l.dropLast := by
  intro hprefix
  have hlength := hprefix.length_le
  have hpos := List.length_pos_iff.2 h
  rw [List.length_dropLast] at hlength
  omega

namespace FileTree

variable {t t' : FileTree} {place other names : List Path.Name} {e x : Entry} {path : List Char}
  {content : Bytes}

@[simp]
theorem entry?_insert (t : FileTree) (place : List Path.Name) (e : Entry) :
    entry? (t.insert place e) place = some e := by
  unfold entry? insert
  simp

theorem entry?_insert_of_ne (h : other ≠ place) : entry? (t.insert place e) other = t.entry? other := by
  unfold entry? insert
  rw [find?_replaced _ _ h]

theorem entry?_of_follow (h : t.follow place names = .ok x) : t.entry? (place ++ names) = some x := by
  induction names generalizing place with
  | nil =>
    simp only [follow] at h
    split at h
    · rename_i e he
      obtain rfl : e = x := by simpa using h
      simpa using he
    · cases h
  | cons name rest ih =>
    simp only [follow] at h
    split at h
    · cases h
    · cases h
    · split at h
      · cases h
      · simpa using ih h

theorem follow_append (h : t.follow place names = .ok .directory) (more : List Path.Name) :
    t.follow place (names ++ more) = t.follow (place ++ names) more := by
  induction names generalizing place with
  | nil => simp
  | cons name rest ih =>
    simp only [follow] at h
    split at h
    · cases h
    · cases h
    · rename_i hentry
      split at h
      · cases h
      · rename_i hname
        rw [List.cons_append, List.append_cons place, ← ih h]
        simp only [follow, hentry, if_neg hname]

/-- An entry elsewhere, where no directory is, is not noticed. -/
theorem follow_insert (h : t.follow place names = .ok x) (hother : t.entry? other ≠ some .directory)
    (hne : other ≠ place ++ names) : (t.insert other e).follow place names = .ok x := by
  induction names generalizing place with
  | nil =>
    rw [List.append_nil] at hne
    simpa only [follow, entry?_insert_of_ne hne.symm] using h
  | cons name rest ih =>
    simp only [follow] at h
    split at h
    · cases h
    · cases h
    · rename_i hentry
      split at h
      · cases h
      · rename_i hname
        -- On the way there are only directories, so the other place is not on it.
        have hplace : place ≠ other := by
          rintro rfl
          exact hother hentry
        have hrest := ih h (by simpa using hne)
        simpa only [follow, entry?_insert_of_ne hplace, hentry, if_neg hname] using hrest

/-- An entry that is put into a directory is found there. -/
theorem follow_insert_concat {name : Path.Name} (h : t.follow [] names = .ok .directory)
    (hname : isTooLong name = false) (hentry : t.entry? (names ++ [name]) ≠ some .directory) :
    (t.insert (names ++ [name]) x).follow [] (names ++ [name]) = .ok x := by
  have habove := follow_insert (e := x) h hentry (by simp)
  have hdirectory := entry?_of_follow habove
  rw [List.nil_append] at hdirectory
  rw [follow_append habove, List.nil_append]
  simp [follow, hdirectory, hname]

/-- Whatever names lead to in one tree, they lead to in the other. -/
def Keeps (t t' : FileTree) : Prop :=
  ∀ place names e, t.follow place names = .ok e → t'.follow place names = .ok e

theorem Keeps.refl (t : FileTree) : t.Keeps t := fun _ _ _ h => h

theorem Keeps.trans {t'' : FileTree} (h : t.Keeps t') (h' : t'.Keeps t'') : t.Keeps t'' :=
  fun place names e hfollow => h' place names e (h place names e hfollow)

theorem keeps_insert (h : t.entry? other = none) : t.Keeps (t.insert other e) := by
  intro place names x hfollow
  refine follow_insert hfollow (by simp [h]) ?_
  rintro rfl
  rw [entry?_of_follow hfollow] at h
  cases h

/-! ### Entries of sound trees -/

/-- Every entry but the root lies in a directory and has a name that is not too long. -/
structure Sound (t : FileTree) : Prop where
  parent : ∀ above name, t.entry? (above ++ [name]) ≠ none → t.entry? above = some .directory
  short : ∀ above name, t.entry? (above ++ [name]) ≠ none → isTooLong name = false

theorem sound_missing : missing.Sound :=
  ⟨fun _ _ h => absurd rfl h, fun _ _ h => absurd rfl h⟩

theorem sound_empty : empty.Sound := by
  have hnone : ∀ above name, empty.entry? (above ++ [name]) = none := by
    intro above name
    simp [empty, entry?]
  exact ⟨fun above name h => absurd (hnone above name) h, fun above name h => absurd (hnone above name) h⟩

/-- The directory for an entry is there, and the name of the entry is not too long. -/
def Ready (t : FileTree) (place : List Path.Name) : Prop :=
  ∀ above name, place = above ++ [name] → t.entry? above = some .directory ∧ isTooLong name = false

theorem ready_nil (t : FileTree) : t.Ready [] := by
  intro above name h
  simp at h

theorem ready_concat {name : Path.Name} (h : t.entry? place = some .directory) (hname : isTooLong name = false) :
    t.Ready (place ++ [name]) := by
  intro above name' hsplit
  obtain ⟨rfl, hlast⟩ := List.append_inj' hsplit rfl
  obtain rfl : name = name' := by simpa using hlast
  exact ⟨h, hname⟩

theorem Sound.insert (h : t.Sound) (hready : t.Ready place) (hold : t.entry? place = some .directory → e = .directory) :
    (t.insert place e).Sound := by
  have hold' : ∀ {above name}, above ++ [name] ≠ place → entry? (t.insert place e) (above ++ [name]) ≠ none →
      t.entry? (above ++ [name]) ≠ none := by
    intro above name hne hentry
    rwa [entry?_insert_of_ne hne] at hentry
  constructor
  · intro above name hentry
    have habove : t.entry? above = some .directory := by
      by_cases hplace : above ++ [name] = place
      · exact (hready above name hplace.symm).1
      · exact h.parent above name (hold' hplace hentry)
    by_cases hsame : above = place
    · subst hsame
      rw [entry?_insert, hold habove]
    · rw [entry?_insert_of_ne hsame, habove]
  · intro above name hentry
    by_cases hplace : above ++ [name] = place
    · exact (hready above name hplace.symm).2
    · exact h.short above name (hold' hplace hentry)

/-- In a sound tree an entry is found by following the names that lead to it. -/
theorem Sound.follow_iff (h : t.Sound) : t.follow [] names = .ok x ↔ t.entry? names = some x := by
  refine ⟨fun hfollow => by simpa using entry?_of_follow hfollow, ?_⟩
  induction names using List.reverseRecOn generalizing x with
  | nil =>
    intro hentry
    simp only [follow, hentry]
  | append_singleton above name ih =>
    intro hentry
    have hsome : t.entry? (above ++ [name]) ≠ none := by simp [hentry]
    have habove := h.parent above name hsome
    rw [follow_append (ih habove), List.nil_append]
    simp [follow, habove, h.short above name hsome, hentry]

/-! ### Directories on the way -/

/-- No file lies on the way from a place along the names, nor at its end. -/
def Open (t : FileTree) (place names : List Path.Name) : Prop :=
  ∀ more, more <+: names → ∀ bytes, t.entry? (place ++ more) ≠ some (.file bytes)

theorem open_nil : t.Open place [] ↔ ∀ bytes, t.entry? place ≠ some (.file bytes) := by
  simp [Open]

theorem open_cons {name : Path.Name} :
    t.Open place (name :: names) ↔
      (∀ bytes, t.entry? place ≠ some (.file bytes)) ∧ t.Open (place ++ [name]) names := by
  constructor
  · intro h
    refine ⟨by simpa using h [] List.nil_prefix, ?_⟩
    intro more hmore bytes
    simpa using h (name :: more) (List.cons_prefix_cons.2 ⟨rfl, hmore⟩) bytes
  · rintro ⟨hplace, hrest⟩ more hmore bytes
    rcases List.prefix_cons_iff.1 hmore with rfl | ⟨more', rfl, hmore'⟩
    · simpa using hplace bytes
    · simpa using hrest more' hmore' bytes

/-- A new directory changes no file. -/
theorem file_insert_directory {bytes : Bytes} (h : t.entry? place = none) :
    entry? (t.insert place .directory) other = some (.file bytes) ↔ t.entry? other = some (.file bytes) := by
  by_cases hother : other = place
  · subst hother
    simp [h]
  · rw [entry?_insert_of_ne hother]

/-- Where no file is in the way and nothing is at the end, nothing is found. -/
theorem follow_eq_notFound (hopen : t.Open place names) (hshort : ∀ name ∈ names, isTooLong name = false)
    (hnone : t.entry? (place ++ names) = none) : t.follow place names = .error .notFound := by
  induction names generalizing place with
  | nil =>
    rw [List.append_nil] at hnone
    simp only [follow, hnone]
  | cons name rest ih =>
    obtain ⟨hplace, hrest⟩ := open_cons.1 hopen
    cases hentry : t.entry? place with
    | none => simp only [follow, hentry]
    | some e =>
      cases e with
      | file bytes => exact absurd hentry (hplace bytes)
      | directory =>
        have hname := hshort name List.mem_cons_self
        have hfollow := ih hrest (fun n hn => hshort n (List.mem_cons_of_mem _ hn)) (by simpa using hnone)
        simp only [follow, hentry, hname, Bool.false_eq_true, if_false, hfollow]

/-! ### Directories that are created -/

theorem keeps_makeDirectories (t : FileTree) (place names : List Path.Name) :
    t.Keeps (t.makeDirectories place names).1 := by
  fun_induction makeDirectories t place names with
  | case1 t place content hentry => exact .refl t
  | case2 t place content name rest hentry => exact .refl t
  | case3 t place hentry => exact .refl t
  | case4 t place hentry => exact keeps_insert hentry
  | case5 t place name rest hentry hname => exact .refl t
  | case6 t place name rest hentry hname ih => exact ih
  | case7 t place name rest hentry _ hname => exact keeps_insert hentry
  | case8 t place name rest hentry _ hname ih => exact (keeps_insert hentry).trans ih

/-- Directories that were created are there. -/
theorem follow_makeDirectories (h : (t.makeDirectories place names).2 = .ok ()) :
    (t.makeDirectories place names).1.follow place names = .ok .directory := by
  -- The place itself is followed in the tree that the directories below it leave.
  have hstep : ∀ (t : FileTree) (place : List Path.Name) (name : Path.Name) (rest : List Path.Name),
      t.entry? place = some .directory → ¬isTooLong name = true →
      (t.makeDirectories (place ++ [name]) rest).1.follow (place ++ [name]) rest = .ok .directory →
      (t.makeDirectories (place ++ [name]) rest).1.follow place (name :: rest) = .ok .directory := by
    intro t place name rest hentry hname hrest
    have hplace := keeps_makeDirectories t (place ++ [name]) rest place [] .directory (by simp [follow, hentry])
    have hkept := entry?_of_follow hplace
    rw [List.append_nil] at hkept
    simp only [follow, hkept, if_neg hname, hrest]
  fun_induction makeDirectories t place names with
  | case1 t place content hentry => cases h
  | case2 t place content name rest hentry => cases h
  | case3 t place hentry => simp [follow, hentry]
  | case4 t place hentry => simp [follow]
  | case5 t place name rest hentry hname => cases h
  | case6 t place name rest hentry hname ih => exact hstep t place name rest hentry hname (ih h)
  | case7 t place name rest hentry _ hname => cases h
  | case8 t place name rest hentry _ hname ih =>
    exact hstep _ place name rest (entry?_insert t place .directory) hname (ih h)

theorem Sound.makeDirectories (h : t.Sound) (hready : t.Ready place) :
    (t.makeDirectories place names).1.Sound := by
  fun_induction FileTree.makeDirectories t place names with
  | case1 t place content hentry => exact h
  | case2 t place content name rest hentry => exact h
  | case3 t place hentry => exact h
  | case4 t place hentry => exact h.insert hready (fun _ => rfl)
  | case5 t place name rest hentry hname => exact h
  | case6 t place name rest hentry hname ih => exact ih h (ready_concat hentry (by simpa using hname))
  | case7 t place name rest hentry _ hname => exact h.insert hready (fun _ => rfl)
  | case8 t place name rest hentry _ hname ih =>
    exact ih (h.insert hready fun _ => rfl) (ready_concat (entry?_insert t place .directory) (by simpa using hname))

/-- Directories are created on the way, where nothing was. -/
theorem entry?_makeDirectories (t : FileTree) (place names other : List Path.Name) :
    entry? (t.makeDirectories place names).1 other = t.entry? other ∨
      t.entry? other = none ∧ entry? (t.makeDirectories place names).1 other = some .directory ∧
        other <+: place ++ names := by
  -- What holds for the place itself, once its directory is there, and for the rest of the way.
  have hinsert : ∀ (t : FileTree) (place names : List Path.Name), t.entry? place = none →
      entry? (t.insert place .directory) other = t.entry? other ∨
        t.entry? other = none ∧ entry? (t.insert place .directory) other = some .directory ∧
          other <+: place ++ names := by
    intro t place names hnone
    by_cases hother : other = place
    · subst hother
      exact .inr ⟨hnone, entry?_insert t other .directory, List.prefix_append other names⟩
    · exact .inl (entry?_insert_of_ne hother)
  fun_induction FileTree.makeDirectories t place names with
  | case1 t place content hentry => exact .inl rfl
  | case2 t place content name rest hentry => exact .inl rfl
  | case3 t place hentry => exact .inl rfl
  | case4 t place hentry => exact hinsert t place [] hentry
  | case5 t place name rest hentry hname => exact .inl rfl
  | case6 t place name rest hentry hname ih => simpa using ih
  | case7 t place name rest hentry _ hname => exact hinsert t place (name :: rest) hentry
  | case8 t place name rest hentry _ hname ih =>
    rw [List.append_assoc, List.cons_append, List.nil_append] at ih
    rcases ih with hsame | ⟨hnone, hdirectory, hprefix⟩
    · rw [hsame]
      exact hinsert t place (name :: rest) hentry
    · rcases hinsert t place (name :: rest) hentry with hsame | ⟨_, hthere, _⟩
      · exact .inr ⟨by rw [← hsame, hnone], hdirectory, hprefix⟩
      · rw [hthere] at hnone
        cases hnone

theorem makeDirectories_ok_iff : (t.makeDirectories place names).2 = .ok () ↔
    t.Open place names ∧ ∀ name ∈ names, isTooLong name = false := by
  fun_induction FileTree.makeDirectories t place names with
  | case1 t place content hentry => simp [open_nil, hentry]
  | case2 t place content name rest hentry => simp [open_cons, hentry]
  | case3 t place hentry => simp [open_nil, hentry]
  | case4 t place hentry => simp [open_nil, hentry]
  | case5 t place name rest hentry hname => simp [hname]
  | case6 t place name rest hentry hname ih =>
    rw [ih, open_cons, List.forall_mem_cons]
    simp [hentry, hname]
  | case7 t place name rest hentry _ hname => simp [hname]
  | case8 t place name rest hentry _ hname ih =>
    have hsame : (t.insert place .directory).Open (place ++ [name]) rest ↔ t.Open (place ++ [name]) rest := by
      unfold Open
      simp only [ne_eq, file_insert_directory hentry]
    rw [ih, hsame, open_cons, List.forall_mem_cons]
    simp [hentry, hname]

/-! ### Files that are written -/

/-- A path may lead to a file if it has no zero and does not ask for a directory. -/
def Fits (path : List Char) : Prop :=
  path.contains nul = false ∧ wantsDirectory path = false

theorem lookUp_eq_file : t.lookUp path = .ok (.file content) ↔
    Fits path ∧ t.follow [] (Path.names path) = .ok (.file content) := by
  simp only [lookUp, Fits]
  cases path.contains nul with
  | true => simp
  | false =>
    cases hfollow : t.follow [] (Path.names path) with
    | error fault => simp
    | ok e =>
      cases e with
      | directory => simp
      | file bytes => cases wantsDirectory path <;> simp

/-- A path that never goes up may lead to a file if it ends with a name. -/
theorem wantsDirectory_eq_false_iff (hpath : path ≠ []) (hclimbs : Path.climbs path = false) :
    wantsDirectory path = false ↔ Path.EndsInName path := by
  obtain ⟨s, hlast⟩ : ∃ s, (Path.segments path).getLast? = some s := by
    cases hsegments : (Path.segments path).getLast? with
    | none => exact absurd (List.getLast?_eq_none_iff.1 hsegments) (Path.splitAt_ne_nil _ path)
    | some s => exact ⟨s, rfl⟩
  have hends : Path.EndsInName path ↔ Path.IsName s := by simp [Path.EndsInName, hlast]
  have hmem := List.mem_of_getLast? hlast
  rw [hends]
  by_cases hs : s = []
  · -- The path ends with a slash.
    subst hs
    have hslash := (Path.getLast?_segments_eq_nil_iff hpath).1 hlast
    exact iff_of_false (by simp [wantsDirectory, hslash]) fun h => h.nonempty rfl
  · have hslash : path.getLast? ≠ some '/' := by
      intro h
      rw [(Path.getLast?_segments_eq_nil_iff hpath).2 h] at hlast
      exact hs (Option.some.inj hlast).symm
    have hsegment : lastSegment path = s := by
      obtain ⟨init, hinit⟩ := List.getLast?_eq_some_iff.1 hlast
      simp [lastSegment, hinit, hs]
    have hwants : wantsDirectory path = false ↔ s ≠ ['.'] := by simp [wantsDirectory, hslash, hsegment]
    rw [hwants]
    refine ⟨fun hdot => ⟨hs, hdot, ?_, Path.slash_not_mem_of_mem_segments hmem⟩, fun h => h.not_stay⟩
    rintro rfl
    exact Path.climbs_eq_false_iff.1 hclimbs hmem

/-- The path may lead to a file, and its last name can be given to one. -/
def Creates (t : FileTree) (path : List Char) : Prop :=
  Fits path ∧ isTooLong ((Path.names path).getLastD []) = false ∧ t.entry? (Path.names path) ≠ some .directory

theorem Creates.create_eq (h : t.Creates path) (content : Bytes) :
    t.create path content = (t.insert (Path.names path) (.file content), .ok ()) := by
  obtain ⟨⟨hnul, hwants⟩, hlong, hentry⟩ := h
  have hdot : (lastSegment path == ['.']) = false := by
    unfold wantsDirectory at hwants
    exact (Bool.or_eq_false_iff.1 hwants).2
  simp only [create, hnul, hdot, hwants, hlong, Bool.false_eq_true, if_false]

theorem create_eq_error (h : ¬t.Creates path) (content : Bytes) :
    ∃ fault, t.create path content = (t, .error fault) := by
  simp only [create]
  split
  · exact ⟨_, rfl⟩
  · rename_i hnul
    split
    · split <;> exact ⟨_, rfl⟩
    · split
      · exact ⟨_, rfl⟩
      · rename_i hwants
        split
        · exact ⟨_, rfl⟩
        · rename_i hlong
          split
          · exact ⟨_, rfl⟩
          · rename_i hentry
            exact absurd ⟨⟨by simpa using hnul, by simpa using hwants⟩, by simpa using hlong, hentry⟩ h

theorem create_ok_iff : (t.create path content).2 = .ok () ↔ t.Creates path := by
  by_cases h : t.Creates path
  · simp [h.create_eq content, h]
  · obtain ⟨fault, hcreate⟩ := create_eq_error h content
    simp [hcreate, h]

/-- Directories on the way to a place are all that a tree has gained. -/
structure Grows (t t' : FileTree) (place : List Path.Name) : Prop where
  keeps : t.Keeps t'
  sound : t.Sound → t'.Sound
  entry : ∀ other, t'.entry? other = t.entry? other ∨
    t.entry? other = none ∧ t'.entry? other = some .directory ∧ other <+: place.dropLast

theorem Grows.refl (t : FileTree) (place : List Path.Name) : t.Grows t place :=
  ⟨.refl t, id, fun _ => .inl rfl⟩

theorem grows_makeDirectories (t : FileTree) (place : List Path.Name) :
    t.Grows (t.makeDirectories [] place.dropLast).1 place :=
  ⟨t.keeps_makeDirectories [] place.dropLast, fun h => h.makeDirectories (ready_nil t),
    t.entry?_makeDirectories [] place.dropLast⟩

theorem Grows.file_iff {bytes : Bytes} (h : t.Grows t' place) :
    t'.entry? other = some (.file bytes) ↔ t.entry? other = some (.file bytes) := by
  rcases h.entry other with hsame | ⟨hnone, hdirectory, -⟩
  · rw [hsame]
  · simp [hnone, hdirectory]

/-- At the place itself nothing has changed. -/
theorem Grows.entry?_eq (h : t.Grows t' place) (hplace : place ≠ []) : t'.entry? place = t.entry? place := by
  rcases h.entry place with hsame | ⟨-, -, hprefix⟩
  · exact hsame
  · exact absurd hprefix (not_prefix_dropLast hplace)

private theorem write_eq (hnames : Path.names path ≠ []) :
    t.write path content =
      if (Path.names path).dropLast.any fun name => name.contains nul then (t, .error .nulInName)
      else match t.makeDirectories [] (Path.names path).dropLast with
        | (t, .error fault) => (t, .error fault)
        | (t, .ok ()) => t.create path content := by
  unfold write
  split
  · contradiction
  · rfl

/-- A file is created in a tree that has grown on the way to it, or the write fails. -/
theorem write_cases (t : FileTree) (path : List Char) (content : Bytes) :
    ∃ t', t.Grows t' (Path.names path) ∧
      ((∃ fault, t.write path content = (t', .error fault)) ∨
        (Fits path ∧ t'.entry? (Path.names path) ≠ some .directory ∧ t'.Ready (Path.names path) ∧
          (t'.insert (Path.names path) (.file content)).follow [] (Path.names path) = .ok (.file content) ∧
          t.write path content = (t'.insert (Path.names path) (.file content), .ok ()))) := by
  by_cases hnames : Path.names path = []
  · have hwrite : t.write path content = t.create path content := by rw [write, hnames]
    refine ⟨t, .refl t _, ?_⟩
    rw [hwrite]
    by_cases hcreates : t.Creates path
    · refine .inr ⟨hcreates.1, hcreates.2.2, ?_, ?_, hcreates.create_eq content⟩
      · rw [hnames]
        exact ready_nil t
      · simp [hnames, follow]
    · exact .inl (create_eq_error hcreates content)
  · -- The file is created in the tree that the directories above it leave, which may be all that stays.
    obtain ⟨above, last, hsplit⟩ := (List.eq_nil_or_concat' (Path.names path)).resolve_left hnames
    have hgrows := t.grows_makeDirectories (Path.names path)
    have habove : (Path.names path).dropLast = above := by simp [hsplit]
    have hlast : (Path.names path).getLastD [] = last := by simp [hsplit]
    rw [habove] at hgrows
    simp only [write_eq hnames, habove]
    by_cases hnul : (above.any fun name => name.contains nul) = true
    · exact ⟨t, .refl t _, .inl ⟨_, if_pos hnul⟩⟩
    simp only [if_neg hnul]
    have hdirectories : (t.makeDirectories [] above).2 = .ok () →
        (t.makeDirectories [] above).1.follow [] above = .ok .directory := follow_makeDirectories
    generalize t.makeDirectories [] above = made at hgrows hdirectories
    obtain ⟨t', fault | _⟩ := made
    · exact ⟨t', hgrows, .inl ⟨fault, rfl⟩⟩
    · refine ⟨t', hgrows, ?_⟩
      by_cases hcreates : t'.Creates path
      · obtain ⟨hfits, hlong, hentry⟩ := id hcreates
        rw [hlast] at hlong
        have hfollow := hdirectories rfl
        have hready := ready_concat (by simpa using entry?_of_follow hfollow) hlong
        rw [← hsplit] at hready
        refine .inr ⟨hfits, hentry, hready, ?_, hcreates.create_eq content⟩
        rw [hsplit] at hentry ⊢
        exact follow_insert_concat hfollow hlong hentry
      · exact .inl (create_eq_error hcreates content)

/-- A write succeeds exactly if the path may lead to a file, no name is too long, and nothing is in the way. -/
theorem write_ok_iff (hnames : Path.names path ≠ []) : (t.write path content).2 = .ok () ↔
    Fits path ∧ (∀ name ∈ Path.names path, isTooLong name = false) ∧ t.Open [] (Path.names path).dropLast ∧
      t.entry? (Path.names path) ≠ some .directory := by
  have hgrows := t.grows_makeDirectories (Path.names path)
  have hshort : (∀ name ∈ Path.names path, isTooLong name = false) ↔
      (∀ name ∈ (Path.names path).dropLast, isTooLong name = false) ∧
        isTooLong ((Path.names path).getLastD []) = false := by
    obtain ⟨above, last, hsplit⟩ := (List.eq_nil_or_concat' (Path.names path)).resolve_left hnames
    simp [hsplit, or_imp, forall_and]
  rw [write_eq hnames, hshort]
  by_cases hnul : ((Path.names path).dropLast.any fun name => name.contains nul) = true
  · rw [if_pos hnul]
    refine iff_of_false (by simp) fun ⟨hfits, _⟩ => ?_
    obtain ⟨name, hname, hmem⟩ : ∃ name ∈ (Path.names path).dropLast, nul ∈ name := by simpa using hnul
    have hsegment := (Path.mem_names.1 (List.dropLast_subset _ hname)).1
    have hpath : nul ∈ path := (Path.mem_segments_iff (by decide)).1 ⟨name, hsegment, hmem⟩
    simpa [hpath] using hfits.1
  · rw [if_neg hnul]
    have hmake : (t.makeDirectories [] (Path.names path).dropLast).2 = .ok () ↔ _ := makeDirectories_ok_iff
    have hcreates : (t.makeDirectories [] (Path.names path).dropLast).1.Creates path ↔
        Fits path ∧ isTooLong ((Path.names path).getLastD []) = false ∧
          t.entry? (Path.names path) ≠ some .directory := by
      rw [Creates, hgrows.entry?_eq hnames]
    generalize t.makeDirectories [] (Path.names path).dropLast = made at hmake hcreates
    obtain ⟨t', fault | _⟩ := made
    · have hblocked := hmake.not.1 (by simp)
      exact iff_of_false (by simp) fun ⟨_, ⟨hshort, _⟩, hopen, _⟩ => hblocked ⟨hopen, hshort⟩
    · obtain ⟨hopen, hshort⟩ := hmake.1 rfl
      show (t'.create path content).2 = .ok () ↔ _
      rw [create_ok_iff, hcreates]
      tauto

end FileTree

end IngestionQueue
