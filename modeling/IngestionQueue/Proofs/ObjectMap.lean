import IngestionQueue.Proofs.ObjectStore

/-!
# A store on files as a map

Keys lead to places, and several keys may lead to one.  Every call, failing or not, keeps the files of a tree what was
stored last at their places (`ObjectStore.Mirrors.call`).  So after any calls a key that ends with a name reads what was
stored last at its place, and directories are left behind but never read (`ObjectStore.Mirrors.refines`).
-/

namespace IngestionQueue

namespace ObjectStore

/-! ### Calls -/

inductive Call
  | put (key : String) (content : Bytes)
  | get (key : String)
  | contains (key : String)
  deriving DecidableEq, Repr

inductive Answer
  | stored (result : Except ObjectError Unit)
  | read (result : Except ObjectError Bytes)
  | found (result : Except ObjectError Bool)

namespace Call

def key : Call → String
  | put key _ => key
  | get key => key
  | contains key => key

/-- The answer to a call whose key is no key of the store. -/
def refusal : Call → Answer
  | put key _ => .stored (.error (.invalidKey key))
  | get key => .read (.error (.invalidKey key))
  | contains key => .found (.error (.invalidKey key))

end Call

/-- The store that a call leaves, and the answer to it. -/
def call (o : ObjectStore) : Call → ObjectStore × Answer
  | .put key content => ((o.put key content).1, .stored (o.put key content).2)
  | .get key => (o, .read (o.get key))
  | .contains key => (o, .found (o.contains key))

def after (o : ObjectStore) (calls : List Call) : ObjectStore :=
  calls.foldl (fun o c => (o.call c).1) o

def answers (o : ObjectStore) : List Call → List Answer
  | [] => []
  | c :: calls => (o.call c).2 :: (o.call c).1.answers calls

/-- The object that a call stores, under the names of its key, unless the call is no put or fails. -/
def stores (o : ObjectStore) : Call → List (List Path.Name × Bytes)
  | .put key content => if (o.put key content).2.isOk then [(Path.names key.toList, content)] else []
  | .get _ => []
  | .contains _ => []

/-- What calls have stored, one after the other. -/
def stored (o : ObjectStore) : List Call → List (List Path.Name × Bytes)
  | [] => []
  | c :: calls => o.stores c ++ (o.call c).1.stored calls

/-- What was stored last at a place. -/
def lastAt (stored : List (List Path.Name × Bytes)) (place : List Path.Name) : Option Bytes :=
  ((stored.filter fun s => s.1 == place).getLast?).map Prod.snd

variable {o : ObjectStore} {t : FileTree} {calls : List Call} {stored : List (List Path.Name × Bytes)}
  {place other : List Path.Name} {bytes content : Bytes} {key : String}

theorem after_concat (o : ObjectStore) (calls : List Call) (c : Call) :
    o.after (calls ++ [c]) = ((o.after calls).call c).1 := by
  simp [after]

theorem answers_concat (o : ObjectStore) (calls : List Call) (c : Call) :
    o.answers (calls ++ [c]) = o.answers calls ++ [((o.after calls).call c).2] := by
  induction calls generalizing o with
  | nil => rfl
  | cons d calls ih =>
    rw [List.cons_append, answers, ih]
    rfl

theorem stored_concat (o : ObjectStore) (calls : List Call) (c : Call) :
    o.stored (calls ++ [c]) = o.stored calls ++ (o.after calls).stores c := by
  induction calls generalizing o with
  | nil => simp [ObjectStore.stored, after]
  | cons d calls ih =>
    rw [List.cons_append, ObjectStore.stored, ih, ObjectStore.stored, List.append_assoc]
    rfl

theorem stores_of_ok (h : (o.put key content).2 = .ok ()) :
    o.stores (.put key content) = [(Path.names key.toList, content)] := by
  rw [stores, h]
  rfl

theorem stores_of_not_ok (h : (o.put key content).2 ≠ .ok ()) : o.stores (.put key content) = [] := by
  rw [stores]
  cases hput : (o.put key content).2 with
  | error e => rfl
  | ok _ => exact absurd hput h

theorem lastAt_concat : lastAt (stored ++ [(place, content)]) other =
    if place = other then some content else lastAt stored other := by
  unfold lastAt
  rw [List.filter_append]
  by_cases h : place = other
  · simp [h]
  · simp [h]

theorem mem_of_lastAt (h : lastAt stored place = some bytes) : (place, bytes) ∈ stored := by
  obtain ⟨s, hlast, rfl⟩ := Option.map_eq_some_iff.1 h
  obtain ⟨hmem, hplace⟩ := List.mem_filter.1 (List.mem_of_getLast? hlast)
  obtain rfl : s.1 = place := by simpa using hplace
  exact hmem

/-! ### What calls make of an empty root -/

/-- A tree in which every file is what was stored last at its place, and every directory is above some key. -/
structure Mirrors (t : FileTree) (calls : List Call) (stored : List (List Path.Name × Bytes)) : Prop where
  sound : t.Sound
  file : ∀ place bytes, t.entry? place = some (.file bytes) ↔ lastAt stored place = some bytes
  origin : ∀ s ∈ stored, ∃ key, .put key s.2 ∈ calls ∧ isBelowRoot key = true ∧
    FileTree.Fits key.toList ∧ s.1 = Path.names key.toList
  directory : ∀ place, t.entry? place = some .directory → place = [] ∨
    ∃ key content, .put key content ∈ calls ∧ isBelowRoot key = true ∧ place <+: (Path.names key.toList).dropLast

theorem mirrors_nil (ht : t = .missing ∨ t = .empty) : Mirrors t [] [] := by
  have hentry : ∀ place e, t.entry? place = some e → place = [] ∧ e = .directory := by
    intro place e h
    rcases ht with rfl | rfl
    · cases h
    · cases place with
      | nil => exact ⟨rfl, by simpa [FileTree.empty, FileTree.entry?] using h.symm⟩
      | cons name rest => simp [FileTree.empty, FileTree.entry?] at h
  refine ⟨?_, ?_, by simp, fun place h => .inl (hentry place _ h).1⟩
  · rcases ht with rfl | rfl
    · exact FileTree.sound_missing
    · exact FileTree.sound_empty
  · intro place bytes
    refine iff_of_false (fun h => ?_) (by simp [lastAt])
    cases (hentry place _ h).2

theorem Mirrors.mono {calls' : List Call} (h : Mirrors t calls stored) (hcalls : calls ⊆ calls') :
    Mirrors t calls' stored := by
  refine ⟨h.sound, h.file, ?_, ?_⟩
  · intro s hs
    obtain ⟨key, hmem, hkey⟩ := h.origin s hs
    exact ⟨key, hcalls hmem, hkey⟩
  · intro place hplace
    rcases h.directory place hplace with hroot | ⟨key, content, hmem, hkey⟩
    · exact .inl hroot
    · exact .inr ⟨key, content, hcalls hmem, hkey⟩

theorem Mirrors.grows {t' : FileTree} (h : Mirrors t calls stored) (hgrows : t.Grows t' (Path.names key.toList))
    (hkey : isBelowRoot key = true) : Mirrors t' (calls ++ [.put key content]) stored := by
  have hmono := h.mono (List.subset_append_left calls [.put key content])
  refine ⟨hgrows.sound h.sound, fun place bytes => hgrows.file_iff.trans (h.file place bytes), hmono.origin, ?_⟩
  intro place hplace
  rcases hgrows.entry place with hsame | ⟨-, -, hprefix⟩
  · exact hmono.directory place (by rwa [hsame] at hplace)
  · exact .inr ⟨key, content, by simp, hkey, hprefix⟩

theorem Mirrors.insert (h : Mirrors t calls stored) (hmem : .put key content ∈ calls)
    (hkey : isBelowRoot key = true) (hfits : FileTree.Fits key.toList)
    (hentry : t.entry? (Path.names key.toList) ≠ some .directory) (hready : t.Ready (Path.names key.toList)) :
    Mirrors (t.insert (Path.names key.toList) (.file content)) calls
      (stored ++ [(Path.names key.toList, content)]) := by
  refine ⟨h.sound.insert hready fun hdirectory => absurd hdirectory hentry, ?_, ?_, ?_⟩
  · intro place bytes
    rw [lastAt_concat]
    by_cases hplace : Path.names key.toList = place
    · subst hplace
      simp
    · rw [if_neg hplace, FileTree.entry?_insert_of_ne (Ne.symm hplace)]
      exact h.file place bytes
  · intro s hs
    rcases List.mem_append.1 hs with hold | hnew
    · exact h.origin s hold
    · obtain rfl : s = (Path.names key.toList, content) := by simpa using hnew
      exact ⟨key, hmem, hkey, hfits, rfl⟩
  · intro place hplace
    by_cases hsame : place = Path.names key.toList
    · subst hsame
      simp at hplace
    · rw [FileTree.entry?_insert_of_ne hsame] at hplace
      exact h.directory place hplace

/-- One more call. -/
theorem Mirrors.call (h : Mirrors t calls stored) (c : Call) : ∃ t', ((files t).call c).1 = files t' ∧
    Mirrors t' (calls ++ [c]) (stored ++ (files t).stores c) := by
  cases c with
  | put key content =>
    simp only [ObjectStore.call]
    by_cases hkey : isBelowRoot key = true
    · obtain ⟨t', hgrows, ⟨e, hput⟩ | ⟨_, hfits, hentry, hready, _, hput⟩⟩ := put_files_cases t key content
      · refine ⟨t', by rw [hput], ?_⟩
        rw [stores_of_not_ok (by simp [hput]), List.append_nil]
        exact h.grows hgrows hkey
      · refine ⟨t'.insert (Path.names key.toList) (.file content), by rw [hput], ?_⟩
        rw [stores_of_ok (by rw [hput])]
        exact (h.grows hgrows hkey).insert (by simp) hkey hfits hentry hready
    · have hput : (files t).put key content = (files t, .error (.invalidKey key)) := if_neg hkey
      refine ⟨t, by rw [hput], ?_⟩
      rw [stores_of_not_ok (by simp [hput]), List.append_nil]
      exact h.mono (List.subset_append_left _ _)
  | get key => exact ⟨t, rfl, by simpa [stores] using h.mono (List.subset_append_left calls _)⟩
  | contains key => exact ⟨t, rfl, by simpa [stores] using h.mono (List.subset_append_left calls _)⟩

theorem mirrors_after (ht : t = .missing ∨ t = .empty) (calls : List Call) :
    ∃ t', (files t).after calls = files t' ∧ Mirrors t' calls ((files t).stored calls) := by
  induction calls using List.reverseRecOn with
  | nil => exact ⟨t, rfl, mirrors_nil ht⟩
  | append_singleton calls c ih =>
    obtain ⟨t', hafter, hmirrors⟩ := ih
    rw [after_concat, stored_concat, hafter]
    exact hmirrors.call c

/-! ### What is read and what can be stored -/

/-- A key leads to a file if it has no zero and ends with a name. -/
theorem fits_iff (hkey : isBelowRoot key = true) :
    FileTree.Fits key.toList ↔ FileTree.nul ∉ key.toList ∧ Path.EndsInName key.toList := by
  obtain ⟨hblank, -, hclimbs⟩ := isBelowRoot_iff.1 hkey
  have hpath : key.toList ≠ [] := by
    intro hnil
    rw [Text.isBlankText, hnil] at hblank
    cases hblank
  rw [FileTree.Fits, FileTree.wantsDirectory_eq_false_iff hpath (Path.climbs_eq_false_iff.2 hclimbs)]
  simp

theorem contains_of_get (h : o.get key = .ok content) : o.contains key = .ok true := by
  cases o with
  | memory objects =>
    simp only [get, contains] at h ⊢
    rw [← List.isSome_find?]
    split at h
    · rename_i hfind
      simp [hfind]
    · cases h
  | files t =>
    obtain ⟨hkey, hlook⟩ := get_files_iff.1 h
    simp only [contains, hkey, if_true, FileTree.lookUp_eq_file.2 hlook]

theorem contains_of_get_notFound {other : String} (h : o.get key = .error (.notFound other)) :
    o.contains key = .ok false := by
  cases o with
  | memory objects =>
    simp only [get, contains] at h ⊢
    rw [← List.isSome_find?]
    split at h
    · cases h
    · rename_i hfind
      simp [hfind]
  | files t =>
    simp only [get, contains] at h ⊢
    split at h
    · rename_i hkey
      rw [if_pos hkey]
      split at h
      · cases h
      · cases h
      · rfl
      · cases h
    · cases h

/-- There is an object under exactly the keys that can be read. -/
theorem contains_eq_true_iff : o.contains key = .ok true ↔ ∃ content, o.get key = .ok content := by
  refine ⟨fun h => ?_, fun ⟨content, h⟩ => contains_of_get h⟩
  cases o with
  | memory objects =>
    simp only [get, contains] at h ⊢
    rw [← List.isSome_find?] at h
    cases hfind : objects.find? fun p => p.1 == key with
    | none => simp [hfind] at h
    | some p => exact ⟨p.2, rfl⟩
  | files t =>
    simp only [get, contains] at h ⊢
    split at h
    · rename_i hkey
      rw [if_pos hkey]
      split at h
      · rename_i content hlook
        exact ⟨content, rfl⟩
      · cases h
      · cases h
      · cases h
    · cases h

/-- Names without a zero are the names of paths without one. -/
theorem Mirrors.nul_not_mem (h : Mirrors t calls stored)
    (hlast : lastAt stored (Path.names key.toList) = some bytes) : FileTree.nul ∉ key.toList := by
  obtain ⟨key', -, hkey', hfits, hnames⟩ := h.origin _ (mem_of_lastAt hlast)
  intro hmem
  obtain ⟨s, hs, hnul⟩ := (Path.mem_segments_iff (by decide)).2 hmem
  have hname : s ∈ Path.names key.toList := by
    refine Path.mem_names.2 ⟨hs, List.ne_nil_of_mem hnul, ?_⟩
    rintro rfl
    simp [FileTree.nul] at hnul
  rw [← show Path.names key'.toList = Path.names key.toList from hnames.symm] at hname
  have hmem' := (Path.mem_segments_iff (by decide)).1 ⟨s, (Path.mem_names.1 hname).1, hnul⟩
  exact ((fits_iff hkey').1 hfits).1 hmem'

theorem Mirrors.get_iff (h : Mirrors t calls stored) : (files t).get key = .ok bytes ↔
    isBelowRoot key = true ∧ Path.EndsInName key.toList ∧
      lastAt stored (Path.names key.toList) = some bytes := by
  rw [get_files_iff, h.sound.follow_iff, h.file]
  refine and_congr_right fun hkey => ?_
  rw [fits_iff hkey]
  constructor
  · rintro ⟨⟨-, hends⟩, hlast⟩
    exact ⟨hends, hlast⟩
  · rintro ⟨hends, hlast⟩
    exact ⟨⟨h.nul_not_mem hlast, hends⟩, hlast⟩

theorem put_files_ok_iff (hkey : isBelowRoot key = true) :
    ((files t).put key content).2 = .ok () ↔ (t.write key.toList content).2 = .ok () := by
  simp only [put, hkey, if_true]
  obtain ⟨t', fault | _⟩ := t.write key.toList content
  · simp
  · simp

/-- No file is above a place if nothing was stored there. -/
theorem Mirrors.open_iff (h : Mirrors t calls stored) :
    t.Open [] place ↔ ∀ above, above <+: place → lastAt stored above = none := by
  unfold FileTree.Open
  simp only [List.nil_append, ne_eq, h.file, Option.eq_none_iff_forall_ne_some]

theorem Mirrors.put_ok_iff (h : Mirrors t calls stored) : ((files t).put key content).2 = .ok () ↔
    isBelowRoot key = true ∧ FileTree.nul ∉ key.toList ∧ Path.EndsInName key.toList ∧
      (∀ name ∈ Path.names key.toList, FileTree.isTooLong name = false) ∧
      (∀ above, above <+: (Path.names key.toList).dropLast → lastAt stored above = none) ∧
      t.entry? (Path.names key.toList) ≠ some .directory := by
  by_cases hkey : isBelowRoot key = true
  · by_cases hends : Path.EndsInName key.toList
    · rw [put_files_ok_iff hkey, ← h.open_iff, FileTree.write_ok_iff hends.names_ne_nil, fits_iff hkey]
      tauto
    · refine iff_of_false (fun hok => ?_) fun ⟨_, _, hname, _⟩ => hends hname
      obtain ⟨t', -, ⟨e, hput⟩ | ⟨-, hfits, -⟩⟩ := put_files_cases t key content
      · rw [hput] at hok
        cases hok
      · exact hends ((fits_iff hkey).1 hfits).2
  · have hput : (files t).put key content = (files t, .error (.invalidKey key)) := if_neg hkey
    rw [hput]
    exact iff_of_false (by simp) fun ⟨hkey', _⟩ => hkey hkey'

/-- What is read after one more put. -/
theorem Mirrors.get_put_iff {other : String} (h : Mirrors t calls stored) :
    ((files t).put key content).1.get other = .ok bytes ↔
      isBelowRoot other = true ∧ Path.EndsInName other.toList ∧
        lastAt (stored ++ (files t).stores (.put key content)) (Path.names other.toList) = some bytes := by
  obtain ⟨t', hput, hmirrors⟩ := h.call (.put key content)
  rw [ObjectStore.call] at hput
  rw [hput, hmirrors.get_iff]

/-- What a store on files shows: `calls` were made, and `stored` is what they have stored. -/
structure Refines (t : FileTree) (calls : List Call) (stored : List (List Path.Name × Bytes)) : Prop where
  /-- A key that is blank, absolute, or steps to a parent is refused, and nothing changes. -/
  refused : ∀ c : Call,
    Text.isBlankText c.key = true ∨ Path.isAbsolute c.key.toList = true ∨ ['.', '.'] ∈ Path.segments c.key.toList →
      (files t).call c = (files t, c.refusal)
  /-- A file lies where an accepted key leads, which is below the root. -/
  file : ∀ place bytes, t.entry? place = some (.file bytes) → place ≠ [] ∧ (∀ name ∈ place, Path.IsName name) ∧
    ∃ key, .put key bytes ∈ calls ∧ isBelowRoot key = true ∧ place = Path.names key.toList ∧
      ∀ root, Path.walk root key.toList = root ++ place
  /-- A directory is the root, or is above where an accepted key leads. -/
  directory : ∀ place, t.entry? place = some .directory → place = [] ∨
    ∃ key content, .put key content ∈ calls ∧ isBelowRoot key = true ∧ place <+: (Path.names key.toList).dropLast
  /-- What is read is what was stored last at the place, if the key ends with a name. -/
  get : ∀ key bytes, (files t).get key = .ok bytes ↔
    isBelowRoot key = true ∧ Path.EndsInName key.toList ∧ lastAt stored (Path.names key.toList) = some bytes
  contains : ∀ key, (files t).contains key = .ok true ↔ ∃ bytes, (files t).get key = .ok bytes
  /-- A put fails for its key, or because a file or a directory is in the way. -/
  put : ∀ key content, ((files t).put key content).2 = .ok () ↔
    isBelowRoot key = true ∧ FileTree.nul ∉ key.toList ∧ Path.EndsInName key.toList ∧
      (∀ name ∈ Path.names key.toList, FileTree.isTooLong name = false) ∧
      (∀ above, above <+: (Path.names key.toList).dropLast → lastAt stored above = none) ∧
      t.entry? (Path.names key.toList) ≠ some .directory
  /-- A put that fails changes nothing that can be read. -/
  put_failed : ∀ key content, ((files t).put key content).2 ≠ .ok () → ∀ other bytes,
    ((files t).put key content).1.get other = .ok bytes ↔ (files t).get other = .ok bytes
  /-- A put changes nothing that is read elsewhere. -/
  put_elsewhere : ∀ key content other, Path.names other.toList ≠ Path.names key.toList → ∀ bytes,
    ((files t).put key content).1.get other = .ok bytes ↔ (files t).get other = .ok bytes

theorem call_of_refused {c : Call} (h : isBelowRoot c.key = false) :
    (files t).call c = (files t, c.refusal) := by
  cases c with
  | put key content =>
    have hkey : isBelowRoot key = false := h
    simp only [call, put, hkey, Call.refusal, Bool.false_eq_true, if_false]
  | get key =>
    have hkey : isBelowRoot key = false := h
    simp only [call, get, hkey, Call.refusal, Bool.false_eq_true, if_false]
  | contains key =>
    have hkey : isBelowRoot key = false := h
    simp only [call, contains, hkey, Call.refusal, Bool.false_eq_true, if_false]

theorem Mirrors.refines (h : Mirrors t calls stored) : Refines t calls stored := by
  constructor
  case refused =>
    intro c hc
    refine call_of_refused (Bool.eq_false_iff.2 fun hkey => ?_)
    obtain ⟨hblank, habsolute, hclimbs⟩ := isBelowRoot_iff.1 hkey
    rcases hc with h | h | h
    · rw [hblank] at h
      cases h
    · rw [habsolute] at h
      cases h
    · exact hclimbs h
  case file =>
    intro place bytes hfile
    obtain ⟨key, hput, hkey, hfits, hplace⟩ := h.origin _ (mem_of_lastAt ((h.file place bytes).1 hfile))
    obtain rfl : place = Path.names key.toList := hplace
    have hends := ((fits_iff hkey).1 hfits).2
    exact ⟨hends.names_ne_nil, fun name hname => isName_of_isBelowRoot hkey hname,
      key, hput, hkey, rfl, walk_of_isBelowRoot hkey⟩
  case directory => exact h.directory
  case get => exact fun key bytes => h.get_iff
  case contains => exact fun key => contains_eq_true_iff
  case put => exact fun key content => h.put_ok_iff
  case put_failed =>
    intro key content hput other bytes
    rw [h.get_put_iff, h.get_iff, stores_of_not_ok hput, List.append_nil]
  case put_elsewhere =>
    intro key content other hne bytes
    rw [h.get_put_iff, h.get_iff]
    by_cases hput : ((files t).put key content).2 = .ok ()
    · rw [stores_of_ok hput, lastAt_concat, if_neg (Ne.symm hne)]
    · rw [stores_of_not_ok hput, List.append_nil]

end ObjectStore

end IngestionQueue
