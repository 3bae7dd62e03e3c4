import IngestionQueue.ObjectStore
import IngestionQueue.Proofs.FileTree
import IngestionQueue.Proofs.ObjectKey

/-!
# Objects and their places

A put that succeeds is read back under every key of its place (`ObjectStore.get_put`,
`ObjectStore.get_put_same`). A put elsewhere and a put that fails leave an object as it is
(`ObjectStore.get_put_of_ne`, `ObjectStore.get_put_of_error`), although in a file tree both may create
directories.
-/

namespace IngestionQueue

namespace ObjectStore

/-! ### Keys -/

/-- The keys of a store on files are the paths that are not blank, not absolute, and never go up. -/
theorem isBelowRoot_iff {key : String} : isBelowRoot key = true ↔
    Text.isBlankText key = false ∧ Path.isAbsolute key.toList = false ∧ ['.', '.'] ∉ Path.segments key.toList := by
  rw [← Path.climbs_eq_false_iff]
  simp [isBelowRoot, and_assoc]

/-- From whatever root, a key leads down by its names. -/
theorem walk_of_isBelowRoot {key : String} (h : isBelowRoot key = true) (root : List Path.Name) :
    Path.walk root key.toList = root ++ Path.names key.toList := by
  obtain ⟨-, habsolute, hclimbs⟩ := isBelowRoot_iff.1 h
  exact Path.walk_eq habsolute (Path.climbs_eq_false_iff.2 hclimbs) root

theorem isName_of_isBelowRoot {key : String} (h : isBelowRoot key = true) {s : Path.Name}
    (hs : s ∈ Path.names key.toList) : Path.IsName s :=
  Path.isName_of_mem_names (Path.climbs_eq_false_iff.2 (isBelowRoot_iff.1 h).2.2) hs

/-! ### Objects -/

variable {o : ObjectStore} {key other : String} {content bytes : Bytes} {t : FileTree}

/-- Where the object of a key lies. -/
def place (o : ObjectStore) (key : String) : List Path.Name :=
  match o with
  | memory _ => [key.toList]
  | files _ => Path.names key.toList

/-- What the identifiers of documents have to be so that versions do not share a place. -/
def AcceptsId (o : ObjectStore) (id : String) : Prop :=
  match o with
  | memory _ => '/' ∉ id.toList
  | files _ => '/' ∉ id.toList ∧ id ≠ "" ∧ id ≠ "."

theorem place_put (o : ObjectStore) (key : String) (bytes : Bytes) : (o.put key bytes).1.place = o.place := by
  cases o with
  | memory objects =>
    simp only [put]
    split <;> rfl
  | files t =>
    simp only [put]
    split
    · split <;> rfl
    · rfl

private theorem get_memory {objects : List (String × Bytes)} :
    (memory objects).get key = .ok content ↔
      ∃ name, (objects.find? fun p => p.1 == key) = some (name, content) := by
  simp only [get]
  cases objects.find? fun p => p.1 == key with
  | none => simp
  | some p => simp [Prod.ext_iff]

theorem get_files_iff : (files t).get key = .ok content ↔
    isBelowRoot key = true ∧ FileTree.Fits key.toList ∧
      t.follow [] (Path.names key.toList) = .ok (.file content) := by
  rw [← FileTree.lookUp_eq_file]
  simp only [get]
  cases isBelowRoot key with
  | false => simp
  | true =>
    cases hlook : t.lookUp key.toList with
    | error fault => cases fault <;> simp
    | ok e => cases e <;> simp

/-- A file is stored in a tree that has grown on the way to it, or the put fails. -/
theorem put_files_cases (t : FileTree) (key : String) (bytes : Bytes) :
    ∃ t' : FileTree, t.Grows t' (Path.names key.toList) ∧
      ((∃ e, (files t).put key bytes = (files t', .error e)) ∨
        (isBelowRoot key = true ∧ FileTree.Fits key.toList ∧
          t'.entry? (Path.names key.toList) ≠ some .directory ∧ t'.Ready (Path.names key.toList) ∧
          (t'.insert (Path.names key.toList) (.file bytes)).follow [] (Path.names key.toList) =
            .ok (.file bytes) ∧
          (files t).put key bytes = (files (t'.insert (Path.names key.toList) (.file bytes)), .ok ()))) := by
  simp only [put]
  cases isBelowRoot key with
  | false => exact ⟨t, .refl t _, .inl ⟨_, rfl⟩⟩
  | true =>
    obtain ⟨t', hgrows, ⟨fault, h⟩ | ⟨hfits, hentry, hready, hfollow, h⟩⟩ := t.write_cases key.toList bytes <;>
      refine ⟨t', hgrows, ?_⟩ <;> simp only [h]
    · exact .inl ⟨_, rfl⟩
    · exact .inr ⟨trivial, hfits, hentry, hready, hfollow, rfl⟩

/-- A put that fails leaves every object as it is. -/
theorem get_put_of_error (hget : o.get key = .ok content) (h : (o.put other bytes).2 ≠ .ok ()) :
    (o.put other bytes).1.get key = .ok content := by
  cases o with
  | memory objects =>
    simp only [put] at h ⊢
    split at h
    · rename_i hempty
      rwa [if_pos hempty]
    · exact absurd rfl h
  | files t =>
    obtain ⟨hbelow, hfits, hfollow⟩ := get_files_iff.1 hget
    obtain ⟨t', hgrows, ⟨e, hput⟩ | ⟨_, _, _, _, _, hput⟩⟩ := put_files_cases t other bytes <;> rw [hput] at h ⊢
    · exact get_files_iff.2 ⟨hbelow, hfits, hgrows.keeps _ _ _ hfollow⟩
    · exact absurd rfl h

/-- A put leaves the objects of other places as they are. -/
theorem get_put_of_ne (hget : o.get key = .ok content) (hplace : o.place other ≠ o.place key) :
    (o.put other bytes).1.get key = .ok content := by
  by_cases h : (o.put other bytes).2 = .ok ()
  · cases o with
    | memory objects =>
      have hne : key ≠ other := by
        rintro rfl
        exact hplace rfl
      simp only [put] at h ⊢
      split at h
      · cases h
      · rename_i hempty
        rw [if_neg hempty, get_memory, find?_replaced _ _ hne]
        exact get_memory.1 hget
    | files t =>
      obtain ⟨hbelow, hfits, hfollow⟩ := get_files_iff.1 hget
      obtain ⟨t', hgrows, ⟨e, hput⟩ | ⟨_, _, hentry, _, _, hput⟩⟩ := put_files_cases t other bytes <;>
        rw [hput] at h ⊢
      · cases h
      · refine get_files_iff.2 ⟨hbelow, hfits, ?_⟩
        exact FileTree.follow_insert (hgrows.keeps _ _ _ hfollow) hentry hplace
  · exact get_put_of_error hget h

/-- What is put is there. -/
theorem get_put (h : (o.put key bytes).2 = .ok ()) : (o.put key bytes).1.get key = .ok bytes := by
  cases o with
  | memory objects =>
    simp only [put] at h ⊢
    split at h
    · cases h
    · rename_i hempty
      rw [if_neg hempty, get_memory]
      exact ⟨key, by simp⟩
  | files t =>
    obtain ⟨t', _, ⟨e, hput⟩ | ⟨hbelow, hfits, _, _, hfollow, hput⟩⟩ := put_files_cases t key bytes <;>
      rw [hput] at h ⊢
    · cases h
    · exact get_files_iff.2 ⟨hbelow, hfits, hfollow⟩

/-- What is put is there under every key of the place. -/
theorem get_put_same (hget : o.get key = .ok content) (hplace : o.place other = o.place key)
    (h : (o.put other bytes).2 = .ok ()) : (o.put other bytes).1.get key = .ok bytes := by
  cases o with
  | memory objects =>
    obtain rfl : other = key := by simpa [place, String.toList_inj] using hplace
    exact get_put h
  | files t =>
    obtain ⟨hbelow, hfits, _⟩ := get_files_iff.1 hget
    obtain ⟨t', _, ⟨e, hput⟩ | ⟨_, _, _, _, hfollow, hput⟩⟩ := put_files_cases t other bytes <;> rw [hput] at h ⊢
    · cases h
    · have hnames : Path.names other.toList = Path.names key.toList := hplace
      rw [hnames] at hfollow ⊢
      exact get_files_iff.2 ⟨hbelow, hfits, hfollow⟩

/-- The place of an upload's object belongs to one version of one document. -/
theorem place_objectKey_inj {tenantId tenantId' kbId kbId' documentId documentId' : String}
    {version version' : Int} {sourceUri sourceUri' : String} (hid : o.AcceptsId documentId)
    (hid' : o.AcceptsId documentId')
    (h : o.place (objectKey tenantId kbId documentId version (FileName.sanitize sourceUri)) =
      o.place (objectKey tenantId' kbId' documentId' version' (FileName.sanitize sourceUri'))) :
    documentId = documentId' ∧ version = version' := by
  cases o with
  | memory objects => exact objectKey_inj hid hid' (by simpa [place, String.toList_inj] using h)
  | files t =>
    simp only [place] at h
    exact objectKey_names_inj hid hid' h

end ObjectStore

end IngestionQueue
