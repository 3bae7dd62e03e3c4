import IngestionQueue.ObjectKey
import IngestionQueue.Proofs.Blank
import IngestionQueue.Proofs.Path

/-!
# What the key of an object says

The name of an object is one step down a path, and no cleaning changes it (`FileName.isSafe_sanitize`,
`FileName.sanitize_eq_self_iff`).  The last three segments of an upload's key are the document, the version and
the name, whatever the tenant and the knowledge base are called (`segments_objectKey`), and they are names of a
path (`names_objectKey`).  So one key, or one place in a file tree, belongs to one version of one document
(`objectKey_inj`, `objectKey_names_inj`).
-/

namespace IngestionQueue

/-! ### Numbers and names -/

private theorem toList_toString (n : Int) : (toString n).toList =
    if 0 ≤ n then Nat.toDigits 10 n.toNat else '-' :: Nat.toDigits 10 (-n).toNat := by
  rw [Int.toString_eq_repr, Int.repr_eq_if]
  split
  · exact Nat.toList_repr
  · rw [String.toList_append, Nat.toList_repr]
    rfl

private theorem isDigit_of_mem_digits {n : Nat} {c : Char} (h : c ∈ Nat.toDigits 10 n) : c.isDigit = true :=
  Nat.isDigit_of_mem_toDigits (by decide) (by decide) h

theorem slash_not_mem_toString (n : Int) : '/' ∉ (toString n).toList := by
  intro h
  rw [toList_toString] at h
  split at h
  · exact absurd (isDigit_of_mem_digits h) (by decide)
  · rcases List.mem_cons.1 h with heq | h
    · exact absurd heq (by decide)
    · exact absurd (isDigit_of_mem_digits h) (by decide)

private theorem digits_injective {m n : Nat} (h : Nat.toDigits 10 m = Nat.toDigits 10 n) : m = n := by
  have hvalue := congrArg (fun ds => Nat.ofDigitChars 10 ds 0) h
  simpa only [Nat.ofDigitChars_ten_toDigits] using hvalue

private theorem digits_ne_minus (m n : Nat) : Nat.toDigits 10 m ≠ '-' :: Nat.toDigits 10 n := by
  intro h
  have hminus : '-' ∈ Nat.toDigits 10 m := by
    rw [h]
    exact List.mem_cons_self
  exact absurd (isDigit_of_mem_digits hminus) (by decide)

theorem toString_int_injective {m n : Int} (h : toString m = toString n) : m = n := by
  have hlist := congrArg String.toList h
  rw [toList_toString, toList_toString] at hlist
  split at hlist <;> split at hlist
  · have hvalue := digits_injective hlist
    omega
  · exact absurd hlist (digits_ne_minus _ _)
  · exact absurd hlist.symm (digits_ne_minus _ _)
  · have hvalue := digits_injective (List.cons.inj hlist).2
    omega

namespace FileName

private theorem lastPart_eq (fileName : String) :
    ∃ piece ∈ Path.splitAt (fun c => c == '/' || c == '\\') fileName.toList,
      (lastPart fileName).toList = Text.trimChars piece := by
  have hne := Path.splitAt_ne_nil (fun c => c == '/' || c == '\\') fileName.toList
  refine ⟨_, List.getLast_mem hne, ?_⟩
  rw [lastPart, String.toList_ofList, List.getLastD_eq_getLast?, List.getLast?_eq_some_getLast hne, Option.getD_some]

private theorem not_cut_of_mem_lastPart {fileName : String} {c : Char} (h : c ∈ (lastPart fileName).toList) :
    c ≠ '/' ∧ c ≠ '\\' := by
  obtain ⟨piece, hpiece, hpart⟩ := lastPart_eq fileName
  rw [hpart] at h
  have hcut := Path.not_cut_of_mem_splitAt hpiece c (Text.mem_of_mem_trimChars h)
  simpa using hcut

/-- A name that leads one step down a path, whether slashes or backslashes divide it, with no white space around it. -/
structure IsSafe (name : String) : Prop where
  isName : Path.IsName name.toList
  no_backslash : '\\' ∉ name.toList
  trimmed : Text.Trimmed name.toList

theorem isSafe_sanitize (fileName : String) : IsSafe (sanitize fileName) := by
  simp only [sanitize]
  split
  · exact ⟨⟨by decide, by decide, by decide, by decide⟩, by decide, by decide⟩
  · rename_i hname
    simp only [Bool.or_eq_true, String.isEmpty_iff, beq_iff_eq, not_or] at hname
    obtain ⟨⟨hempty, hdot⟩, hdots⟩ := hname
    obtain ⟨piece, -, hpart⟩ := lastPart_eq fileName
    refine ⟨⟨?_, ?_, ?_, ?_⟩, ?_, ?_⟩
    · exact fun h => hempty (String.toList_eq_nil_iff.1 h)
    · exact fun h => hdot (String.toList_inj.1 h)
    · exact fun h => hdots (String.toList_inj.1 h)
    · exact fun h => (not_cut_of_mem_lastPart h).1 rfl
    · exact fun h => (not_cut_of_mem_lastPart h).2 rfl
    · rw [hpart]
      exact Text.trimmed_trimChars piece

/-- The safe names are those that stay as they are. -/
theorem sanitize_eq_self_iff {name : String} : sanitize name = name ↔ IsSafe name := by
  constructor
  · intro h
    rw [← h]
    exact isSafe_sanitize name
  · intro h
    have hpieces : Path.splitAt (fun c => c == '/' || c == '\\') name.toList = [name.toList] := by
      refine Path.splitAt_of_forall_not fun c hc => ?_
      have hslash : c ≠ '/' := fun heq => h.isName.no_slash (heq ▸ hc)
      have hbackslash : c ≠ '\\' := fun heq => h.no_backslash (heq ▸ hc)
      simp [hslash, hbackslash]
    have hlast : [name.toList].getLastD [] = name.toList := rfl
    have hpart : lastPart name = name := by
      simp only [lastPart, hpieces, hlast, Text.trimChars_of_trimmed h.trimmed, String.ofList_toList]
    have hempty : name ≠ "" := fun heq => h.isName.nonempty (by rw [heq]; rfl)
    have hdot : name ≠ "." := fun heq => h.isName.not_stay (by rw [heq]; rfl)
    have hdots : name ≠ ".." := fun heq => h.isName.not_climb (by rw [heq]; rfl)
    simp [sanitize, hpart, hempty, hdot, hdots]

end FileName

/-! ### Keys -/

theorem toList_objectKey (tenantId kbId documentId : String) (version : Int) (name : String) :
    (objectKey tenantId kbId documentId version name).toList =
      ("tenant/" ++ tenantId ++ "/kb/" ++ kbId ++ "/doc").toList ++
        '/' :: (documentId.toList ++ '/' :: ('v' :: (toString version).toList ++ '/' :: name.toList)) := by
  have hkey : objectKey tenantId kbId documentId version name =
      "tenant/" ++ tenantId ++ "/kb/" ++ kbId ++ "/doc/" ++ documentId ++ "/v" ++ toString version ++ "/" ++
        name := by
    delta objectKey
    rfl
  simp [hkey, String.toList_append]

theorem segments_objectKey (tenantId kbId : String) {documentId : String} (version : Int) {name : String}
    (hdocument : '/' ∉ documentId.toList) (hname : '/' ∉ name.toList) :
    Path.segments (objectKey tenantId kbId documentId version name).toList =
      Path.segments ("tenant/" ++ tenantId ++ "/kb/" ++ kbId ++ "/doc").toList ++
        [documentId.toList, 'v' :: (toString version).toList, name.toList] := by
  have hversion : '/' ∉ 'v' :: (toString version).toList := by
    simpa using slash_not_mem_toString version
  rw [toList_objectKey, Path.segments_append_slash, Path.segments_append_slash, Path.segments_append_slash,
    Path.segments_of_no_slash hdocument, Path.segments_of_no_slash hversion, Path.segments_of_no_slash hname]
  rfl

/-- The last three segments name the document, the version and the object. -/
theorem names_objectKey (tenantId kbId : String) {documentId : String} (version : Int) (sourceUri : String)
    (hdocument : '/' ∉ documentId.toList) (hempty : documentId ≠ "") (hdot : documentId ≠ ".") :
    Path.names (objectKey tenantId kbId documentId version (FileName.sanitize sourceUri)).toList =
      Path.names ("tenant/" ++ tenantId ++ "/kb/" ++ kbId ++ "/doc").toList ++
        [documentId.toList, 'v' :: (toString version).toList, (FileName.sanitize sourceUri).toList] := by
  obtain ⟨hnil, hname, -, hslash⟩ := (FileName.isSafe_sanitize sourceUri).isName
  have hdocumentNil : documentId.toList ≠ [] := by simpa using hempty
  have hdocumentDot : documentId.toList ≠ ['.'] := fun h => hdot (String.toList_inj.1 h)
  simp only [Path.names, segments_objectKey tenantId kbId version hdocument hslash, List.filter_append]
  rw [List.append_cancel_left_eq, List.filter_eq_self]
  simp only [List.forall_mem_cons, List.not_mem_nil, false_implies, implies_true, and_true]
  refine ⟨?_, ?_, ?_⟩
  · simp [hdocumentNil, hdocumentDot]
  · simp
  · simp [hnil, hname]

private theorem document_version_inj {prefixes prefixes' : List Path.Name} {id id' : String} {m n : Int}
    {name name' : Path.Name}
    (h : prefixes ++ [id.toList, 'v' :: (toString m).toList, name] =
      prefixes' ++ [id'.toList, 'v' :: (toString n).toList, name']) : id = id' ∧ m = n := by
  obtain ⟨_, hlast⟩ := List.append_inj' h rfl
  simp only [List.cons.injEq, String.toList_inj, true_and] at hlast
  exact ⟨hlast.1, toString_int_injective hlast.2.1⟩

variable {tenantId tenantId' kbId kbId' documentId documentId' : String} {version version' : Int}
  {sourceUri sourceUri' : String}

theorem objectKey_inj (hdocument : '/' ∉ documentId.toList) (hdocument' : '/' ∉ documentId'.toList)
    (h : objectKey tenantId kbId documentId version (FileName.sanitize sourceUri) =
      objectKey tenantId' kbId' documentId' version' (FileName.sanitize sourceUri')) :
    documentId = documentId' ∧ version = version' := by
  have hsegments := congrArg (fun key => Path.segments key.toList) h
  simp only [segments_objectKey _ _ _ hdocument (FileName.isSafe_sanitize sourceUri).isName.no_slash,
    segments_objectKey _ _ _ hdocument' (FileName.isSafe_sanitize sourceUri').isName.no_slash] at hsegments
  exact document_version_inj hsegments

theorem objectKey_names_inj (hdocument : '/' ∉ documentId.toList ∧ documentId ≠ "" ∧ documentId ≠ ".")
    (hdocument' : '/' ∉ documentId'.toList ∧ documentId' ≠ "" ∧ documentId' ≠ ".")
    (h : Path.names (objectKey tenantId kbId documentId version (FileName.sanitize sourceUri)).toList =
      Path.names (objectKey tenantId' kbId' documentId' version' (FileName.sanitize sourceUri')).toList) :
    documentId = documentId' ∧ version = version' := by
  rw [names_objectKey _ _ _ _ hdocument.1 hdocument.2.1 hdocument.2.2,
    names_objectKey _ _ _ _ hdocument'.1 hdocument'.2.1 hdocument'.2.2] at h
  exact document_version_inj h

end IngestionQueue
