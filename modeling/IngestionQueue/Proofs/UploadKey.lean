import IngestionQueue.Proofs.ObjectStore
import IngestionQueue.Proofs.Services

/-!
# The keys of uploads

Tenant and knowledge base are part of a key as they are given, whatever they contain.  Still an upload cannot leave the
root of a store on files, nor take the place of another version: either its key is refused before anything is written
(`Ingestion.upload_of_refused`), or the path ends with the document, the version and a safe name
(`UploadPlan.names_objectKey_eq`), and these names say whose object it is (`UploadPlan.confinement`).
-/

namespace IngestionQueue

namespace Ingestion

variable {r : UploadRequest} {w : World} {t : FileTree}

/-- An upload whose key is refused leaves nothing behind but the identifiers it has used up. -/
theorem upload_of_refused (hw : w.objects = .files t)
    (hkey : ObjectStore.isBelowRoot (planOn r w).objectKey = false) (maxAttempts : Int) :
    ∃ e count, (upload maxAttempts r).on w = (.error e, w.handOut count) ∧
      (r.check = .ok () → e = .storage (.invalidKey (planOn r w).objectKey)) := by
  rcases plan_on r w with ⟨e, hcheck, hplan⟩ | ⟨count, -, hplan⟩
  · refine ⟨e, 0, by simp only [upload, Service.on_bind, hplan, World.handOut_zero], ?_⟩
    intro hok
    rw [hok] at hcheck
    cases hcheck
  · have hput : ∀ content, (w.handOut count).objects.put (planOn r w).objectKey content =
        (w.objects, .error (.invalidKey (planOn r w).objectKey)) := by
      intro content
      have hobjects : (w.handOut count).objects = .files t := hw
      simp only [hobjects, hw, ObjectStore.put, hkey, Bool.false_eq_true, if_false]
    refine ⟨.storage (.invalidKey (planOn r w).objectKey), count, ?_, fun _ => rfl⟩
    simp only [upload, Service.on_bind, hplan, storeObject_on, hput]
    rfl

end Ingestion

namespace UploadPlan

variable {p q : UploadPlan}

/-- The names at the end of the path to an uploaded object. -/
def ending (p : UploadPlan) : List Path.Name :=
  ["doc".toList, p.document.id.toList, 'v' :: (toString p.document.currentVersion).toList,
    (FileName.sanitize p.request.sourceUri).toList]

/-- The names of a key are those that tenant and knowledge base give it, and then those of the upload. -/
theorem names_objectKey_eq (hp : Path.IsName p.document.id.toList) :
    Path.names p.objectKey.toList =
      Path.names ("tenant/" ++ p.request.tenantId ++ "/kb/" ++ p.request.kbId).toList ++ p.ending := by
  have hempty : p.document.id ≠ "" := fun h => hp.nonempty (by rw [h]; rfl)
  have hdot : p.document.id ≠ "." := fun h => hp.not_stay (by rw [h]; rfl)
  have hdoc : ("tenant/" ++ p.request.tenantId ++ "/kb/" ++ p.request.kbId ++ "/doc").toList =
      ("tenant/" ++ p.request.tenantId ++ "/kb/" ++ p.request.kbId).toList ++ '/' :: "doc".toList :=
    String.toList_append
  have hname : Path.names "doc".toList = ["doc".toList] :=
    Path.names_of_isName ⟨by decide, by decide, by decide, by decide⟩
  rw [objectKey, names_objectKey _ _ _ _ hp.no_slash hempty hdot, hdoc, Path.names_append_slash, hname,
    List.append_assoc]
  rfl

private theorem segments_head (tenantId kbId : String) :
    Path.segments ("tenant/" ++ tenantId ++ "/kb/" ++ kbId ++ "/doc").toList =
      "tenant".toList :: (Path.segments tenantId.toList ++ "kb".toList :: (Path.segments kbId.toList ++
        ["doc".toList])) := by
  have hhead : ("tenant/" ++ tenantId ++ "/kb/" ++ kbId ++ "/doc").toList =
      "tenant".toList ++ '/' :: (tenantId.toList ++ '/' :: ("kb".toList ++ '/' :: (kbId.toList ++ '/' ::
        "doc".toList))) := by
    simp [String.toList_append]
  have hname : ∀ s : Path.Name, '/' ∉ s → Path.segments s = [s] := fun s hs => Path.segments_of_no_slash hs
  simp only [hhead, Path.segments_append_slash, hname "tenant".toList (by decide), hname "kb".toList (by decide),
    hname "doc".toList (by decide), List.cons_append, List.nil_append]

/-- A key is refused exactly if the tenant or the knowledge base steps to a parent. -/
theorem isBelowRoot_objectKey_iff (hp : Path.IsName p.document.id.toList) :
    ObjectStore.isBelowRoot p.objectKey = true ↔
      ['.', '.'] ∉ Path.segments p.request.tenantId.toList ∧ ['.', '.'] ∉ Path.segments p.request.kbId.toList := by
  have hname := (FileName.isSafe_sanitize p.request.sourceUri).isName
  have hsegments := segments_objectKey p.request.tenantId p.request.kbId p.document.currentVersion hp.no_slash
    hname.no_slash
  rw [segments_head] at hsegments
  have hvisible : Text.isBlankText p.objectKey = false ∧ Path.isAbsolute p.objectKey.toList = false := by
    obtain ⟨rest, hrest⟩ : ∃ rest, p.objectKey.toList = 't' :: rest := by
      rw [objectKey, toList_objectKey]
      exact ⟨_, by simp only [String.toList_append]; rfl⟩
    rw [Text.isBlankText, Path.isAbsolute, hrest]
    exact ⟨rfl, rfl⟩
  have hup : ['.', '.'] ∉ Path.segments p.objectKey.toList ↔
      ['.', '.'] ∉ Path.segments p.request.tenantId.toList ∧
        ['.', '.'] ∉ Path.segments p.request.kbId.toList := by
    rw [objectKey, hsegments]
    simp [hp.not_climb.symm, hname.not_climb.symm]
  rw [ObjectStore.isBelowRoot_iff, hup]
  simp only [hvisible, true_and]

/-- The name of an uploaded object is one safe name, whatever the file is called.  The key is refused before any
directory, file or row is written, which happens exactly if the tenant or the knowledge base steps to a parent; or it
leads down from the root to a path that ends with the document, the version and this name.  Two keys for different
documents or versions never lead to the same place. -/
theorem confinement (hp : Path.IsName p.document.id.toList) (hq : Path.IsName q.document.id.toList) :
    (let name := FileName.sanitize p.request.sourceUri
     name ≠ "" ∧ '/' ∉ name.toList ∧ '\\' ∉ name.toList ∧ name ≠ "." ∧ name ≠ ".." ∧
       FileName.sanitize name = name) ∧
      (ObjectStore.isBelowRoot p.objectKey = true ↔
        ['.', '.'] ∉ Path.segments p.request.tenantId.toList ∧ ['.', '.'] ∉ Path.segments p.request.kbId.toList) ∧
      (ObjectStore.isBelowRoot p.objectKey = false ∧
          (∀ (w : World) (t : FileTree) (maxAttempts : Int), w.objects = .files t →
            Ingestion.planOn p.request w = p →
            ∃ e count, (Ingestion.upload maxAttempts p.request).on w = (.error e, w.handOut count) ∧
              (p.request.check = .ok () → e = .storage (.invalidKey p.objectKey))) ∨
        ObjectStore.isBelowRoot p.objectKey = true ∧
          ∃ above, (∀ s ∈ above, Path.IsName s) ∧
            ∀ root, Path.walk root p.objectKey.toList = root ++ (above ++ p.ending)) ∧
      (ObjectStore.isBelowRoot p.objectKey = true → ObjectStore.isBelowRoot q.objectKey = true →
        ¬(p.document.id = q.document.id ∧ p.document.currentVersion = q.document.currentVersion) →
        ∀ root, Path.walk root p.objectKey.toList ≠ Path.walk root q.objectKey.toList) := by
  refine ⟨?_, isBelowRoot_objectKey_iff hp, ?_, ?_⟩
  · have hsafe := FileName.isSafe_sanitize p.request.sourceUri
    refine ⟨?_, hsafe.isName.no_slash, hsafe.no_backslash, ?_, ?_, FileName.sanitize_eq_self_iff.2 hsafe⟩
    · exact fun h => hsafe.isName.nonempty (by rw [h]; rfl)
    · exact fun h => hsafe.isName.not_stay (by rw [h]; rfl)
    · exact fun h => hsafe.isName.not_climb (by rw [h]; rfl)
  · cases hkey : ObjectStore.isBelowRoot p.objectKey with
    | false =>
      refine .inl ⟨rfl, ?_⟩
      intro w t maxAttempts hw hplan
      have hrefused := Ingestion.upload_of_refused (r := p.request) hw (by rw [hplan, hkey]) maxAttempts
      rwa [hplan] at hrefused
    | true =>
      refine .inr ⟨rfl, _, ?_, fun root => by rw [ObjectStore.walk_of_isBelowRoot hkey, names_objectKey_eq hp]⟩
      intro s hs
      refine ObjectStore.isName_of_isBelowRoot hkey ?_
      rw [names_objectKey_eq hp]
      exact List.mem_append_left _ hs
  · intro hbelow hbelow' hdiffer root hwalk
    rw [ObjectStore.walk_of_isBelowRoot hbelow, ObjectStore.walk_of_isBelowRoot hbelow',
      List.append_cancel_left_eq] at hwalk
    have hid : ∀ {x : UploadPlan}, Path.IsName x.document.id.toList →
        '/' ∉ x.document.id.toList ∧ x.document.id ≠ "" ∧ x.document.id ≠ "." := by
      intro x hx
      exact ⟨hx.no_slash, fun h => hx.nonempty (by rw [h]; rfl), fun h => hx.not_stay (by rw [h]; rfl)⟩
    exact hdiffer (objectKey_names_inj (hid hp) (hid hq) hwalk)

/-- A tenant whose name looks like the path of another one's upload, and a file that is called like a path. -/
theorem confinement_spliced :
    let request (tenantId kbId fileName : String) : UploadRequest := ⟨tenantId, "w", kbId, fileName, [1], none⟩
    let plan (r : UploadRequest) (version : Int) : UploadPlan :=
      ⟨r, 0, { r.document 0 none "d" with currentVersion := version }⟩
    let p := plan (request "t/./kb//k" "x" "..\\notes.md ") 1
    let q := plan (request "t" "k/kb/x" "notes.md") 2
    Path.IsName p.document.id.toList ∧ Path.IsName q.document.id.toList ∧
      (∃ above, Path.walk [] p.objectKey.toList = above ++ p.ending) ∧
      Path.walk [] p.objectKey.toList ≠ Path.walk [] q.objectKey.toList := by
  intro request plan p q
  have hid : Path.IsName "d".toList := ⟨by decide, by decide, by decide, by decide⟩
  obtain ⟨-, hp, hplace, hdiffer⟩ := confinement (p := p) (q := q) hid hid
  obtain ⟨-, hq, -, -⟩ := confinement (p := q) (q := p) hid hid
  have hbelow : ObjectStore.isBelowRoot p.objectKey = true := hp.2 (by decide)
  refine ⟨hid, hid, ?_, hdiffer hbelow (hq.2 (by decide)) (by decide) []⟩
  rcases hplace with ⟨hrefused, -⟩ | ⟨-, above, -, hwalk⟩
  · rw [hbelow] at hrefused
    cases hrefused
  · exact ⟨above, by rw [hwalk, List.nil_append]⟩

end UploadPlan

end IngestionQueue
