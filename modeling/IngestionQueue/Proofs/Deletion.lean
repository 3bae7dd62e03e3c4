import IngestionQueue.Proofs.Sources

/-!
# Documents that are deleted

The writes of workers and of the recovery leave the status of a deleted document as it is, and an upload or a
reindex that looks a document up passes over a deleted one.  An upload that has found its document before the
deletion does not look again: it writes the document as it has read it, and the document is there again
(`System.deletion_undone`).  Nothing else brings a deleted document back.  The main result is
`System.deletion`.
-/

namespace IngestionQueue

/-! ### One write -/

theorem Document.setStatus_of_deleted {d : Document} (h : d.status = .deleted) (id : String)
    (status : DocumentStatus) (now : Int) : d.setStatus id status now = d := by
  unfold setStatus
  split_ifs <;> rfl

/-- A deleted document stays so, unless an upload of it is saved. -/
theorem Write.document_of_deleted (wr : Write) {d : Document} (h : d.status = .deleted) :
    (wr.document d).status = .deleted ∨
      ∃ e v job, wr = save e v job ∧ d.id = e.id ∧ (wr.document d).status = e.status := by
  cases wr with
  | save e v job =>
    by_cases hid : d.id = e.id
    · exact .inr ⟨e, v, job, rfl, hid, by simp [Document.overwrite, hid]⟩
    · exact .inl (by simp [Document.overwrite, hid, h])
  | mark | finalize | fail =>
    left
    simp only [document]
    rw [Document.setStatus_of_deleted h, h]
  | markDeleted id =>
    left
    simp only [document]
    split_ifs
    · rfl
    · exact h
  | _ => exact .inl h

namespace System

variable {start σ : System} {events : List Event} {e : Event} {d : Document}

/-! ### One event -/

/-- A row with the identifier of a document that is deleted is deleted after the event, or the event saves an
upload of the document. -/
theorem step_deleted (hs : σ.world.store.Consistent) (hd : d ∈ σ.world.store.documents)
    (hdeleted : d.status = .deleted) {f : Document} (hf : f ∈ (σ.step e).world.store.documents)
    (hid : f.id = d.id) :
    f.status = .deleted ∨ ∃ maxAttempts p, σ.Saves e maxAttempts p ∧ p.document.id = d.id ∧
      f.status = p.document.status := by
  obtain ⟨wr, hwr, _, hsource, _⟩ := σ.step_write e
  generalize hafter : (σ.step e).world.store = s' at hwr hf
  cases hwr with
  | nothing =>
    obtain rfl : f = d := hs.document_eq hf hd hid
    exact .inl hdeleted
  | @made x hallowed =>
    rcases Write.mem_documents.1 hf with ⟨g, hg, rfl⟩ | hnew
    · rw [x.document_id] at hid
      obtain rfl : g = d := hs.document_eq hg hd hid
      rcases x.document_of_deleted hdeleted with hsame | ⟨f, v, job, rfl, hfid, hstatus⟩
      · exact .inl hsame
      · rcases hsource _ rfl with ⟨i, t, t', rfl, ht, hstep⟩ | ⟨c, _, hcall⟩ | ⟨documentId, hx⟩
        · cases hstep with
          | save maxAttempts p => exact .inr ⟨maxAttempts, p, ⟨i, rfl, ht, hallowed, hafter⟩, hfid.symm, hstatus⟩
        · cases hcall
        · cases hx
    · obtain ⟨_, hother⟩ := Write.of_newDocuments hnew
      exact absurd hid.symm (hother d hd)

/-- The upload has found the document when it was not deleted. -/
def FoundLive (start : System) (events : List Event) (maxAttempts : Int) (p : UploadPlan) (id : String) : Prop :=
  ∃ before i, before ++ [.resume i] <+: events ∧
    (start.run before).tasks[i]? = some (.asked (.upload maxAttempts p.request)) ∧
    p = Ingestion.planOn p.request (start.run before).world ∧
    ∃ f ∈ (start.run before).world.store.documents, f.id = id ∧ f.status ≠ .deleted

/-- An upload that plans more than the first version of a document has found the document. -/
theorem Chosen.foundLive {maxAttempts : Int} {p : UploadPlan} (h : start.Chosen events maxAttempts p)
    (hnext : p.document.currentVersion ≠ 1) : start.FoundLive events maxAttempts p p.document.id := by
  obtain ⟨before, i, hwithin, ht, hp⟩ := h
  refine ⟨before, i, hwithin, ht, hp, ?_⟩
  have hplanned := Ingestion.planOn_document p.request (start.run before).world
  rw [← hp] at hplanned
  rcases hplanned with ⟨f, hf, horigin, _⟩ | ⟨_, _, hfirst⟩
  · obtain ⟨hmem, _, hlive⟩ := Store.mem_documentsFrom.1 hf
    exact ⟨f, hmem, (Document.id_of_origin horigin).symm, hlive⟩
  · exact absurd hfirst hnext

/-! ### Runs -/

/-- No upload that is under way plans a version of the document. -/
def Spares (σ : System) (id : String) : Prop :=
  ∀ t ∈ σ.tasks, ∀ f ∈ t.planned, f.id ≠ id

theorem step_spares (hnth : Function.Injective σ.world.ids.nth) (hs : σ.world.store.Consistent)
    (hused : σ.world.ids.Used d.id) (hd : d ∈ σ.world.store.documents) (hdeleted : d.status = .deleted)
    (h : σ.Spares d.id) (e : Event) : (σ.step e).Spares d.id := by
  refine step_tasks (P := fun t => ∀ f ∈ t.planned, f.id ≠ d.id) σ e h ?_ ?_ ?_
  · rintro r _ f ⟨⟩
  · intro i t wr t' _ _ ht hstep
    cases hstep with
    | plan maxAttempts r =>
      -- A look-up passes over the deleted document, and a new identifier is not that of the document.
      rintro f ⟨⟩ hid
      rcases Ingestion.planOn_document r σ.world with ⟨g, hg, horigin, _⟩ | ⟨_, hhead, _⟩
      · obtain ⟨hmem, _, hlive⟩ := Store.mem_documentsFrom.1 hg
        obtain rfl : g = d := hs.document_eq hmem hd ((Document.id_of_origin horigin).symm.trans hid)
        exact hlive hdeleted
      · exact hused.ne_head hnth (hid.symm.trans hhead)
    | put maxAttempts p hput => exact ht
    | _ =>
      intro f hf
      cases hf
  · rintro worker job phase e _ f ⟨⟩

/-- A deleted document that no upload has planned to write stays deleted. -/
theorem run_deleted (hnth : Function.Injective σ.world.ids.nth) (hs : σ.world.store.Consistent)
    (hused : σ.world.ids.Used d.id) (hd : d ∈ σ.world.store.documents) (hdeleted : d.status = .deleted)
    (h : σ.Spares d.id) (more : List Event) :
    (∃ f ∈ (σ.run more).world.store.documents, f.id = d.id ∧ f.status = .deleted) ∧
      (σ.run more).Spares d.id := by
  refine run_induction (P := fun _ τ => (∃ f ∈ τ.world.store.documents, f.id = d.id ∧ f.status = .deleted) ∧
    τ.Spares d.id) ⟨⟨d, hd, rfl, hdeleted⟩, h⟩ ?_
  -- Other writes may touch the row, so the induction is about whatever row has the identifier.
  rintro past e _ ⟨⟨f, hf, hid, hfdeleted⟩, hspares⟩
  have hs' : (σ.run past).world.store.Consistent := run_consistent hs past
  have hused' : (σ.run past).world.ids.Used f.id := hid ▸ hused.follows (σ.run_follows past)
  rw [← hid] at hspares ⊢
  refine ⟨?_, step_spares (by rwa [run_ids]) hs' hused' hf hfdeleted hspares e⟩
  obtain ⟨wr, hwr, _⟩ := (σ.run past).step_write e
  obtain ⟨g, hg, hgid⟩ := hwr.document_persists hf
  rcases step_deleted hs' hf hfdeleted hg hgid with hstays | ⟨maxAttempts, p, ⟨i, _, ht, _⟩, hplanned, _⟩
  · exact ⟨g, hg, hgid, hstays⟩
  · exact absurd hplanned (hspares _ (List.mem_of_getElem? ht) _ rfl)

/-- After every run, a document that is deleted stays so with the next event, unless the event saves an upload that
has found the document when it was not deleted: then the document is pending, with one version more. If no upload
is under way for it, the document stays deleted for ever. -/
theorem deletion (objects : ObjectStore) (now : Int) (ids : IdSequence) (hids : Function.Injective ids.nth)
    (events : List Event) :
    let start := initial objects now ids
    let σ := start.run events
    ∀ d ∈ σ.world.store.documents, d.status = .deleted →
      (∀ e, ∀ f ∈ (σ.step e).world.store.documents, f.id = d.id → f.status = .deleted ∨
        ∃ maxAttempts p, σ.Saves e maxAttempts p ∧ start.FoundLive events maxAttempts p d.id ∧
          f.status = .pending ∧ f.currentVersion = d.currentVersion + 1) ∧
      (σ.Spares d.id → ∀ more, ∀ f ∈ (σ.run more).world.store.documents, f.id = d.id → f.status = .deleted) := by
  intro start σ d hd hdeleted
  have hs : σ.world.store.Consistent := run_consistent Store.consistent_empty events
  have hnumbered : σ.Numbered := run_numbered (initial_numbered objects now ids) events
  refine ⟨?_, ?_⟩
  · intro e f hf hid
    rcases step_deleted hs hd hdeleted hf hid with hstays | ⟨maxAttempts, p, hsaves, hplanned, hstatus⟩
    · exact .inl hstays
    · obtain ⟨hnext, hcurrent⟩ := hsaves.next hnumbered hd hf hplanned hid
      have hone : 1 ≤ d.currentVersion := (hnumbered.store.current d hd).2
      obtain ⟨i, _, ht, _⟩ := id hsaves
      have hmem := List.mem_of_getElem? ht
      have hchosen : start.Chosen events maxAttempts p := run_chosen rfl events _ hmem
      have hpending : p.document.status = .pending := run_planned rfl events _ hmem _ rfl
      refine .inr ⟨maxAttempts, p, hsaves, ?_, hstatus.trans hpending, hcurrent⟩
      rw [← hplanned]
      exact hchosen.foundLive (by omega)
  · intro hspares more f hf hid
    have hnth : Function.Injective σ.world.ids.nth := by
      rwa [show σ.world.ids.nth = ids.nth from run_ids start events]
    have hused : σ.world.ids.Used d.id :=
      run_used (initial_distinct objects now ids).used events d (.inl hd)
    obtain ⟨⟨g, hg, hgid, hstays⟩, _⟩ := run_deleted hnth hs hused hd hdeleted hspares more
    have hs' : (σ.run more).world.store.Consistent := run_consistent hs more
    obtain rfl : g = f := hs'.document_eq hg hf (hgid.trans hid.symm)
    exact hstays

/-- The name of a deleted document is uploaded again: the deleted document stays as it is. -/
theorem deletion_reuploaded :
    let upload (content : Bytes) : Event := .start (.upload 3 ⟨"t1", "w1", "kb1", "a.md", content, none⟩)
    let events : List Event := [upload [49], .resume 0, .resume 0, .resume 0, .markDeleted "id-1"]
    let more : List Event := [upload [50], .resume 1, .resume 1, .resume 1]
    ∃ d ∈ ((initial (.memory []) 0 (.numbered "id")).run events).world.store.documents, d.status = .deleted ∧
      ∀ f ∈ (((initial (.memory []) 0 (.numbered "id")).run events).run more).world.store.documents,
        f.id = d.id → f.status = .deleted := by
  intro upload events more
  have hrow : ∃ d ∈ ((initial (.memory []) 0 (.numbered "id")).run events).world.store.documents,
      d.status = .deleted := by
    decide +kernel
  have hnone : ((initial (.memory []) 0 (.numbered "id")).run events).tasks.map Task.planned = [none] := by
    decide +kernel
  obtain ⟨d, hd, hdeleted⟩ := hrow
  have hids : Function.Injective (IdSequence.numbered "id").nth := IdSequence.numbered_injective "id"
  refine ⟨d, hd, hdeleted, (deletion (.memory []) 0 (.numbered "id") hids events d hd hdeleted).2 ?_ more⟩
  intro t ht f hf
  have hplanned := List.mem_map_of_mem (f := Task.planned) ht
  rw [hnone, List.mem_singleton] at hplanned
  rw [hplanned] at hf
  cases hf

/-- An upload has found its document before the document is deleted, and saves it afterwards: the document is there
again. -/
theorem deletion_undone :
    let upload (content : Bytes) : Event := .start (.upload 3 ⟨"t1", "w1", "kb1", "a.md", content, none⟩)
    let events : List Event :=
      [upload [49], .resume 0, .resume 0, .resume 0, upload [50], .resume 1, .markDeleted "id-1"]
    let more : List Event := [.resume 1, .resume 1]
    ∃ d ∈ ((initial (.memory []) 0 (.numbered "id")).run events).world.store.documents, d.status = .deleted ∧
      ∃ f ∈ (((initial (.memory []) 0 (.numbered "id")).run events).run more).world.store.documents,
        f.id = d.id ∧ f.status = .pending := by
  decide +kernel

end System

end IngestionQueue
