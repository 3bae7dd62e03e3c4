import IngestionQueue.Proofs.Numbering

/-!
# Documents of one source

An upload looks for a document of its name and opens a new one if there is none.  The look-up and the write that
saves the document are two calls, and nothing in the tables keeps two documents from having one name.  So a
second document of a name is opened exactly while the first one cannot be found: its own upload has not saved it
yet, or it has been deleted (`System.OpenedBeside`).  The main result is `System.sources`.
-/

namespace IngestionQueue

/-! ### Names -/

/-- The document is one that the upload may add a version to. -/
def Document.ComesFrom (d : Document) (r : UploadRequest) : Prop :=
  d.tenantId = r.tenantId ∧ d.workspaceId = r.workspaceId ∧ d.kbId = r.kbId ∧ d.sourceUri = some r.sourceUri

/-- The documents have one tenant, one place and one name. -/
def Document.SameSource (d e : Document) : Prop :=
  d.tenantId = e.tenantId ∧ d.workspaceId = e.workspaceId ∧ d.kbId = e.kbId ∧ d.sourceUri = e.sourceUri

instance (d e : Document) : Decidable (d.SameSource e) :=
  inferInstanceAs (Decidable (_ ∧ _))

namespace Document

variable {d e : Document} {r : UploadRequest}

theorem sameSource_of_origin (h : d.origin = e.origin) : d.SameSource e := by
  have htenant := congrArg Document.tenantId h
  have hworkspace := congrArg Document.workspaceId h
  have hkb := congrArg Document.kbId h
  have hsource := congrArg Document.sourceUri h
  exact ⟨htenant, hworkspace, hkb, hsource⟩

theorem SameSource.symm (h : d.SameSource e) : e.SameSource d := by
  obtain ⟨htenant, hworkspace, hkb, hsource⟩ := h
  exact ⟨htenant.symm, hworkspace.symm, hkb.symm, hsource.symm⟩

theorem ComesFrom.of_sameSource (h : e.ComesFrom r) (hsame : d.SameSource e) : d.ComesFrom r := by
  obtain ⟨htenant, hworkspace, hkb, hsource⟩ := hsame
  obtain ⟨htenant', hworkspace', hkb', hsource'⟩ := h
  exact ⟨htenant.trans htenant', hworkspace.trans hworkspace', hkb.trans hkb', hsource.trans hsource'⟩

/-- An upload whose look-up finds nothing has no document of its name but deleted ones. -/
theorem ComesFrom.deleted {s : Store} (h : d.ComesFrom r) (hd : d ∈ s.documents)
    (hnone : s.documentFrom? r.tenantId r.workspaceId r.kbId r.sourceUri = none) : d.status = .deleted := by
  by_contra hlive
  exact Store.not_mem_of_documentFrom?_eq_none hnone d (Store.mem_documentsFrom.2 ⟨hd, h, hlive⟩)

end Document

theorem Ingestion.planOn_comesFrom (r : UploadRequest) (w : World) : (planOn r w).document.ComesFrom r := by
  simp only [planOn, UploadRequest.document]
  cases hfound : w.store.documentFrom? r.tenantId r.workspaceId r.kbId r.sourceUri with
  | none => exact ⟨rfl, rfl, rfl, rfl⟩
  | some d =>
    obtain ⟨_, hcomes, _⟩ := Store.of_documentFrom? hfound
    exact hcomes

/-! ### Openings -/

/-- Of two events of one series, one is the other or comes before it. -/
private theorem prefix_cases {events before before' : List Event} {e e' : Event}
    (h : before ++ [e] <+: events) (h' : before' ++ [e'] <+: events) :
    (before = before' ∧ e = e') ∨ before ++ [e] <+: before' ∨ before' ++ [e'] <+: before := by
  rcases List.prefix_or_prefix_of_prefix h h' with hle | hle
  · rcases List.prefix_concat_iff.1 hle with heq | hlt
    · exact .inl (by simpa using heq)
    · exact .inr (.inl hlt)
  · rcases List.prefix_concat_iff.1 hle with heq | hlt
    · exact .inl (by simpa [eq_comm] using heq)
    · exact .inr (.inr hlt)

namespace System

variable {start σ : System} {events before more : List Event} {e : Event} {d f : Document}

/-- The upload was planned after a part of the events, on the world of that time. -/
def Chosen (start : System) (events : List Event) (maxAttempts : Int) (p : UploadPlan) : Prop :=
  ∃ before i, before ++ [.resume i] <+: events ∧
    (start.run before).tasks[i]? = some (.asked (.upload maxAttempts p.request)) ∧
    p = Ingestion.planOn p.request (start.run before).world

theorem Chosen.snoc {maxAttempts : Int} {p : UploadPlan} (h : start.Chosen events maxAttempts p) (e : Event) :
    start.Chosen (events ++ [e]) maxAttempts p := by
  obtain ⟨before, i, hwithin, hrest⟩ := h
  exact ⟨before, i, hwithin.trans (List.prefix_append _ _), hrest⟩

theorem Chosen.comesFrom {maxAttempts : Int} {p : UploadPlan} (h : start.Chosen events maxAttempts p) :
    p.document.ComesFrom p.request := by
  obtain ⟨before, _, _, _, hp⟩ := h
  have hcomes := Ingestion.planOn_comesFrom p.request (start.run before).world
  rwa [← hp] at hcomes

end System

/-- What is known of the upload that a task goes on with: it was planned before. -/
def Task.Chosen (start : System) (events : List Event) : Task → Prop
  | putObject maxAttempts p | saveUpload maxAttempts p => start.Chosen events maxAttempts p
  | _ => True

theorem Task.Chosen.snoc {start : System} {events : List Event} {t : Task} (h : t.Chosen start events)
    (e : Event) : t.Chosen start (events ++ [e]) := by
  cases t with
  | putObject maxAttempts p => exact System.Chosen.snoc h e
  | saveUpload maxAttempts p => exact System.Chosen.snoc h e
  | _ => trivial

namespace System

variable {start σ : System} {events before more : List Event} {e : Event} {d f : Document}

theorem run_chosen (hstart : start.tasks = []) (events : List Event) :
    ∀ t ∈ (start.run events).tasks, t.Chosen start events := by
  refine run_induction (P := fun events σ => ∀ t ∈ σ.tasks, t.Chosen start events) ?_ ?_
  · simp [hstart]
  · intro before e _ hbefore
    refine step_tasks (P := Task.Chosen start (before ++ [e])) _ e (fun t ht => (hbefore t ht).snoc e) ?_ ?_ ?_
    · exact fun r _ => trivial
    · rintro i t wr t' rfl ht h hstep
      cases hstep with
      | plan maxAttempts r => exact ⟨before, i, List.prefix_rfl, ht, rfl⟩
      | put maxAttempts p hput => exact h
      | _ => trivial
    · exact fun worker job phase e _ => trivial

/-- The document was opened by the event that follows the series `before`. -/
def Opened (start : System) (events : List Event) (d : Document) (before : List Event) (e : Event) : Prop :=
  before ++ [e] <+: events ∧ ∃ f, (start.run before).Opens e f ∧ d.origin = f.origin

theorem Opened.mono (h : start.Opened before d more e) (hevents : before <+: events) :
    start.Opened events d more e :=
  ⟨h.1.trans hevents, h.2⟩

/-- The identifier of a document is handed out when it is opened. -/
theorem Opened.used (h : start.Opened events d before e) (hmore : before ++ [e] <+: more) :
    (start.run more).world.ids.Used d.id := by
  obtain ⟨_, f, hopens, horigin⟩ := h
  obtain ⟨rest, rfl⟩ := hmore
  rw [Document.id_of_origin horigin, run_append, run_snoc]
  exact (hopens.between.used (step_follows _ e)).follows (run_follows _ rest)

/-- The document was opened after the series, with an identifier that none had before. -/
theorem Opened.not_used (hnth : Function.Injective start.world.ids.nth) (h : start.Opened events d before e) :
    ¬(start.run before).world.ids.Used d.id := by
  obtain ⟨_, f, hopens, horigin⟩ := h
  rw [Document.id_of_origin horigin]
  intro hused
  exact hopens.between.ne (by rwa [run_ids]) hused rfl

/-- Documents with one identifier were opened by one event. -/
theorem Opened.origin_eq (hnth : Function.Injective start.world.ids.nth) {before' : List Event} {e' : Event}
    (hd : start.Opened events d before e) (hf : start.Opened events f before' e') (hid : d.id = f.id) :
    d.origin = f.origin := by
  rcases prefix_cases hd.1 hf.1 with ⟨rfl, rfl⟩ | hbefore | hbefore
  · obtain ⟨_, d', hd', hdorigin⟩ := hd
    obtain ⟨_, f', hf', hforigin⟩ := hf
    rw [hdorigin, hforigin, hd'.unique hf']
  · exact absurd (hid ▸ hd.used hbefore) (hf.not_used hnth)
  · exact absurd (hid.symm ▸ hf.used hbefore) (hd.not_used hnth)

/-- Every document that is named was opened. -/
theorem run_opened (hstart : ∀ d, ¬start.Names d) (events : List Event) :
    ∀ d, (start.run events).Names d → ∃ before e, start.Opened events d before e := by
  refine run_induction (P := fun events σ => ∀ d, σ.Names d → ∃ before e, start.Opened events d before e) ?_ ?_
  · exact fun d hd => absurd hd (hstart d)
  · intro past e _ ih d hd
    rcases step_names hd with ⟨f, hf, horigin⟩ | hopens
    · obtain ⟨before, e', hwithin, g, hg, hforigin⟩ := ih f hf
      exact ⟨before, e', hwithin.trans (List.prefix_append _ _), g, hg, horigin.trans hforigin⟩
    · exact ⟨past, e, List.prefix_rfl, d, hopens, rfl⟩

/-- A document whose identifier was handed out before some events was named before them. -/
theorem named_before (hnth : Function.Injective σ.world.ids.nth) (hd : (σ.run more).Names d)
    (hused : σ.world.ids.Used d.id) : ∃ f, σ.Names f ∧ d.origin = f.origin := by
  refine run_induction (P := fun _ τ => ∀ d, τ.Names d → σ.world.ids.Used d.id →
    ∃ f, σ.Names f ∧ d.origin = f.origin) ?_ ?_ d hd hused
  · exact fun d hd _ => ⟨d, hd, rfl⟩
  · intro past e _ ih d hd hused
    rcases step_names hd with ⟨f, hf, horigin⟩ | hopens
    · rw [Document.id_of_origin horigin] at hused
      obtain ⟨g, hg, hforigin⟩ := ih f hf hused
      exact ⟨g, hg, horigin.trans hforigin⟩
    · -- The identifier of a document that is opened was not handed out before.
      have hused' := hused.follows (σ.run_follows past)
      exact absurd rfl (hopens.between.ne (by rwa [run_ids]) hused')

/-- The document is known, but no look-up finds it: its upload has not saved it yet, or it is deleted. -/
def Hides (σ : System) (d : Document) : Prop :=
  (∃ f, σ.Names f ∧ f.id = d.id) ∧ ∀ f ∈ σ.world.store.documents, f.id = d.id → f.status = .deleted

/-- The document `e` was opened while the document `d` was hidden. -/
def OpenedBeside (start : System) (events : List Event) (d e : Document) : Prop :=
  ∃ before event, start.Opened events e before event ∧ (start.run before).Hides d

/-- Where two documents have one source, the one that was opened later did not find the other one. -/
private theorem openedBeside (hnth : Function.Injective start.world.ids.nth) (hstart : ∀ d, ¬start.Names d)
    {before' : List Event} {e' : Event} (hd : start.Opened events d before e)
    (hf : start.Opened events f before' e') (hbefore : before ++ [e] <+: before')
    (hnamed : (start.run events).Names d) (hsame : d.SameSource f) : start.OpenedBeside events d f := by
  refine ⟨before', e', hf, ?_, ?_⟩
  · -- The identifier was handed out by then, so whoever has it now has had it then.
    obtain ⟨rest, hrest⟩ := (List.prefix_append before' [e']).trans hf.1
    rw [← hrest, run_append] at hnamed
    obtain ⟨g, hg, horigin⟩ := named_before (by rwa [run_ids]) hnamed (hd.used hbefore)
    exact ⟨g, hg, (Document.id_of_origin horigin).symm⟩
  · -- A row with the identifier is one of the source, and the look-up has passed over it.
    intro g hg hid
    obtain ⟨hwithin, f', ⟨i, maxAttempts, r, _, _, hnone, rfl, _⟩, horigin⟩ := hf
    obtain ⟨past, e'', hopened⟩ := run_opened hstart before' g (.inl hg)
    have hgd : g.origin = d.origin :=
      (hopened.mono ((List.prefix_append _ _).trans hwithin)).origin_eq hnth hd hid
    have hcomes : f.ComesFrom r :=
      (Ingestion.planOn_comesFrom r _).of_sameSource (Document.sameSource_of_origin horigin)
    have hdcomes : d.ComesFrom r := hcomes.of_sameSource hsame
    exact (hdcomes.of_sameSource (Document.sameSource_of_origin hgd)).deleted hg hnone

/-- Of two documents of one source, one was opened while the other was hidden. -/
theorem openedBeside_of_sameSource (hnth : Function.Injective start.world.ids.nth)
    (hstart : ∀ d, ¬start.Names d) (hd : (start.run events).Names d) (hf : (start.run events).Names f)
    (hsame : d.SameSource f) (hne : d.id ≠ f.id) :
    start.OpenedBeside events d f ∨ start.OpenedBeside events f d := by
  obtain ⟨before, e, hdopened⟩ := run_opened hstart events d hd
  obtain ⟨before', e', hfopened⟩ := run_opened hstart events f hf
  rcases prefix_cases hdopened.1 hfopened.1 with ⟨rfl, rfl⟩ | hbefore | hbefore
  · -- One event opens one document only.
    obtain ⟨_, d', hd', hdorigin⟩ := hdopened
    obtain ⟨_, f', hf', hforigin⟩ := hfopened
    obtain rfl := hd'.unique hf'
    exact absurd (Document.id_of_origin (hdorigin.trans hforigin.symm)) hne
  · exact .inl (openedBeside hnth hstart hdopened hfopened hbefore hd hsame)
  · exact .inr (openedBeside hnth hstart hfopened hdopened hbefore hf hsame.symm)

/-- The document of a version is one of the source that the upload of the version names. -/
theorem Recorded.comesFrom (hnth : Function.Injective start.world.ids.nth) (hstart : ∀ d, ¬start.Names d)
    (htasks : start.tasks = []) {maxAttempts : Int} {p : UploadPlan} {v : VersionRow} {j : Job}
    (h : start.Recorded events maxAttempts p v j) (hd : (start.run events).Names d) (hid : d.id = v.documentId) :
    d.ComesFrom p.request := by
  obtain ⟨before, event, hwithin, ⟨i, _, ht, _, _⟩, hrecords, _⟩ := h
  have hmem := List.mem_of_getElem? ht
  obtain ⟨past, e, hdopened⟩ := run_opened hstart events d hd
  obtain ⟨past', e', hpopened⟩ := run_opened hstart before p.document (.inr ⟨_, hmem, rfl⟩)
  have hpid : d.id = p.document.id := hid.trans hrecords.chosen.1
  have horigin : d.origin = p.document.origin :=
    hdopened.origin_eq hnth (hpopened.mono ((List.prefix_append _ _).trans hwithin)) hpid
  have hchosen : start.Chosen before maxAttempts p := run_chosen htasks before _ hmem
  exact hchosen.comesFrom.of_sameSource (Document.sameSource_of_origin horigin)

/-- After every run, of two documents of one source one was opened while the other one was not saved yet or was
deleted. Every version belongs to a document of the source that its upload names. -/
theorem sources (objects : ObjectStore) (now : Int) (ids : IdSequence) (hids : Function.Injective ids.nth)
    (events : List Event) :
    let start := initial objects now ids
    let s := (start.run events).world.store
    (∀ d ∈ s.documents, ∀ e ∈ s.documents, d.SameSource e → d.id ≠ e.id →
      start.OpenedBeside events d e ∨ start.OpenedBeside events e d) ∧
    ∀ v ∈ s.versions, ∃ d ∈ s.documents, d.id = v.documentId ∧
      ∃ maxAttempts p j, start.Recorded events maxAttempts p v j ∧ d.ComesFrom p.request := by
  intro start s
  have hstart : ∀ d, ¬start.Names d := by
    simp [start, Names, initial, Store.empty]
  refine ⟨?_, ?_⟩
  · intro d hd e he hsame hne
    exact openedBeside_of_sameSource hids hstart (.inl hd) (.inl he) hsame hne
  · intro v hv
    have hs : s.Consistent := run_consistent Store.consistent_empty events
    obtain ⟨d, hd, hid⟩ := hs.versionDocument v hv
    obtain ⟨j, _, maxAttempts, p, hrecorded⟩ := run_recorded rfl events v hv
    exact ⟨d, hd, hid, maxAttempts, p, j, hrecorded, hrecorded.comesFrom hids hstart rfl (.inl hd) hid⟩

/-- The document of an upload is deleted, and the next upload of its name opens another one. -/
theorem sources_reuploaded :
    let upload (content : Bytes) : Event := .start (.upload 3 ⟨"t1", "w1", "kb1", "a.md", content, none⟩)
    let events : List Event :=
      [upload [49], .resume 0, .resume 0, .resume 0, .markDeleted "id-1", upload [50], .resume 1, .resume 1,
        .resume 1]
    let s := ((initial (.memory []) 0 (.numbered "id")).run events).world.store
    ∃ d ∈ s.documents, ∃ e ∈ s.documents, d.id ≠ e.id ∧
      ((initial (.memory []) 0 (.numbered "id")).OpenedBeside events d e ∨
        (initial (.memory []) 0 (.numbered "id")).OpenedBeside events e d) := by
  intro upload events s
  obtain ⟨d, hd, e, he, hsame, hne⟩ : ∃ d ∈ s.documents, ∃ e ∈ s.documents, d.SameSource e ∧ d.id ≠ e.id := by
    decide +kernel
  have hids : Function.Injective (IdSequence.numbered "id").nth := IdSequence.numbered_injective "id"
  exact ⟨d, hd, e, he, hne, (sources (.memory []) 0 (.numbered "id") hids events).1 d hd e he hsame hne⟩

/-- Two uploads of a new name look for a document before either has saved its own: both documents stay. -/
theorem sources_doubled :
    let upload (content : Bytes) : Event := .start (.upload 3 ⟨"t1", "w1", "kb1", "a.md", content, none⟩)
    let events : List Event :=
      [upload [49], upload [50], .resume 0, .resume 1, .resume 0, .resume 0, .resume 1, .resume 1]
    let s := ((initial (.memory []) 0 (.numbered "id")).run events).world.store
    ∃ d ∈ s.documents, ∃ e ∈ s.documents, d.SameSource e ∧ d.status ≠ .deleted ∧ e.status ≠ .deleted ∧
      d.id ≠ e.id := by
  decide +kernel

end System

end IngestionQueue
