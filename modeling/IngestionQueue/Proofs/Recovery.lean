import IngestionQueue.Proofs.Conservation

/-!
# Giving up

A sweep lists the jobs whose last attempt was abandoned and then gives them up one by one, each under the
lease that its row showed in the list.  Others act in between.  A job that has been finished, or claimed again,
is left alone; one that is still in the same attempt is given up (`System.resume_giveUp`).  All that is known of
its lease then is that it is still expired or that it was refreshed after the list was made
(`System.recovery`).
-/

namespace IngestionQueue

/-! ### The clock -/

/-- The event does not set the clock back. -/
def Event.Forward (now : Int) : Event → Prop
  | setClock time => now ≤ time
  | _ => True

instance (now : Int) (e : Event) : Decidable (e.Forward now) :=
  match e with
  | .setClock time => inferInstanceAs (Decidable (now ≤ time))
  | .start _ | .resume _ | .crash _ _ | .call _ | .replaceObjects _ | .markDeleted _ => .isTrue trivial

namespace System

/-- The clock is never set back. -/
def Forward (σ : System) : List Event → Prop
  | [] => True
  | e :: events => e.Forward σ.world.now ∧ (σ.step e).Forward events

instance decidableForward (σ : System) : (events : List Event) → Decidable (σ.Forward events)
  | [] => .isTrue trivial
  | e :: events =>
    have := decidableForward (σ.step e) events
    inferInstanceAs (Decidable (_ ∧ _))

variable {σ : System}

theorem forward_append {events more : List Event} :
    σ.Forward (events ++ more) ↔ σ.Forward events ∧ (σ.run events).Forward more := by
  induction events generalizing σ with
  | nil => simp [Forward]
  | cons e events ih =>
    simp only [List.cons_append, Forward, ih, and_assoc]
    rfl

theorem step_now {e : Event} (h : e.Forward σ.world.now) : σ.world.now ≤ (σ.step e).world.now := by
  have hmove := σ.step_move e
  generalize σ.step e = σ' at hmove ⊢
  cases hmove with
  | setClock time => exact h
  | _ => exact Int.le_refl _

theorem run_now {events : List Event} (h : σ.Forward events) : σ.world.now ≤ (σ.run events).world.now := by
  induction events generalizing σ with
  | nil => exact Int.le_refl _
  | cons e events ih =>
    have hfirst := step_now h.1
    have hrest := ih h.2
    exact Int.le_trans hfirst hrest

end System

/-! ### Rows in the course of time -/

namespace Job

/-- What is known later of the row that was `j` at a time: it is still that of the same job, it counts no fewer
attempts, and in the same attempt its lease is as old as it was or was refreshed since. -/
structure Later (since : Int) (j k : Job) : Prop where
  origin : k.origin = j.origin
  attempts : j.attemptCount ≤ k.attemptCount
  refreshed : k.attemptCount = j.attemptCount →
    k.refreshedAt = j.refreshedAt ∨ ∃ time ∈ k.refreshedAt, since ≤ time

/-- A row that changes is refreshed. -/
theorem Evolves.eq_or_refreshed {now : Int} {j k : Job} (h : j.Evolves now k) :
    k = j ∨ k.refreshedAt = some now := by
  cases h with
  | keep => exact .inl rfl
  | claim workerId timeout hclaimable => exact .inr rfl
  | refresh hprocessing => exact .inr rfl
  | advance stage progress hprocessing => exact .inr rfl
  | complete hprocessing => exact .inr rfl
  | fail outcome error hprocessing => cases outcome <;> exact .inr rfl

namespace Later

variable {since now timeout : Int} {i j k : Job}

theorem refl (since : Int) (j : Job) : Later since j j :=
  ⟨rfl, Int.le_refl _, fun _ => .inl rfl⟩

theorem evolves (h : Later since i j) (hnow : since ≤ now) (hevolves : j.Evolves now k)
    (horigin : k.origin = j.origin) : Later since i k := by
  have hbefore := h.attempts
  have hcount := hevolves.transition.attemptCount_le
  refine ⟨horigin.trans h.origin, by omega, ?_⟩
  intro hsame
  rcases hevolves.eq_or_refreshed with rfl | hrefreshed
  · exact h.refreshed (by omega)
  · exact .inr ⟨now, hrefreshed, hnow⟩

private theorem earlier_mono {time : Option Int} {bound bound' : Int} (h : earlier time bound)
    (hbound : bound ≤ bound') : earlier time bound' := by
  cases time with
  | none => exact h.elim
  | some t =>
    have hlt : t < bound := h
    show t < bound'
    omega

/-- A lease that was abandoned is so still, unless its attempt is not the last any more or it was refreshed. -/
theorem abandoned (h : Later since j k) (hj : j.Abandoned since timeout) (hnow : since ≤ now)
    (hprocessing : k.status = .processing) (hsame : k.attemptCount = j.attemptCount) :
    k.Abandoned now timeout ∨
      k.maxAttempts ≤ k.attemptCount ∧ ∃ time ∈ k.refreshedAt, since ≤ time := by
  obtain ⟨hlast, _, hexpired⟩ := hj
  have hmax := Job.maxAttempts_of_origin h.origin
  have hlast' : k.maxAttempts ≤ k.attemptCount := by omega
  rcases h.refreshed hsame with hkept | hrefreshed
  · left
    refine ⟨hlast', hprocessing, ?_⟩
    rw [hkept]
    exact earlier_mono hexpired (by omega)
  · exact .inr ⟨hlast', hrefreshed⟩

end Later

end Job

namespace System

variable {σ : System} {j : Job}

theorem run_later (hs : σ.world.store.Consistent) (hj : j ∈ σ.world.store.jobs) {events : List Event}
    (hclock : σ.Forward events) :
    ∃ k ∈ (σ.run events).world.store.jobs, Job.Later σ.world.now j k := by
  -- The clock is known to go forward only on the part of the run that the induction has reached.
  have hrun : σ.Forward events → ∃ k ∈ (σ.run events).world.store.jobs, Job.Later σ.world.now j k := by
    refine run_induction (P := fun before σ' => σ.Forward before →
      ∃ k ∈ σ'.world.store.jobs, Job.Later σ.world.now j k) ?_ ?_
    · intro _
      exact ⟨j, hj, .refl _ j⟩
    · intro before e _ hbefore hforward
      have hpart := (forward_append.1 hforward).1
      obtain ⟨i, hi, hlater⟩ := hbefore hpart
      obtain ⟨k, hk, horigin, hevolves⟩ := step_row (run_consistent hs before) e hi
      exact ⟨k, hk, hlater.evolves (run_now hpart) hevolves horigin⟩
  exact hrun hclock

/-! ### The list of a sweep -/

/-- The jobs are the last ones of the list that the task at a place has made at the beginning of its sweep. -/
def Listed (start : System) (events : List Event) (i : Nat) (jobs : List Job) : Prop :=
  ∃ before timeout, before ++ [.resume i] <+: events ∧
    (start.run before).tasks[i]? = some (.asked (.sweep timeout)) ∧
    jobs <:+ (start.run before).world.store.abandonedJobs (start.run before).world.now timeout

theorem Listed.snoc {start : System} {events : List Event} {i : Nat} {jobs rest : List Job}
    (h : start.Listed events i jobs) (hrest : rest <:+ jobs) (e : Event) :
    start.Listed (events ++ [e]) i rest := by
  obtain ⟨before, timeout, hwithin, hasked, hjobs⟩ := h
  exact ⟨before, timeout, hwithin.trans (List.prefix_append _ _), hasked, hrest.trans hjobs⟩

theorem run_listed {start : System} (hstart : start.tasks = []) (events : List Event) :
    ∀ i jobs given, (start.run events).tasks[i]? = some (.giveUp jobs given) → start.Listed events i jobs := by
  refine run_induction (P := fun events σ => ∀ i jobs given,
    σ.tasks[i]? = some (.giveUp jobs given) → start.Listed events i jobs) ?_ ?_
  · intro i jobs given h
    simp [hstart] at h
  · intro before e _ ih i jobs given h
    rcases step_task h with hold | ⟨r, _, _, hr⟩ | ⟨t, rfl, ht, hresumed⟩ | ⟨_, _, _, _, _, _, hcrashed⟩
    · exact (ih i jobs given hold).snoc List.suffix_rfl e
    · cases hr
    · obtain ⟨wr, _, _, hstep, _, _⟩ := t.resume_step (start.run before).world
      rw [← hresumed] at hstep
      cases hstep with
      | sweep timeout => exact ⟨before, timeout, List.prefix_rfl, ht, List.suffix_rfl⟩
      | skip j rest given => exact (ih i _ _ ht).snoc (List.suffix_cons j jobs) _
      | giveUp j rest given workerId hlocked => exact (ih i _ _ ht).snoc (List.suffix_cons j jobs) _
    · cases hcrashed

end System

/-! ### One job -/

/-- The row of a job that is given up by a sweep. -/
def Job.givenUp (now : Int) (j : Job) : Job :=
  { j with
    status := .deadLetter
    stage := .failed
    progress := 0
    lockedAt := none
    lockedBy := none
    heartbeatAt := some now
    finishedAt := some now
    error := some "lease expired after final attempt"
    updatedAt := now }

theorem Job.fail_leaseExpired (j : Job) (now : Int) :
    j.fail .deadLetter Recovery.leaseExpired now = j.givenUp now := rfl

namespace Recovery

/-- The row is still in the attempt that was listed. -/
def Takes (listed k : Job) : Prop :=
  ∃ workerId ∈ listed.lockedBy, (leaseOf listed workerId).Holds k

instance (listed k : Job) : Decidable (Takes listed k) :=
  inferInstanceAs (Decidable (∃ workerId ∈ listed.lockedBy, (leaseOf listed workerId).Holds k))

/-- The row after a job of the list was given up. -/
def taken (listed : Job) (now : Int) (k : Job) : Job :=
  if Takes listed k then k.givenUp now else k

theorem giveUp_jobs (listed : Job) (w : World) :
    ∃ w', (giveUp listed).on w = (.ok (decide (∃ k ∈ w.store.jobs, Takes listed k)), w') ∧ w'.now = w.now ∧
      w'.store.jobs = w.store.jobs.map (taken listed w.now) := by
  have hnone : (∀ k ∈ w.store.jobs, ¬Takes listed k) → w.store.jobs.map (taken listed w.now) = w.store.jobs := by
    intro hkept
    refine (List.map_congr_left fun k hk => ?_).trans (List.map_id _)
    simp [taken, hkept k hk]
  rw [giveUp_on]
  cases hlocked : listed.lockedBy with
  | none =>
    have hkept : ∀ k, ¬Takes listed k := by simp [Takes, hlocked]
    exact ⟨w, by simp [hkept], rfl, (hnone fun k _ => hkept k).symm⟩
  | some workerId =>
    have htakes : ∀ k, Takes listed k ↔ (leaseOf listed workerId).Holds k := by simp [Takes, hlocked]
    by_cases hcurrent : (leaseOf listed workerId).Current w.store
    · have hsome : ∃ k ∈ w.store.jobs, Takes listed k := by
        obtain ⟨k, hk, hholds⟩ := hcurrent
        exact ⟨k, hk, (htakes k).2 hholds⟩
      refine ⟨w.write (giveUpWrite listed workerId w), by simp [hcurrent, hsome], rfl, ?_⟩
      simp [World.write, Write.apply, giveUpWrite, taken, htakes, Job.fail_leaseExpired]
    · have hkept : ∀ k ∈ w.store.jobs, ¬Takes listed k := by
        intro k hk hk'
        exact hcurrent ⟨k, hk, (htakes k).1 hk'⟩
      refine ⟨w, ?_, rfl, (hnone hkept).symm⟩
      simpa [hcurrent] using hkept

end Recovery

namespace Task

/-- The jobs that a task has listed and not yet given up. -/
def listed : Task → List Job
  | giveUp jobs _ => jobs
  | _ => []

theorem exists_giveUp {t : Task} {j : Job} {rest : List Job} (h : t.listed = j :: rest) :
    ∃ given, t = giveUp (j :: rest) given := by
  cases t with
  | giveUp jobs given => exact ⟨given, by rw [← h]; rfl⟩
  | _ => simp [listed] at h

theorem resume_giveUp (j : Job) (rest : List Job) (given : Nat) (w : World) :
    ((giveUp (j :: rest) given).resume w).2.store.jobs = w.store.jobs.map (Recovery.taken j w.now) := by
  obtain ⟨w', hgiveUp, _, hjobs⟩ := Recovery.giveUp_jobs j w
  simp only [resume, next, Checked.on_bind, Checked.on_lift, hgiveUp, Checked.on_pure]
  exact hjobs

end Task

namespace System

/-- What a sweep is about to give up, in a run whose clock is never set back: the jobs whose row is still in the
attempt in which the sweep has listed it as abandoned. The lease of such a row is still expired, or it was
refreshed after the list was made; a job that was finished or claimed again is left alone. -/
theorem recovery (objects : ObjectStore) (now : Int) (ids : IdSequence) (events : List Event)
    (hclock : (initial objects now ids).Forward events) :
    let start := initial objects now ids
    let σ := start.run events
    ∀ i t j rest, σ.tasks[i]? = some t → t.listed = j :: rest →
      (σ.step (.resume i)).world.store.jobs = σ.world.store.jobs.map (Recovery.taken j σ.world.now) ∧
      ∃ before timeout,
        let snapshot := start.run before
        before ++ [.resume i] <+: events ∧ snapshot.tasks[i]? = some (.asked (.sweep timeout)) ∧
        j ∈ snapshot.world.store.abandonedJobs snapshot.world.now timeout ∧
        ∀ k ∈ σ.world.store.jobs, Recovery.Takes j k →
          k.Abandoned σ.world.now timeout ∨
            k.maxAttempts ≤ k.attemptCount ∧ ∃ time ∈ k.refreshedAt, snapshot.world.now ≤ time := by
  intro start σ i t j rest ht hlisted
  obtain ⟨given, rfl⟩ := Task.exists_giveUp hlisted
  constructor
  · rw [(step_resume ht).1]
    exact Task.resume_giveUp j rest given σ.world
  · obtain ⟨before, timeout, hwithin, hasked, hsuffix⟩ := run_listed rfl events i _ _ ht
    have hlisted : j ∈ (start.run before).world.store.abandonedJobs (start.run before).world.now timeout :=
      hsuffix.subset List.mem_cons_self
    refine ⟨before, timeout, hwithin, hasked, hlisted, ?_⟩
    rintro k hk ⟨workerId, _, hid, hprocessing, _, hsame⟩
    obtain ⟨hj, habandoned⟩ : j ∈ (start.run before).world.store.jobs ∧
        j.Abandoned (start.run before).world.now timeout := by
      simpa [Store.abandonedJobs] using hlisted
    -- The run since the list was made leads from the row that was listed to the one that is there now.
    obtain ⟨since, rfl⟩ := (List.prefix_append before [.resume i]).trans hwithin
    have hforward : (start.run before).Forward since := (forward_append.1 hclock).2
    have hconsistent : (start.run before).world.store.Consistent :=
      run_consistent Store.consistent_empty before
    have hσ : σ = (start.run before).run since := run_append start before since
    obtain ⟨l, hl, hlater⟩ := run_later hconsistent hj hforward
    rw [← hσ] at hl
    obtain rfl : k = l := by
      have hid' := Job.id_of_origin hlater.origin
      exact (run_consistent Store.consistent_empty _).job_eq hk hl (hid.trans hid'.symm)
    have hnow := run_now hforward
    rw [← hσ] at hnow
    exact hlater.abandoned habandoned hnow hprocessing hsame

/-- A worker vanishes in its only attempt; the sweep that has listed its job gives it up. -/
theorem recovery_vanished :
    let events : List Event :=
      [.start (.upload 1 ⟨"t1", "w1", "kb1", "a.md", [104, 105], none⟩), .resume 0, .resume 0, .resume 0,
        .start (.work ⟨"a", 1000, .default, .default⟩), .resume 1, .setClock 5000, .start (.sweep 1000), .resume 2]
    let σ := (initial (.memory []) 0 (.numbered "id")).run events
    ∃ j ∈ σ.world.store.jobs, j.Abandoned σ.world.now 1000 ∧
      j.givenUp σ.world.now ∈ (σ.step (.resume 2)).world.store.jobs := by
  intro events σ
  have hclock : (initial (.memory []) 0 (.numbered "id")).Forward events := by decide +kernel
  obtain ⟨j, hj, ⟨t, ht, hlisted⟩, htakes, habandoned⟩ : ∃ j ∈ σ.world.store.jobs,
      (∃ t ∈ σ.tasks[2]?, t.listed = [j]) ∧ Recovery.Takes j j ∧ j.Abandoned σ.world.now 1000 := by
    decide +kernel
  have hjobs := (recovery _ _ _ events hclock 2 t j [] ht hlisted).1
  refine ⟨j, hj, habandoned, ?_⟩
  rw [hjobs, List.mem_map]
  exact ⟨j, hj, if_pos htakes⟩

/-- The worker of a listed job refreshes its lease before the job is given up. The job is given up all the
same. -/
theorem recovery_overtakes :
    let start := initial (.memory []) 0 (.numbered "id")
    let events : List Event :=
      [.start (.upload 1 ⟨"t1", "w1", "kb1", "a.md", [104, 105], none⟩), .resume 0, .resume 0, .resume 0,
        .start (.work ⟨"a", 1000, .default, .default⟩), .resume 1, .setClock 5000, .start (.sweep 1000), .resume 2,
        .call (.heartbeat ⟨"id-3", "a", 1⟩)]
    let σ := start.run events
    start.Forward events ∧ (∀ e ∈ events, e.Regular) ∧
      ∃ j ∈ σ.world.store.jobs, j.heartbeatAt = some σ.world.now ∧ ¬j.Abandoned σ.world.now 1000 ∧
        j.givenUp σ.world.now ∈ (σ.step (.resume 2)).world.store.jobs := by
  intro start events σ
  refine ⟨?_, ?_, ?_⟩
  · decide +kernel
  · simp [events, Event.Regular]
  · decide +kernel

end System

end IngestionQueue
