import IngestionQueue.Proofs.System

/-!
# Fencing

A claim numbers the attempt, so no two leases that are ever handed out agree in job and attempt.  A lease that
is no longer current stays so whatever happens (`Lease.Over.run`), and every call that is made under it fails
and changes nothing (`System.fencing`).  The invariant is `Fenced`: the row of a job counts at least as many
attempts as any lease of it, and as long as it is processing the attempt of a lease it is locked by the worker
of that lease.
-/

namespace IngestionQueue

/-- A later attempt of the job was claimed, or the attempt of the lease has been settled. -/
def Lease.Over (l : Lease) (s : Store) : Prop :=
  ∃ j ∈ s.jobs, j.id = l.jobId ∧
    (l.attempt < j.attemptCount ∨ l.attempt = j.attemptCount ∧ j.status ≠ .processing)

/-- What the tables say of the leases that were handed out. -/
structure Fenced (leases : List Lease) (s : Store) : Prop where
  counted : ∀ l ∈ leases, ∃ j ∈ s.jobs, j.id = l.jobId ∧ l.attempt ≤ j.attemptCount
  locked : ∀ l ∈ leases, ∀ j ∈ s.jobs, j.id = l.jobId → j.attemptCount = l.attempt → j.status = .processing →
    j.lockedBy = some l.workerId
  distinct : (leases.map fun l => (l.jobId, l.attempt)).Nodup

namespace Write

/-- An attempt is counted by the claim of the row. Any other write leaves the count, and the row is processing
after it only if it was before, for the same worker. -/
theorem job_attempt (wr : Write) (j : Job) :
    (∃ k workerId now timeout, wr = claim k workerId now timeout ∧ j.id = k.id ∧
      wr.job j = j.claim workerId now) ∨
      ((wr.job j).attemptCount = j.attemptCount ∧
        ((wr.job j).status = .processing → j.status = .processing ∧ (wr.job j).lockedBy = j.lockedBy)) := by
  cases wr with
  | claim k workerId now timeout =>
    by_cases hid : j.id = k.id
    · exact .inl ⟨k, workerId, now, timeout, rfl, hid, by simp [hid]⟩
    · exact .inr (by simp [hid])
  | insert _ => exact .inr (by simp)
  | save _ _ _ => exact .inr (by simp)
  | markDeleted _ => exact .inr (by simp)
  | refresh l now | mark l _ now =>
    right
    by_cases hl : l.Holds j <;> simp [hl, Job.refresh]
  | advance l stage progress now =>
    right
    by_cases hl : l.Holds j <;> simp [hl, Job.advance, Job.refresh]
  | finalize l _ _ now =>
    right
    by_cases hl : l.Holds j <;> simp [hl, Job.complete, Job.refresh]
  | fail l _ _ outcome error now =>
    right
    by_cases hl : l.Holds j
    · cases outcome <;> simp [hl, Job.fail, Job.refresh]
    · simp [hl]

theorem attemptCount_le (wr : Write) (j : Job) : j.attemptCount ≤ (wr.job j).attemptCount := by
  rcases wr.job_attempt j with ⟨_, _, _, _, _, _, h⟩ | ⟨h, _⟩
  · simp only [h, Job.claim]
    omega
  · omega

end Write

/-! ### Leases that are over -/

namespace Lease.Over

variable {l : Lease} {s s' : Store}

theorem apply (h : l.Over s) (wr : Write) : l.Over (wr.apply s) := by
  obtain ⟨j, hj, hid, hover⟩ := h
  refine ⟨wr.job j, Write.mem_jobs.2 (.inl ⟨j, hj, rfl⟩), by rw [wr.job_id, hid], ?_⟩
  -- Only a claim makes a settled row processing again, and then the count has left the lease behind.
  rcases wr.job_attempt j with ⟨_, _, _, _, _, _, hclaim⟩ | ⟨hcount, hstatus⟩
  · simp only [hclaim, Job.claim]
    omega
  · rcases hover with hlater | ⟨hcurrent, hsettled⟩
    · exact .inl (by omega)
    · exact .inr ⟨by omega, fun hprocessing => hsettled (hstatus hprocessing).1⟩

theorem commits {wr : Option Write} (h : l.Over s) (hwr : Write.Commits s wr s') : l.Over s' := by
  cases hwr with
  | nothing => exact h
  | made _ => exact h.apply _

theorem run {σ : System} (h : l.Over σ.world.store) (events : List Event) :
    l.Over (σ.run events).world.store := by
  refine System.run_induction (P := fun _ σ => l.Over σ.world.store) h ?_
  intro before e _ hbefore
  obtain ⟨wr, hwr, _⟩ := (σ.run before).step_write e
  exact hbefore.commits hwr

theorem not_current (h : l.Over s) (hs : s.Consistent) : ¬l.Current s := by
  rintro ⟨k, hk, hkid, hprocessing, _, hcount⟩
  obtain ⟨j, hj, hid, hover⟩ := h
  obtain rfl : j = k := hs.job_eq hj hk (hid.trans hkid.symm)
  rcases hover with hlater | ⟨_, hsettled⟩
  · omega
  · exact hsettled hprocessing

end Lease.Over

/-! ### The leases that were handed out -/

namespace Fenced

variable {leases : List Lease} {s s' : Store}

theorem over_of_not_current (h : Fenced leases s) {l : Lease} (hl : l ∈ leases) (hcurrent : ¬l.Current s) :
    l.Over s := by
  obtain ⟨j, hj, hid, hcount⟩ := h.counted l hl
  refine ⟨j, hj, hid, ?_⟩
  rcases Int.lt_or_eq_of_le hcount with hlater | hsame
  · exact .inl hlater
  · -- A row that is processing this very attempt is locked by the worker of the lease, which would be current.
    refine .inr ⟨hsame, fun hprocessing => hcurrent ⟨j, hj, hid, hprocessing, ?_, hsame.symm⟩⟩
    exact h.locked l hl j hj hid hsame.symm hprocessing

private theorem counted_apply (h : Fenced leases s) {wr : Write} (hwr : wr.Allowed s) :
    ∀ l ∈ leases ++ wr.granted.toList, ∃ j ∈ (wr.apply s).jobs,
      j.id = l.jobId ∧ l.attempt ≤ j.attemptCount := by
  intro l hl
  rcases List.mem_append.1 hl with hold | hnew
  · obtain ⟨j, hj, hid, hcount⟩ := h.counted l hold
    have hle := wr.attemptCount_le j
    exact ⟨wr.job j, Write.mem_jobs.2 (.inl ⟨j, hj, rfl⟩), by rw [wr.job_id, hid], by omega⟩
  · cases wr with
    | claim k workerId now timeout =>
      obtain rfl : l = ⟨k.id, workerId, k.attemptCount + 1⟩ := by simpa [Write.granted] using hnew
      refine ⟨k.claim workerId now, Write.mem_jobs.2 (.inl ⟨k, hwr.claimable.1, by simp⟩), rfl, ?_⟩
      exact Int.le_refl _
    | _ => simp [Write.granted] at hnew

private theorem locked_apply (h : Fenced leases s) (hs : s.Consistent) {wr : Write} (hwr : wr.Allowed s) :
    ∀ l ∈ leases ++ wr.granted.toList, ∀ j ∈ (wr.apply s).jobs, j.id = l.jobId → j.attemptCount = l.attempt →
      j.status = .processing → j.lockedBy = some l.workerId := by
  intro l hl j hj hid hcount hprocessing
  rcases List.mem_append.1 hl with hold | hnew
  · obtain ⟨k, hk, hkid, hkcount⟩ := h.counted l hold
    rcases Write.mem_jobs.1 hj with ⟨i, hi, rfl⟩ | hinserted
    · obtain rfl : i = k := hs.job_eq hi hk (by rw [← wr.job_id i, hid, hkid])
      rcases wr.job_attempt i with ⟨_, _, _, _, _, _, hclaim⟩ | ⟨hsame, hstatus⟩
      · -- The claim has counted one attempt more than the older lease has.
        simp only [hclaim, Job.claim] at hcount
        omega
      · rw [(hstatus hprocessing).2]
        exact h.locked l hold i hi hkid (by omega) (hstatus hprocessing).1
    · exact absurd (hkid.trans hid.symm) ((hwr.acceptsJob hinserted).id k hk)
  · cases wr with
    | claim k workerId now timeout =>
      obtain rfl : l = ⟨k.id, workerId, k.attemptCount + 1⟩ := by simpa [Write.granted] using hnew
      rcases Write.mem_jobs.1 hj with ⟨i, hi, rfl⟩ | hinserted
      · have hik : i.id = k.id := by rwa [Write.job_id] at hid
        simp [hik, Job.claim]
      · simp at hinserted
    | _ => simp [Write.granted] at hnew

private theorem distinct_apply (h : Fenced leases s) (hs : s.Consistent) {wr : Write} (hwr : wr.Allowed s) :
    ((leases ++ wr.granted.toList).map fun l => (l.jobId, l.attempt)).Nodup := by
  cases wr with
  | claim k workerId now timeout =>
    simp only [Write.granted, Option.toList_some, List.map_append, List.map_cons, List.map_nil]
    refine List.nodup_append.2 ⟨h.distinct, List.nodup_singleton _, ?_⟩
    -- A lease of the job that is claimed has an attempt that its row counts already.
    intro a ha b hb hab
    obtain ⟨l, hl, rfl⟩ := List.mem_map.1 ha
    obtain ⟨j, hj, hid, hcount⟩ := h.counted l hl
    obtain ⟨hjob, hattempt⟩ : l.jobId = k.id ∧ l.attempt = k.attemptCount + 1 := by
      simpa using hab.trans (List.mem_singleton.1 hb)
    obtain rfl : j = k := hs.job_eq hj hwr.claimable.1 (hid.trans hjob)
    omega
  | _ => simpa [Write.granted] using h.distinct

theorem commits (h : Fenced leases s) (hs : s.Consistent) {wr : Option Write} (hwr : Write.Commits s wr s') :
    Fenced (leases ++ (wr.bind Write.granted).toList) s' := by
  cases hwr with
  | nothing => simpa using h
  | made hallowed =>
    exact ⟨h.counted_apply hallowed, h.locked_apply hs hallowed, h.distinct_apply hs hallowed⟩

end Fenced

namespace System

theorem run_fenced {σ : System} (hs : σ.world.store.Consistent) (h : Fenced σ.leases σ.world.store)
    (events : List Event) : Fenced (σ.run events).leases (σ.run events).world.store := by
  refine run_induction (P := fun _ σ => Fenced σ.leases σ.world.store) h ?_
  intro before e _ hbefore
  obtain ⟨wr, hwr, hleases, _⟩ := (σ.run before).step_write e
  rw [hleases]
  exact hbefore.commits (run_consistent hs before) hwr

/-- A call under a lease that is not current fails and changes nothing. -/
theorem perform_of_not_current {c : Call} {l : Lease} {w : World} (hc : c.lease? = some l)
    (hcurrent : ¬l.Current w.store) : ∃ e, c.perform.on w = (.error (.failed e), w) := by
  rcases c.perform_on w with herror | ⟨hclaim, _⟩ | ⟨wr, hallowed, hcall, _⟩
  · exact herror
  · rw [hc] at hclaim
    cases hclaim
  · exact absurd (hallowed.current ((Write.lease?_of_call? hcall).trans hc)) hcurrent

/-- In every run, no two leases that were handed out agree in job and attempt. A call under one that is not
current fails and changes nothing, and it is not current after any more events. -/
theorem fencing (objects : ObjectStore) (now : Int) (ids : IdSequence) (events : List Event) :
    let σ := (initial objects now ids).run events
    (σ.leases.map fun l => (l.jobId, l.attempt)).Nodup ∧
      ∀ l ∈ σ.leases, ¬l.Current σ.world.store →
        (∀ c : Call, c.lease? = some l → ∃ e, c.perform.on σ.world = (.error (.failed e), σ.world)) ∧
        ∀ more : List Event, ¬l.Current (σ.run more).world.store := by
  intro σ
  have hconsistent : σ.world.store.Consistent := run_consistent Store.consistent_empty events
  have hfenced : Fenced σ.leases σ.world.store := by
    refine run_fenced Store.consistent_empty ⟨?_, ?_, ?_⟩ events <;> simp [initial]
  refine ⟨hfenced.distinct, fun l hl hcurrent => ⟨fun c hc => perform_of_not_current hc hcurrent, ?_⟩⟩
  intro more
  exact ((hfenced.over_of_not_current hl hcurrent).run more).not_current (run_consistent hconsistent more)

/-- A worker is overtaken by another one; what it has found out is not written any more. -/
theorem fencing_overtaken :
    let events : List Event :=
      [.start (.upload 3 ⟨"t1", "w1", "kb1", "a.md", [104, 105], none⟩), .resume 0, .resume 0, .resume 0,
        .call (.claim "a" 1000), .setClock 5000, .call (.claim "b" 1000)]
    let σ := (initial (.memory []) 0 (.numbered "id")).run events
    ∃ e, (Call.finalize ⟨"id-3", "a", 1⟩ ⟨"t1", "w1", "kb1", "id-1", "id-2", none, none⟩
      [⟨"id-4", 1, "hi", 1⟩]).perform.on σ.world = (.error (.failed e), σ.world) := by
  intro events σ
  obtain ⟨hfails, _⟩ := (fencing (.memory []) 0 (.numbered "id") events).2 ⟨"id-3", "a", 1⟩
    (by decide +kernel) (by decide +kernel)
  exact hfails (.finalize ⟨"id-3", "a", 1⟩ _ _) rfl

end System

end IngestionQueue
