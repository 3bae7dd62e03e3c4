import IngestionQueue.Proofs.Attempt

/-!
# The order of claims

A claim takes the first of the claimable jobs (`Job.before_of_first?`).  At the same time that job is not claimable any
more, because its lease was refreshed just now, and all others are as claimable as they were
(`Store.claimable_claim`).  So the jobs that are to be claimed stand in an order from which every claim takes the head
(`Store.ClaimOrder.claim`), and claims that follow each other run through it (`Checked.claiming`).  Only where the time
before which a lease is stale is not one of 64 bits does a claim overflow instead.
-/

namespace IngestionQueue

/-! ### The order of jobs -/

namespace Job

variable {j k : Job}

/-- The job was created earlier than another one, or at the same time and has no greater identifier. -/
def Before (j k : Job) : Prop :=
  j.createdAt < k.createdAt ∨ j.createdAt = k.createdAt ∧ j.id ≤ k.id

theorem Before.refl (j : Job) : j.Before j :=
  .inr ⟨rfl, String.le_refl j.id⟩

theorem Before.trans {i j k : Job} (h : i.Before j) (h' : j.Before k) : i.Before k := by
  rcases h with hlt | ⟨heq, hid⟩ <;> rcases h' with hlt' | ⟨heq', hid'⟩
  · exact .inl (by omega)
  · exact .inl (by omega)
  · exact .inl (by omega)
  · exact .inr ⟨by omega, String.le_trans hid hid'⟩

theorem Before.total (j k : Job) : j.Before k ∨ k.Before j := by
  rcases Int.lt_trichotomy j.createdAt k.createdAt with hlt | heq | hgt
  · exact .inl (.inl hlt)
  · rcases String.le_total j.id k.id with hle | hge
    · exact .inl (.inr ⟨heq, hle⟩)
    · exact .inr (.inr ⟨heq.symm, hge⟩)
  · exact .inr (.inl hgt)

theorem precedes_iff : j.precedes k = true ↔ j.Before k := by
  simp [precedes, Before]

/-- The first job of a list comes before all of them. -/
theorem before_of_first? {js : List Job} (h : first? js = some j) : ∀ k ∈ js, j.Before k := by
  induction js generalizing j with
  | nil => cases h
  | cons i rest ih =>
    simp only [first?] at h
    cases hrest : first? rest with
    | none =>
      rw [hrest] at h
      obtain rfl : i = j := Option.some.inj h
      obtain rfl : rest = [] := first?_eq_none_iff.1 hrest
      simpa using Before.refl i
    | some k =>
      rw [hrest] at h
      have hk := ih hrest
      obtain rfl : (if i.precedes k then i else k) = j := Option.some.inj h
      by_cases hi : i.precedes k = true
      · rw [if_pos hi]
        exact List.forall_mem_cons.2 ⟨.refl i, fun l hl => (precedes_iff.1 hi).trans (hk l hl)⟩
      · rw [if_neg hi]
        have hki : k.Before i := (Before.total i k).resolve_left (mt precedes_iff.2 hi)
        exact List.forall_mem_cons.2 ⟨hki, hk⟩

/-- Jobs that come before each other have one identifier. -/
theorem Before.id_eq (h : j.Before k) (h' : k.Before j) : j.id = k.id := by
  rcases h with hlt | ⟨heq, hid⟩ <;> rcases h' with hlt' | ⟨_, hid'⟩
  · omega
  · omega
  · omega
  · exact String.le_antisymm hid hid'

/-- A job that comes before all others of a list is its first one. -/
theorem first?_eq_some {js : List Job} (hj : j ∈ js) (hbefore : ∀ k ∈ js, j.Before k)
    (hids : ∀ k ∈ js, k.id = j.id → k = j) : first? js = some j := by
  cases hfirst : first? js with
  | none =>
    rw [first?_eq_none_iff.1 hfirst] at hj
    cases hj
  | some k =>
    have hk : k ∈ js := first?_mem hfirst
    have hkj : k.Before j := before_of_first? hfirst j hj
    rw [hids k hk (hkj.id_eq (hbefore k hk))]

/-- A job cannot be claimed once more at the time at which it was claimed. -/
theorem not_claimable_claim (j : Job) (workerId : String) (now : Int) {timeout : Int} (h : 0 ≤ timeout) :
    ¬(j.claim workerId now).Claimable now timeout := by
  rintro ⟨_, ⟨hwaiting, _⟩ | ⟨_, hearlier⟩⟩
  · rcases hwaiting with hstatus | hstatus <;> cases hstatus
  · have hexpired : now < now - timeout := hearlier
    omega

end Job

/-! ### What is to be claimed -/

namespace Store

theorem map_id_withJob (s : Store) (j : Job) : (s.withJob j).jobs.map Job.id = s.jobs.map Job.id := by
  simp only [withJob, List.map_map]
  refine List.map_congr_left fun k _ => ?_
  by_cases hid : k.id = j.id
  · simp [hid]
  · simp [hid]

/-- A claim takes the job out of the claimable ones, and leaves all others claimable as they were. -/
theorem claimable_claim (s : Store) (j : Job) (workerId : String) (now : Int) {timeout : Int} (h : 0 ≤ timeout) :
    (s.withJob (j.claim workerId now)).claimable now timeout =
      (s.claimable now timeout).filter fun k => k.id ≠ j.id := by
  have hid : (j.claim workerId now).id = j.id := rfl
  simp only [claimable, withJob, hid, List.filter_filter]
  induction s.jobs with
  | nil => rfl
  | cons k rest ih =>
    by_cases hk : k.id = j.id
    · have hnot := j.not_claimable_claim workerId now h
      simp [hk, hnot, ih]
    · by_cases hclaimable : k.Claimable now timeout
      · simp [hk, hclaimable, ih]
      · simp [hk, hclaimable, ih]

/-- The claimable jobs in the order of their creation, and of their identifiers where that is the same. -/
structure ClaimOrder (s : Store) (now timeout : Int) (order : List Job) : Prop where
  perm : order.Perm (s.claimable now timeout)
  sorted : order.Pairwise fun j k => j.Before k ∧ j.id ≠ k.id

namespace ClaimOrder

variable {s : Store} {now timeout : Int} {order rest : List Job} {j : Job}

theorem exists_order (hids : (s.jobs.map Job.id).Nodup) (now timeout : Int) :
    ∃ order, s.ClaimOrder now timeout order := by
  have hperm := List.mergeSort_perm (s.claimable now timeout) Job.precedes
  have hsorted : ((s.claimable now timeout).mergeSort Job.precedes).Pairwise fun j k => j.precedes k = true := by
    refine List.pairwise_mergeSort ?_ ?_ _
    · intro i j k hij hjk
      exact Job.precedes_iff.2 ((Job.precedes_iff.1 hij).trans (Job.precedes_iff.1 hjk))
    · intro j k
      simpa [Job.precedes_iff] using Job.Before.total j k
  have hclaimable : ((s.claimable now timeout).map Job.id).Nodup :=
    (List.filter_sublist.map Job.id).nodup hids
  have hdistinct : ((s.claimable now timeout).mergeSort Job.precedes).Pairwise fun j k => j.id ≠ k.id :=
    List.pairwise_map.1 ((hperm.map Job.id).nodup_iff.2 hclaimable)
  refine ⟨_, hperm, (hsorted.and hdistinct).imp ?_⟩
  rintro j k ⟨hprecedes, hid⟩
  exact ⟨Job.precedes_iff.1 hprecedes, hid⟩

theorem mem (h : s.ClaimOrder now timeout order) (hj : j ∈ order) : j ∈ s.jobs :=
  (List.mem_filter.1 (h.perm.subset hj)).1

/-- The head of the order is the job that is claimed next. -/
theorem first? (h : s.ClaimOrder now timeout (j :: rest)) : Job.first? (s.claimable now timeout) = some j := by
  obtain ⟨hlater, _⟩ := List.pairwise_cons.1 h.sorted
  refine Job.first?_eq_some (h.perm.subset List.mem_cons_self) (fun k hk => ?_) fun k hk hid => ?_
  · rcases List.mem_cons.1 (h.perm.symm.subset hk) with rfl | hrest
    · exact .refl k
    · exact (hlater k hrest).1
  · rcases List.mem_cons.1 (h.perm.symm.subset hk) with rfl | hrest
    · rfl
    · exact absurd hid.symm (hlater k hrest).2

/-- Once the head is claimed, the others are to be claimed in the same order. -/
theorem claim (h : s.ClaimOrder now timeout (j :: rest)) (htimeout : 0 ≤ timeout) (workerId : String) :
    (s.withJob (j.claim workerId now)).ClaimOrder now timeout rest := by
  obtain ⟨hlater, hsorted⟩ := List.pairwise_cons.1 h.sorted
  have hrest : (j :: rest).filter (fun k => k.id ≠ j.id) = rest := by
    rw [List.filter_cons_of_neg (by simp), List.filter_eq_self]
    intro k hk
    simpa using Ne.symm (hlater k hk).2
  refine ⟨?_, hsorted⟩
  rw [claimable_claim s j workerId now htimeout, ← hrest]
  simpa using h.perm.filter fun k => k.id ≠ j.id

end ClaimOrder

end Store

/-! ### Claims that follow each other -/

namespace Checked

variable {w : World} {timeout : Int} {order : List Job}

theorem claimNext_of_cons (hids : (w.store.jobs.map Job.id).Nodup) (hfits : Word.Fits64 (w.now - timeout)) {j : Job}
    {rest : List Job} (h : w.store.ClaimOrder w.now timeout (j :: rest)) (workerId : String) :
    (claimNext workerId timeout).on w =
      (.ok (some (j.claim workerId w.now).claimed), { w with store := w.store.withJob (j.claim workerId w.now) }) := by
  rw [claimNext_on hfits, h.first?]
  simp only [World.write, Write.apply_claim hids (h.mem List.mem_cons_self)]

theorem claimNext_of_nil (hfits : Word.Fits64 (w.now - timeout)) (h : w.store.ClaimOrder w.now timeout [])
    (workerId : String) : (claimNext workerId timeout).on w = (.ok none, w) := by
  have hnone : w.store.claimable w.now timeout = [] := h.perm.symm.eq_nil
  rw [claimNext_on hfits, Job.first?_eq_none_iff.2 hnone]

/-- Claims take the jobs from the head of the order, one after the other. -/
theorem mapM_claimNext_on (hids : (w.store.jobs.map Job.id).Nodup) (htimeout : 0 ≤ timeout)
    (hfits : Word.Fits64 (w.now - timeout)) (h : w.store.ClaimOrder w.now timeout order) (workers : List String) :
    ∃ s', (workers.mapM fun workerId => claimNext workerId timeout).on w =
        (.ok (List.zipWith (fun j workerId => some (j.claim workerId w.now).claimed) order workers ++
          List.replicate (workers.length - order.length) none), { w with store := s' }) ∧
      (s'.jobs.map Job.id).Nodup ∧ s'.ClaimOrder w.now timeout (order.drop workers.length) := by
  induction workers generalizing w order with
  | nil => exact ⟨w.store, by simp, hids, h⟩
  | cons workerId workers ih =>
    rw [List.mapM_cons]
    cases order with
    | nil =>
      obtain ⟨s', hon, hids', h'⟩ := ih hids hfits h
      refine ⟨s', ?_, hids', by simpa using h'⟩
      simp only [on_bind, claimNext_of_nil hfits h, hon, on_pure]
      simp [List.replicate_succ]
    | cons j rest =>
      have hids₁ : ((w.store.withJob (j.claim workerId w.now)).jobs.map Job.id).Nodup := by
        rw [Store.map_id_withJob]
        exact hids
      obtain ⟨s', hon, hids', h'⟩ :=
        ih (w := { w with store := w.store.withJob (j.claim workerId w.now) }) hids₁ hfits (h.claim htimeout workerId)
      refine ⟨s', ?_, hids', by simpa using h'⟩
      simp only [on_bind, claimNext_of_cons hids hfits h, hon, on_pure]
      simp

/-- Claims that are made one after the other at one time, by whatever workers, hand out the jobs that were claimable at
the beginning, each of them once, in the order of their creation, and none after that.  Each claim finds the job as it
was at the beginning and changes its row alone: the row counts one attempt more and is held by the worker, and what the
worker gets is read off it.  A claim that hands out no job changes nothing.  Where the time that lies the timeout before
is not one of 64 bits, every claim overflows and changes nothing. -/
theorem claiming {w : World} (hids : (w.store.jobs.map Job.id).Nodup) {timeout : Int} (htimeout : 0 ≤ timeout) :
    (Word.Fits64 (w.now - timeout) →
      ∃ order, w.store.ClaimOrder w.now timeout order ∧ ∀ workers : List String, ∃ s',
        (workers.mapM fun workerId => claimNext workerId timeout).on w =
          (.ok (List.zipWith (fun j workerId => some (j.claim workerId w.now).claimed) order workers ++
            List.replicate (workers.length - order.length) none), { w with store := s' }) ∧
        ∀ workerId : String,
          match order[workers.length]? with
          | none => (claimNext workerId timeout).on { w with store := s' } = (.ok none, { w with store := s' })
          | some j => j ∈ s'.jobs ∧ ∃ k : Job,
              (claimNext workerId timeout).on { w with store := s' } =
                (.ok (some k.claimed), { w with store := s'.withJob k }) ∧
              k.origin = j.origin ∧ k.attemptCount = j.attemptCount + 1 ∧
              (k.claimed.lease workerId).Holds k) ∧
      (¬Word.Fits64 (w.now - timeout) →
        ∀ workerId : String, (claimNext workerId timeout).on w = (.error (.overflow .sub), w)) := by
  refine ⟨fun hfits => ?_, claimNext_of_overflow⟩
  obtain ⟨order, horder⟩ := Store.ClaimOrder.exists_order hids w.now timeout
  refine ⟨order, horder, fun workers => ?_⟩
  obtain ⟨s', hon, hids', hleft⟩ := mapM_claimNext_on hids htimeout hfits horder workers
  refine ⟨s', hon, fun workerId => ?_⟩
  -- What is left of the order decides what the next claim finds.
  let w' : World := { w with store := s' }
  rw [← List.head?_drop]
  cases hdrop : order.drop workers.length with
  | nil =>
    rw [hdrop] at hleft
    exact claimNext_of_nil (w := w') hfits hleft workerId
  | cons j rest =>
    rw [hdrop] at hleft
    exact ⟨hleft.mem List.mem_cons_self, j.claim workerId w.now,
      claimNext_of_cons (w := w') hids' hfits hleft workerId, rfl, rfl, rfl, rfl, rfl, rfl⟩

/-- Of four jobs one is not due, and one was claimed before but its lease has expired.  Three claims, two of them by the
same worker, hand out the others, and nobody finds one after that. -/
theorem claiming_reclaimed :
    let row (id : String) (createdAt : Int) : Job :=
      .queued id createdAt ⟨"t1", "w1", "kb1", "d1", "v1"⟩ .upload id 3
    let s : Store := ⟨[], [], [], [row "b" 5, row "a" 5,
      { row "c" 1 with status := .processing, lockedAt := some 2, lockedBy := some "z", attemptCount := 1 },
      { row "d" 0 with status := .retrying, nextRunAt := 20, attemptCount := 1 }]⟩
    let w : World := ⟨s, .memory [], 10, .numbered "id"⟩
    ∃ answers w', (["x", "y", "x"].mapM fun workerId => claimNext workerId 0).on w = (.ok answers, w') ∧
      answers.map (Option.map ClaimedJob.id) = [some "c", some "a", some "b"] ∧
      ∀ workerId : String, (claimNext workerId 0).on w' = (.ok none, w') := by
  intro row s w
  have hids : (w.store.jobs.map Job.id).Nodup := by decide
  obtain ⟨order, horder, hall⟩ := (claiming hids (Int.le_refl 0)).1 (by decide)
  have hlength : order.length = 3 := horder.perm.length_eq.trans (by decide)
  obtain ⟨s', hon, hnext⟩ := hall ["x", "y", "x"]
  have hnone : order[["x", "y", "x"].length]? = none := List.getElem?_eq_none (by simp [hlength])
  rw [hnone] at hnext
  have hanswers : ((["x", "y", "x"].mapM fun workerId => claimNext workerId 0).on w).1.map
      (List.map (Option.map ClaimedJob.id)) = .ok [some "c", some "a", some "b"] := by decide +kernel
  rw [hon] at hanswers
  exact ⟨_, _, hon, Except.ok.inj hanswers, hnext⟩

/-- A job waits to be claimed, but the clock stands before the year 1970 and the timeout is the greatest that there is.
Every claim overflows, and hands out nothing. -/
theorem claiming_overflowing :
    let row : Job := .queued "a" (-2) ⟨"t1", "w1", "kb1", "d1", "v1"⟩ .upload "a" 3
    let w : World := ⟨⟨[], [], [], [row]⟩, .memory [], -2, .numbered "id"⟩
    0 ≤ Word.greatest ∧ w.store.claimable w.now Word.greatest = [row] ∧
      ∀ workerId : String, (claimNext workerId Word.greatest).on w = (.error (.overflow .sub), w) := by
  intro row w
  exact ⟨by decide, by decide, claimNext_of_overflow (by decide)⟩

end Checked

end IngestionQueue
