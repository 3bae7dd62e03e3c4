import IngestionQueue.Proofs.Backoff
import IngestionQueue.Settings.Layers
import IngestionQueue.Store.Jobs

/-!
# Accepted settings

Durations are given as unsigned numbers.  The checks of the settings, the leases and the delays between attempts use
them as signed ones.  As long as the heartbeat interval and the greatest delay are the same numbers either way, what was
checked is what is used: a lease outlives the time between two heartbeats (`Settings.LeaseSafe`), and the delays grow
from attempt to attempt up to the greatest one (`Settings.RetrySafe`).  A greater number is read as a negative one,
passes the checks, and breaks what they are for (`Settings.safety`).
-/

namespace IngestionQueue

/-! ### The checks -/

namespace Settings

variable {s : Settings}

/-- What the checks ask for, as they see it. -/
structure Passes (s : Settings) : Prop where
  maxAttempts : 1 ≤ s.defaultMaxAttempts
  lease : Word.wrap s.heartbeatIntervalMs < s.leaseTimeoutMs
  intervals : 0 < s.pollIntervalMs ∧ 0 < s.heartbeatIntervalMs ∧ 0 < s.recoveryIntervalSecs
  retry : s.retryBaseSecs ≤ s.retryMaxSecs
  chunking : ∃ c, s.chunkConfig = .ok c

theorem validate_eq_ok_iff : s.validate = .ok () ↔ s.Passes := by
  constructor
  · intro h
    simp only [validate] at h
    split at h
    · cases h
    split at h
    · cases h
    split at h
    · cases h
    split at h
    · cases h
    split at h
    · cases h
    · rename_i hattempts hlease hintervals hretry _ config hconfig
      exact ⟨by omega, by omega, by omega, by omega, config, hconfig⟩
  · intro h
    obtain ⟨config, hconfig⟩ := h.chunking
    have hattempts : ¬s.defaultMaxAttempts < 1 := Int.not_lt.2 h.maxAttempts
    have hlease : ¬s.leaseTimeoutMs ≤ Word.wrap s.heartbeatIntervalMs := Int.not_le.2 h.lease
    have hintervals : ¬(s.pollIntervalMs = 0 ∨ s.heartbeatIntervalMs = 0 ∨ s.recoveryIntervalSecs = 0) := by
      have := h.intervals
      omega
    have hretry : ¬s.retryMaxSecs < s.retryBaseSecs := Nat.not_lt.2 h.retry
    simp only [validate, if_neg hattempts, if_neg hlease, if_neg hintervals, if_neg hretry, hconfig]

/-- The durations are unsigned numbers of 64 bits. -/
structure InRange (s : Settings) : Prop where
  heartbeat : (s.heartbeatIntervalMs : Int) ≤ Word.greatestUnsigned
  lease : (s.leaseTimeoutSecs : Int) ≤ Word.greatestUnsigned
  base : (s.retryBaseSecs : Int) ≤ Word.greatestUnsigned
  max : (s.retryMaxSecs : Int) ≤ Word.greatestUnsigned

theorem Layers.le_of_nat {ls : Layers} {name : String} {n : Nat}
    (h : (ls.get? name).bind Raw.toNat64? = some n) : (n : Int) ≤ Word.greatestUnsigned := by
  obtain ⟨r, -, hr⟩ := Option.bind_eq_some_iff.1 h
  obtain ⟨m, hm, rfl⟩ := Option.map_eq_some_iff.1 hr
  have hrange : 0 ≤ m ∧ m ≤ Word.greatestUnsigned := by simpa using (Option.filter_eq_some_iff.1 hm).2
  omega

/-- One value is read after the other, and each is the field of its name. -/
theorem inRange_of_ofLayers {ls : Layers} (h : ofLayers ls = some s) : s.InRange := by
  unfold ofLayers at h
  iterate 5 obtain ⟨_, -, h⟩ := Option.bind_eq_some_iff.1 h
  obtain ⟨heartbeat, hheartbeat, h⟩ := Option.bind_eq_some_iff.1 h
  obtain ⟨lease, hlease, h⟩ := Option.bind_eq_some_iff.1 h
  obtain ⟨_, -, h⟩ := Option.bind_eq_some_iff.1 h
  obtain ⟨base, hbase, h⟩ := Option.bind_eq_some_iff.1 h
  obtain ⟨max, hmax, h⟩ := Option.bind_eq_some_iff.1 h
  have hrange : s.heartbeatIntervalMs = heartbeat ∧ s.leaseTimeoutSecs = lease ∧ s.retryBaseSecs = base ∧
      s.retryMaxSecs = max := by
    iterate 7 obtain ⟨_, -, h⟩ := Option.bind_eq_some_iff.1 h
    split at h
    · obtain rfl := Option.some.inj h
      exact ⟨rfl, rfl, rfl, rfl⟩
    · obtain ⟨_, -, h⟩ := Option.bind_eq_some_iff.1 h
      obtain rfl := Option.some.inj h
      exact ⟨rfl, rfl, rfl, rfl⟩
  obtain ⟨rfl, rfl, rfl, rfl⟩ := hrange
  exact ⟨Layers.le_of_nat hheartbeat, Layers.le_of_nat hlease, Layers.le_of_nat hbase, Layers.le_of_nat hmax⟩

/-- Settings that are read pass the checks and are in range, whatever the file and the environment say. -/
theorem accepted_of_load {file : Option String} {environment : List (String × String)}
    (h : load file environment = .ok s) : s.InRange ∧ s.validate = .ok () := by
  simp only [load] at h
  cases hlayers : layers file environment with
  | error e =>
    rw [hlayers] at h
    cases h
  | ok ls =>
    rw [hlayers] at h
    cases hread : ofLayers ls with
    | none =>
      simp only [bind, Except.bind, hread] at h
      cases h
    | some s' =>
      simp only [bind, Except.bind, hread] at h
      cases hvalid : s'.validate with
      | error e =>
        rw [hvalid] at h
        cases h
      | ok u =>
        rw [hvalid] at h
        obtain rfl : s' = s := Except.ok.inj h
        exact ⟨inRange_of_ofLayers hread, hvalid⟩

/-- The settings where nothing else is said. -/
def standard : Settings where
  databaseUrl := "~/.ingest/ingest.db"
  storageRoot := "./.storage"
  workerId := "ingest-worker-1"
  workerConcurrency := 1
  pollIntervalMs := 2000
  heartbeatIntervalMs := 10000
  leaseTimeoutSecs := 300
  recoveryIntervalSecs := 60
  retryBaseSecs := 15
  retryMaxSecs := 1800
  defaultMaxAttempts := 5
  chunkSize := 900
  chunkOverlap := 120
  rpcEnabled := true
  rpcHost := "127.0.0.1"
  rpcPort := 9531
  logFormat := .pretty
  logDir := none

theorem load_standard : load none [] = .ok standard :=
  rfl

/-! ### Main result -/

/-- The lease timeout of the settings is more than their heartbeat interval, also as it is used. -/
structure LeaseSafe (s : Settings) : Prop where
  exceeds : (s.heartbeatIntervalMs : Int) < 1000 * s.leaseTimeoutSecs
  pos : 0 < s.leaseTimeoutMs
  exceedsUsed : s.heartbeatIntervalMs < s.leaseTimeoutMs

/-- A job whose worker has sent a heartbeat keeps its lease until the next one. -/
theorem LeaseSafe.not_leaseExpired (h : s.LeaseSafe) {j : Job} {time now : Int} (hj : j.refreshedAt = some time)
    (hnow : now ≤ time + s.heartbeatIntervalMs) : ¬j.LeaseExpired now s.leaseTimeoutMs := by
  rintro ⟨-, hearlier⟩
  rw [hj] at hearlier
  have hexpired : time < now - s.leaseTimeoutMs := hearlier
  have hexceeds := h.exceedsUsed
  omega

/-- The delays between attempts grow up to the greatest delay of the settings. -/
def RetrySafe (s : Settings) : Prop :=
  let p := RetryPolicy.ofSeconds s.retryBaseSecs s.retryMaxSecs
  ∀ attempt : Int, 1 ≤ attempt →
    0 ≤ p.delay attempt ∧ p.delay attempt ≤ p.delay (attempt + 1) ∧
      p.delay (attempt + 1) ≤ 1000 * s.retryMaxSecs

theorem Passes.leaseSafe (h : s.Passes) (hrange : s.InRange)
    (hheartbeat : (s.heartbeatIntervalMs : Int) ≤ Word.greatest) : s.LeaseSafe := by
  have hlease := h.lease
  rw [Word.wrap_of_le hheartbeat] at hlease
  have hpos : 0 < s.leaseTimeoutMs := by omega
  have hsecs : (s.leaseTimeoutSecs : Int) ≤ Word.greatest := by
    refine Int.not_lt.1 fun hgreater => ?_
    have hneg : s.leaseTimeoutMs < 0 := Word.millis_neg hgreater hrange.lease
    omega
  have hexact : s.leaseTimeoutMs ≤ 1000 * s.leaseTimeoutSecs := (Word.millis_of_le hsecs).2
  exact ⟨by omega, hpos, hlease⟩

theorem leaseTimeoutMs_lt (h : Word.greatest < s.heartbeatIntervalMs) : s.leaseTimeoutMs < s.heartbeatIntervalMs :=
  Int.lt_of_le_of_lt (Word.saturate_le_greatest _) h

theorem Passes.retrySafe (h : s.Passes) (hmax : (s.retryMaxSecs : Int) ≤ Word.greatest) : s.RetrySafe := by
  have hbase : (s.retryBaseSecs : Int) ≤ Word.greatest := by
    have := h.retry
    omega
  obtain ⟨hbaseDelay, -⟩ := Word.millis_of_le hbase
  obtain ⟨hmaxDelay, hexact⟩ := Word.millis_of_le hmax
  intro attempt _
  exact ⟨RetryPolicy.delay_nonneg hbaseDelay hmaxDelay attempt, RetryPolicy.delay_mono hbaseDelay (by omega),
    Int.le_trans (RetryPolicy.delay_le _ _) hexact⟩

theorem delay_neg (h : Word.greatest < s.retryMaxSecs) (hrange : s.InRange) (attempt : Int) :
    (RetryPolicy.ofSeconds s.retryBaseSecs s.retryMaxSecs).delay attempt < 0 :=
  Int.lt_of_le_of_lt (RetryPolicy.delay_le _ _) (Word.millis_neg h hrange.max)

/-- Settings that pass the checks have a safe lease if, and only if, their heartbeat interval is a signed number, and
safe delays if, and only if, their greatest delay is. -/
theorem safety (hrange : s.InRange) (h : s.validate = .ok ()) :
    (s.LeaseSafe ↔ s.heartbeatIntervalMs ≤ Word.greatest) ∧
      (s.RetrySafe ↔ s.retryMaxSecs ≤ Word.greatest) := by
  have hpasses : s.Passes := validate_eq_ok_iff.1 h
  refine ⟨⟨fun hsafe => ?_, hpasses.leaseSafe hrange⟩, ⟨fun hsafe => ?_, hpasses.retrySafe⟩⟩
  · refine Int.not_lt.1 fun hgreater => ?_
    have hless := leaseTimeoutMs_lt hgreater
    have hexceeds := hsafe.exceedsUsed
    omega
  · refine Int.not_lt.1 fun hgreater => ?_
    have hneg := delay_neg hgreater hrange 1
    have hnonneg := (hsafe 1 (Int.le_refl 1)).1
    omega

/-- The standard settings have a safe lease and safe delays. -/
theorem safety_standard : standard.LeaseSafe ∧ standard.RetrySafe := by
  obtain ⟨hrange, hvalid⟩ := accepted_of_load load_standard
  obtain ⟨hlease, hretry⟩ := safety hrange hvalid
  exact ⟨hlease.2 (by decide), hretry.2 (by decide)⟩

/-- A heartbeat interval and a greatest delay of `2 ^ 63` pass the checks.  The lease of five minutes is then less than
the interval, and the first retry is set to a time long before its failure.  Beside such an interval there even passes a
lease that has run out when it begins. -/
theorem safety_broken :
    let s : Settings :=
      { standard with heartbeatIntervalMs := 9223372036854775808, retryMaxSecs := 9223372036854775808 }
    let s' : Settings := { s with leaseTimeoutSecs := 18446744073709551615 }
    (s.InRange ∧ s.validate = .ok () ∧ ¬s.LeaseSafe ∧ s.leaseTimeoutMs = 300000 ∧ ¬s.RetrySafe ∧
      (RetryPolicy.ofSeconds s.retryBaseSecs s.retryMaxSecs).delay 1 = -9223372036854775808) ∧
    s'.InRange ∧ s'.validate = .ok () ∧ ¬s'.LeaseSafe ∧ s'.leaseTimeoutMs = -1000 := by
  intro s s'
  have hrange : s.InRange := ⟨by decide, by decide, by decide, by decide⟩
  have hrange' : s'.InRange := ⟨by decide, by decide, by decide, by decide⟩
  have hvalid : s.validate = .ok () := validate_eq_ok_iff.2 ⟨by decide, by decide, by decide, by decide, _, rfl⟩
  have hvalid' : s'.validate = .ok () := validate_eq_ok_iff.2 ⟨by decide, by decide, by decide, by decide, _, rfl⟩
  have hlease : ¬s.LeaseSafe := fun h => absurd h.exceeds (by decide)
  have hlease' : ¬s'.LeaseSafe := fun h => absurd h.pos (by decide)
  have hretry : ¬s.RetrySafe := fun h => absurd (h 1 (by decide)).1 (by decide)
  exact ⟨⟨hrange, hvalid, hlease, by decide, hretry, by decide⟩, hrange', hvalid', hlease', by decide⟩

end Settings

end IngestionQueue
