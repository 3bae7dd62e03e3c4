import IngestionQueue.Checked

/-!
# Recovery of abandoned jobs

A lease that expired with attempts left is taken over by the next claim. One that expired with the last
attempt would stay for ever, so a sweep gives such jobs up, each of them under the lease of the worker that
vanished. A job that its worker brings to an end in the meantime is left as it is.
-/

namespace IngestionQueue.Recovery

/-- The error of a job that is given up because its last attempt was abandoned. -/
def leaseExpired : String := "lease expired after final attempt"

/-- Gives up one abandoned job, and tells whether it did. -/
def giveUp (j : Job) : Service Bool :=
  match j.lockedBy with
  | none => return false
  | some workerId => do
    let result ← Service.attempt (Service.query (Query.recordFailure (← Service.now)
      ⟨j.id, workerId, j.attemptCount⟩ j.documentId j.documentVersionId .deadLetter leaseExpired))
    match result with
    | .ok () => return true
    | .error e => if e.isLeaseLost then return false else throw e

/-- Gives up the jobs of a list, and tells how many it did. -/
def giveUpAll : List Job → Service Nat
  | [] => return 0
  | j :: rest => do
    let done ← giveUp j
    let others ← giveUpAll rest
    return (if done then 1 else 0) + others

/-- Gives up every job whose last attempt was abandoned. -/
def sweep (leaseTimeout : Int) : Checked Nat := do
  giveUpAll (← Checked.abandonedJobs leaseTimeout)

end IngestionQueue.Recovery
