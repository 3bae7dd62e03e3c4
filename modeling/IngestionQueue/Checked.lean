import IngestionQueue.Number.Word
import IngestionQueue.World

/-!
# Calls that add and subtract times

The queue is built with overflow checks: a sum or a difference of times that is no 64-bit integer ends the call in which
it is formed. So a call ends without a result in two ways, with an error that it returns and with an overflow, and what
it did before stays done either way. The calls of the ingestion form no such sums and remain services.
-/

namespace IngestionQueue

/-- How a call ends without a result. -/
inductive Abort
  | failed (e : AppError)
  | overflow (o : Word.Overflow)
  deriving DecidableEq, Repr

/-- A service that may also end with an overflow. -/
abbrev Checked (α : Type) := ExceptT Abort (StateM World) α

namespace Checked

variable {α β : Type}

/-- The result of a call on a world, and the world after it. -/
def on (f : Checked α) (w : World) : Except Abort α × World :=
  f.run.run w

def ofService (f : Service α) : Checked α := ExceptT.mk fun w =>
  match f.on w with
  | (.ok a, w') => (.ok a, w')
  | (.error e, w') => (.error (.failed e), w')

instance : MonadLift Service Checked := ⟨ofService⟩

def ofArithmetic (result : Except Word.Overflow α) : Checked α :=
  match result with
  | .ok a => return a
  | .error o => throw (.overflow o)

/-- The result of a call as a value, unless it is an overflow. -/
def attempt (f : Checked α) : Checked (Except AppError α) := ExceptT.mk fun w =>
  match f.on w with
  | (.ok a, w') => (.ok (.ok a), w')
  | (.error (.failed e), w') => (.ok (.error e), w')
  | (.error (.overflow o), w') => (.error (.overflow o), w')

theorem ext {f g : Checked α} (h : ∀ w, f.on w = g.on w) : f = g :=
  funext h

@[simp] theorem on_pure (a : α) (w : World) : (pure a : Checked α).on w = (.ok a, w) := rfl

@[simp] theorem on_bind (f : Checked α) (g : α → Checked β) (w : World) :
    (f >>= g).on w = match f.on w with
      | (.ok a, w') => (g a).on w'
      | (.error e, w') => (.error e, w') := by
  simp only [on, bind, ExceptT.run, ExceptT.bind, ExceptT.mk, StateT.run, StateT.bind, ExceptT.bindCont]
  rcases f w with ⟨_ | _, _⟩ <;> rfl

@[simp] theorem on_map (g : α → β) (f : Checked α) (w : World) :
    (g <$> f).on w = match f.on w with
      | (.ok a, w') => (.ok (g a), w')
      | (.error e, w') => (.error e, w') := by
  rw [← bind_pure_comp, on_bind]
  rfl

@[simp] theorem on_lift (f : Service α) (w : World) :
    (liftM f : Checked α).on w = match f.on w with
      | (.ok a, w') => (.ok a, w')
      | (.error e, w') => (.error (.failed e), w') := rfl

@[simp] theorem on_ofArithmetic_ok (a : α) (w : World) :
    (ofArithmetic (.ok a)).on w = (.ok a, w) := rfl

@[simp] theorem on_ofArithmetic_error (o : Word.Overflow) (w : World) :
    (ofArithmetic (.error o) : Checked α).on w = (.error (.overflow o), w) := rfl

theorem on_attempt (f : Checked α) (w : World) :
    (attempt f).on w = match f.on w with
      | (.ok a, w') => (.ok (.ok a), w')
      | (.error (.failed e), w') => (.ok (.error e), w')
      | (.error (.overflow o), w') => (.error (.overflow o), w') := rfl

@[simp] theorem lift_pure (a : α) : (liftM (pure a : Service α) : Checked α) = pure a := rfl

@[simp] theorem lift_bind (f : Service α) (g : α → Service β) :
    (liftM (f >>= g) : Checked β) = (liftM f >>= fun a => liftM (g a)) := by
  refine ext fun w => ?_
  simp only [on_bind, on_lift, Service.on_bind]
  rcases f.on w with ⟨_ | _, _⟩ <;> rfl

@[simp] theorem lift_map (g : α → β) (f : Service α) :
    (liftM (g <$> f) : Checked β) = g <$> (liftM f : Checked α) := by
  rw [← bind_pure_comp, lift_bind, ← bind_pure_comp]
  rfl

/-- Claims a job for a worker. The time before which a lease is stale is formed first. -/
def claimNext (workerId : String) (timeout : Int) : Checked (Option ClaimedJob) := do
  let now ← Service.now
  let _ ← ofArithmetic (Word.subChecked now timeout)
  Service.query (Query.claimNext now workerId timeout)

/-- The jobs whose last attempt was abandoned. The time before which a lease is stale is formed first. -/
def abandonedJobs (timeout : Int) : Checked (List Job) := do
  let now ← Service.now
  let _ ← ofArithmetic (Word.subChecked now timeout)
  Service.read fun s => s.abandonedJobs now timeout

end Checked

end IngestionQueue
