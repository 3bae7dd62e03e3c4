import IngestionQueue.ObjectStore
import IngestionQueue.Store.Documents

/-!
# The state of the queue

The queue works on its tables, its object store, the clock and the identifiers that it hands out. A `Service`
is a piece of work on all of them; when it fails, what it did before stays done.
-/

namespace IngestionQueue

/-- The identifiers that are handed out one after the other, from number `next` on. -/
structure IdSequence where
  nth : Nat → String
  next : Nat

namespace IdSequence

/-- The identifiers `stem-1`, `stem-2` and so on. -/
def numbered (stem : String) : IdSequence where
  nth number := s!"{stem}-{number}"
  next := 1

def head (ids : IdSequence) : String :=
  ids.nth ids.next

def tail (ids : IdSequence) : IdSequence :=
  { ids with next := ids.next + 1 }

end IdSequence

/-- The clock counts milliseconds. -/
structure World where
  store : Store
  objects : ObjectStore
  now : Int
  ids : IdSequence

abbrev Service (α : Type) := ExceptT AppError (StateM World) α

namespace Service

variable {α β : Type}

/-- The result of a service on a world, and the world after it. -/
def on (f : Service α) (w : World) : Except AppError α × World :=
  f.run.run w

def query (q : Query α) : Service α := ExceptT.mk fun w =>
  let (result, store) := q.on w.store
  (result, { w with store := store })

/-- Something read from the tables. -/
def read (f : Store → α) : Service α := do
  return f (← get).store

def now : Service Int := do
  return (← get).now

/-- An identifier that was not handed out before. -/
def freshId : Service String := do
  let w ← get
  set { w with ids := w.ids.tail }
  return w.ids.head

def putObject (key : String) (content : Bytes) : Service Unit := ExceptT.mk fun w =>
  let (objects, result) := w.objects.put key content
  (result.mapError .storage, { w with objects := objects })

def getObject (key : String) : Service Bytes := do
  match (← get).objects.get key with
  | .ok content => return content
  | .error e => throw (.storage e)

/-- The result of a service as a value. -/
def attempt (f : Service α) : Service (Except AppError α) := ExceptT.mk fun w =>
  let (result, w') := f.on w
  (.ok result, w')

def orElseThrow (value : Option α) (e : AppError) : Service α :=
  match value with
  | some a => return a
  | none => throw e

theorem ext {f g : Service α} (h : ∀ w, f.on w = g.on w) : f = g :=
  funext h

@[simp] theorem on_pure (a : α) (w : World) : (pure a : Service α).on w = (.ok a, w) := rfl

@[simp] theorem on_bind (f : Service α) (g : α → Service β) (w : World) :
    (f >>= g).on w = match f.on w with
      | (.ok a, w') => (g a).on w'
      | (.error e, w') => (.error e, w') := by
  simp only [on, bind, ExceptT.run, ExceptT.bind, ExceptT.mk, StateT.run, StateT.bind, ExceptT.bindCont]
  rcases f w with ⟨_ | _, _⟩ <;> rfl

@[simp] theorem on_map (g : α → β) (f : Service α) (w : World) :
    (g <$> f).on w = match f.on w with
      | (.ok a, w') => (.ok (g a), w')
      | (.error e, w') => (.error e, w') := by
  rw [← bind_pure_comp, on_bind]
  rfl

@[simp] theorem on_throw (e : AppError) (w : World) : (throw e : Service α).on w = (.error e, w) := rfl

@[simp] theorem on_lift (r : Except AppError α) (w : World) : (liftM r : Service α).on w = (r, w) := rfl

@[simp] theorem on_query (q : Query α) (w : World) :
    (query q).on w = ((q.on w.store).1, { w with store := (q.on w.store).2 }) := rfl

@[simp] theorem on_read (f : Store → α) (w : World) : (read f).on w = (.ok (f w.store), w) := rfl

@[simp] theorem on_now (w : World) : now.on w = (.ok w.now, w) := rfl

@[simp] theorem on_freshId (w : World) :
    freshId.on w = (.ok w.ids.head, { w with ids := w.ids.tail }) := rfl

@[simp] theorem on_putObject (key : String) (content : Bytes) (w : World) :
    (putObject key content).on w =
      ((w.objects.put key content).2.mapError .storage,
        { w with objects := (w.objects.put key content).1 }) := rfl

@[simp] theorem on_getObject (key : String) (w : World) :
    (getObject key).on w = ((w.objects.get key).mapError .storage, w) := by
  have hget : (get : Service World).on w = (.ok w, w) := rfl
  simp only [getObject, on_bind, hget]
  cases w.objects.get key <;> rfl

@[simp] theorem on_attempt (f : Service α) (w : World) :
    (attempt f).on w = (.ok (f.on w).1, (f.on w).2) := rfl

@[simp] theorem on_orElseThrow_some (a : α) (e : AppError) (w : World) :
    (orElseThrow (some a) e).on w = (.ok a, w) := rfl

@[simp] theorem on_orElseThrow_none (e : AppError) (w : World) :
    (orElseThrow (none : Option α) e).on w = (.error e, w) := rfl

end Service

end IngestionQueue
