import BuildAnalysis.Engine.Store

/-!
# Running a task

A task runs in a session: the store, the world, the log, and the cancellation of the request it is
run for. A nested request has a transaction of its own, which nothing cancels; a task that cancels
from inside one cancels the request that the nested one is part of. While a task runs, the keys it
requests and those among them that have no value yet are recorded, each once and in order. A run
that is told that values are missing leaves no trace in the store; a run that completes stores one
value with the recorded keys.
-/
namespace BuildAnalysis.Engine

variable {S : KeySpace}

/-- An engine with the state of the request under way. -/
structure Session (S : KeySpace) where
  store : Store S := {}
  world : S.World
  log : List LogEntry := []
  /-- Whether the request has been cancelled. -/
  cancelled : Bool := false
  /-- Whether the current transaction belongs to a nested request. -/
  nested : Bool := false

namespace Session

def logAt (s : Session S) (level : LogLevel) (message : String) : Session S :=
  { s with log := s.log ++ [⟨level, message⟩] }

def perform (s : Session S) (e : S.Effect) : Session S :=
  { s with world := (S.perform e s.world).1, log := s.log ++ (S.perform e s.world).2 }

/-- Whether the current transaction is cancelled. -/
def isCancelled (s : Session S) : Bool := s.cancelled && !s.nested

/-- Applies changes without touching the current transaction. -/
def commit (s : Session S) (changes : List (Change S)) : Session S :=
  let applied := s.store.applyAll changes
  { s with store := applied.1 }.logAt .debug
    s!"DICE commit: {applied.2} changes applied, {applied.1.size} values cached"

/-- Applies changes and begins a new request. -/
def begin (s : Session S) (changes : List (Change S)) : Session S :=
  { s.commit changes with cancelled := false, nested := false }

/-- Serves a nested request in a transaction of its own. -/
def nest {α : Type} (s : Session S) (serve : Session S → α × Session S) : α × Session S :=
  let served := serve { s.commit [] with nested := true }
  (served.1, { served.2 with nested := s.nested })

def isCached (s : Session S) (k : S.Key) : Bool := s.store.contains k

end Session

structure Running (S : KeySpace) where
  session : Session S
  observer : Option S.Observer := none
  /-- The keys requested so far. -/
  deps : List S.Key := []
  /-- The requested keys that had no value. -/
  missing : List S.Key := []

namespace Running

/-- Lets the observer, if any, act. -/
def notify (r : Running S) (effect : S.Observer → S.Effect) : Running S :=
  match r.observer with
  | some o => { r with session := r.session.perform (effect o) }
  | none => r

/-- Records a request. -/
def record (r : Running S) (ks : List S.Key) : Running S :=
  { r with
    deps := Listing.addAll r.deps ks
    missing := Listing.addAll r.missing (r.session.store.missing ks) }

/-- What the store answers to a request. -/
def answer (r : Running S) (ks : List S.Key) : Except Suspension (Values S ks) :=
  match r.session.store.values? ks with
  | some vs => .ok vs
  | none => .error .notReady

end Running

/-- How a nested request is served. -/
abbrev Nest (S : KeySpace) :=
  (k : S.Key) → Session S → Except (RequestError S) (S.Value k) × Session S

/-- Runs a task to its result. -/
def Task.run {α : Type} (nest : Nest S) (t : Task S α) (r : Running S) : α × Running S :=
  match t with
  | done a => (a, r)
  | request ks next =>
    if r.session.isCancelled then (next (.error .cancelled)).run nest r
    else
      let before := r.notify S.beforeRequest
      (next (before.answer ks)).run nest ((before.record ks).notify S.afterRequest)
  | isCancelled next => (next r.session.isCancelled).run nest r
  | cancel next => next.run nest { r with session := { r.session with cancelled := true } }
  | observe o next => (next r.observer).run nest { r with observer := o }
  | perform e next => next.run nest { r with session := r.session.perform e }
  | log entry next =>
    next.run nest { r with session := { r.session with log := r.session.log ++ [entry] } }
  | nested k next =>
    let served := nest k r.session
    (next served.1).run nest { r with session := served.2 }
  | commit changes next => next.run nest { r with session := r.session.commit changes }

inductive Outcome (S : KeySpace) (k : S.Key) where
  | done (value : S.Value k)
  /-- The keys without a value, each once and in order of request. -/
  | notReady (missing : List S.Key)
  | cancelled

/-- How the computation of a key ends that has come to a result: it stores its value if it
completes. -/
def Running.conclude (r : Running S) (k : S.Key) :
    Except Suspension (S.Value k) → Outcome S k × Session S
  | .ok value =>
    let stored := r.session.store.insertComputed k value r.deps
    (.done stored.2, { r.session with store := stored.1 })
  | .error .notReady => (.notReady r.missing, r.session)
  | .error .cancelled => (.cancelled, r.session)

/-- Runs the computation of a key once. -/
def evaluate (compute : Computation S) (nest : Nest S) (k : S.Key) (s : Session S) :
    Outcome S k × Session S :=
  let ran := (compute k).run nest { session := s }
  ran.2.conclude k ran.1

end BuildAnalysis.Engine
