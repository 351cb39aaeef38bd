import BuildAnalysis.Engine.Scheduler

/-!
# Workers

The keys of a round may be shared out to several workers. A worker takes the first key that nobody
has taken yet, runs its task and goes on to the next such key. The workers share the session of the
request, and they take turns in any order and at any point: even a request for values is several
steps, between which others may act. Once all keys of the round have been run their outcomes are
taken into account, in the order of the keys and not in the order in which they came.

Something may go on beside the workers too: other requests to the engine, among them the nested ones
that tasks make, or a cancellation from outside. A single worker with nothing beside it runs the
keys one after the other.
-/
namespace BuildAnalysis.Engine

variable {S : KeySpace} {α : Type}

/-- One run of the task of a key. -/
structure Trial (S : KeySpace) where
  key : S.Key
  /-- The session in which the run begins. -/
  before : Session S
  outcome : Outcome S key
  /-- The keys that are requested, each once. -/
  requested : List S.Key
  /-- The session in which the run ends. -/
  after : Session S

/-- What the scheduler is told of a trial. -/
def Trial.evaluated (e : Trial S) : Evaluated S := ⟨e.key, e.outcome⟩

/-! ### The tasks -/

/-- What goes on beside the workers of a request. -/
structure Beside (S : KeySpace) where
  /-- What may change between two steps of the workers. -/
  meanwhile : Session S → Session S → Prop
  /-- How a nested request may be served. -/
  serves : (k : S.Key) → Session S → Except (RequestError S) (S.Value k) × Session S → Prop

/-- Nothing goes on, and nested requests are served at once. -/
def Beside.nothing (nest : Nest S) : Beside S where
  meanwhile _ _ := False
  serves k s served := served = nest k s

/-- How far a task has come. -/
inductive Control (S : KeySpace) (α : Type) where
  | task (t : Task S α)
  /-- A request was begun in a live transaction; the observer is notified next. -/
  | asking (keys : List S.Key) (next : Except Suspension (Values S keys) → Task S α)
  /-- The store is looked at next. -/
  | reading (keys : List S.Key) (next : Except Suspension (Values S keys) → Task S α)
  /-- The request has its answer; the observer is notified next. -/
  | answered (t : Task S α)

/-- One step of a task in a running session. Between two steps others may act. -/
inductive Control.Step (beside : Beside S) :
    Control S α → Running S → Control S α → Running S → Prop
  | refuse (ks next r) (h : r.session.isCancelled = true) :
      Step beside (.task (.request ks next)) r (.task (next (.error .cancelled))) r
  | ask (ks next r) (h : r.session.isCancelled = false) :
      Step beside (.task (.request ks next)) r (.asking ks next) r
  | before (ks next r) :
      Step beside (.asking ks next) r (.reading ks next) (r.notify S.beforeRequest)
  | read (ks next r) :
      Step beside (.reading ks next) r (.answered (next (r.answer ks))) (r.record ks)
  | after (t r) : Step beside (.answered t) r (.task t) (r.notify S.afterRequest)
  | isCancelled (next r) :
      Step beside (.task (.isCancelled next)) r (.task (next r.session.isCancelled)) r
  | cancel (t r) : Step beside (.task (.cancel t)) r (.task t)
      { r with session := { r.session with cancelled := true } }
  | observe (o next r) :
      Step beside (.task (.observe o next)) r (.task (next r.observer)) { r with observer := o }
  | perform (e t r) : Step beside (.task (.perform e t)) r (.task t)
      { r with session := r.session.perform e }
  | log (entry t r) : Step beside (.task (.log entry t)) r (.task t)
      { r with session := { r.session with log := r.session.log ++ [entry] } }
  | nested (k next r served) (h : beside.serves k r.session served) :
      Step beside (.task (.nested k next)) r (.task (next served.1)) { r with session := served.2 }
  | commit (changes t r) : Step beside (.task (.commit changes t)) r (.task t)
      { r with session := r.session.commit changes }

/-! ### A round -/

/-- A task that a worker is running. The session is the one that the workers share. -/
structure Worker (S : KeySpace) where
  key : S.Key
  /-- The session in which the task was begun. -/
  before : Session S
  control : Control S (Except Suspension (S.Value key))
  observer : Option S.Observer := none
  deps : List S.Key := []
  missing : List S.Key := []

namespace Worker

def running (w : Worker S) (s : Session S) : Running S := ⟨s, w.observer, w.deps, w.missing⟩

def goOn (w : Worker S) (control : Control S (Except Suspension (S.Value w.key)))
    (r : Running S) : Worker S :=
  { w with control := control, observer := r.observer, deps := r.deps, missing := r.missing }

/-- What has become of a task that has come to a result. -/
def finish (w : Worker S) (result : Except Suspension (S.Value w.key)) (s : Session S) :
    Trial S :=
  let concluded := (w.running s).conclude w.key result
  { key := w.key
    before := w.before
    outcome := concluded.1
    requested := w.deps
    after := concluded.2 }

end Worker

inductive Slot (S : KeySpace) where
  | queued (k : S.Key)
  | taken (w : Worker S)
  | ended (e : Trial S)

namespace Slot

def key : Slot S → S.Key
  | queued k => k
  | taken w => w.key
  | ended e => e.key

def isQueued : Slot S → Bool
  | queued _ => true
  | _ => false

def isTaken : Slot S → Bool
  | taken _ => true
  | _ => false

end Slot

/-- A round under way: its keys in order, and the session that the workers share. -/
structure Round (S : KeySpace) where
  slots : List (Slot S)
  session : Session S

/-- How many workers a round has: no more than there are keys, and one at least. -/
def Round.workers (threads : Nat) (x : Round S) : Nat := max 1 (min threads x.slots.length)

/-- One step of some worker of a round. -/
inductive Round.Step (compute : Computation S) (beside : Beside S) (threads : Nat) :
    Round S → Round S → Prop
  /-- A worker that is free takes the first key that is left. -/
  | take (xs k ys s) (first : ∀ x ∈ xs, x.isQueued = false)
      (free : (xs ++ .queued k :: ys).countP Slot.isTaken <
        workers threads ⟨xs ++ .queued k :: ys, s⟩) :
      Step compute beside threads ⟨xs ++ .queued k :: ys, s⟩
        ⟨xs ++ .taken { key := k, before := s, control := .task (compute k) } :: ys, s⟩
  | work (xs w ys s c r) (h : w.control.Step beside (w.running s) c r) :
      Step compute beside threads ⟨xs ++ .taken w :: ys, s⟩
        ⟨xs ++ .taken (w.goOn c r) :: ys, r.session⟩
  | finish (xs w ys s a) (h : w.control = .task (.done a)) :
      Step compute beside threads ⟨xs ++ .taken w :: ys, s⟩
        ⟨xs ++ .ended (w.finish a s) :: ys, (w.finish a s).after⟩

/-! ### A request -/

inductive Opening (S : KeySpace) where
  | ended (result : Except (RequestError S) Unit)
  | go (schedule : Schedule S) (frontier : List S.Key)

/-- What a round does first. -/
def Schedule.opening (c : Schedule S) (s : Session S) : Opening S :=
  if c.pending.isEmpty then .ended (.ok ())
  else if s.isCancelled then .ended (.error .cancelled)
  else
    let c := c.refresh s.store
    let frontier := c.frontier s.store
    if c.pending.isEmpty then .ended (.ok ())
    else if frontier.isEmpty then
      .ended (.error (.cycle ((Cycle.first? c.waiting).getD c.pending)))
    else
      match frontier.find? S.isInjected with
      | some k => .ended (.error (.missingInjected k))
      | none => .go c frontier

namespace Session

/-- Logs what a round is about to run. -/
def announce (s : Session S) (c : Schedule S) (frontier : List S.Key) : Session S :=
  s.logAt .debug
    s!"DICE round {c.round}: {frontier.length} runnable of {c.pending.length} pending keys"

/-- The schedule of a request. -/
def schedule (s : Session S) (roots : List S.Key) : Schedule S :=
  { pending := Listing.distinct (roots.filter fun k => !s.store.contains k) }

end Session

/-- How far a request has come, with the trials of the rounds that are over. -/
inductive Request (S : KeySpace) where
  /-- A round is about to begin. -/
  | planned (schedule : Schedule S) (ran : List (Trial S)) (session : Session S)
  /-- The workers are running a round. -/
  | running (schedule : Schedule S) (ran : List (Trial S)) (round : Round S)
  | ended (ran : List (Trial S)) (result : Except (RequestError S) Unit) (session : Session S)

namespace Request

def ran : Request S → List (Trial S)
  | planned _ ran _ => ran
  | running _ ran _ => ran
  | ended ran _ _ => ran

inductive Step (compute : Computation S) (beside : Beside S) (threads : Nat) (keepGoing : Bool) :
    Request S → Request S → Prop
  | halt (c ran s result) (h : c.opening s = .ended result) :
      Step compute beside threads keepGoing (.planned c ran s) (.ended ran result s)
  | begin (c c' ran s frontier) (h : c.opening s = .go c' frontier) :
      Step compute beside threads keepGoing (.planned c ran s)
        (.running c' ran ⟨frontier.map .queued, s.announce c' frontier⟩)
  | work (c ran x y) (h : x.Step compute beside threads y) :
      Step compute beside threads keepGoing (.running c ran x) (.running c ran y)
  | settle (c c' ran es s t) (h : settle keepGoing (es.map Trial.evaluated) c s = (.ok c', t)) :
      Step compute beside threads keepGoing (.running c ran ⟨es.map .ended, s⟩)
        (.planned c' (ran ++ es) t)
  | fail (c ran es s e t) (h : settle keepGoing (es.map Trial.evaluated) c s = (.error e, t)) :
      Step compute beside threads keepGoing (.running c ran ⟨es.map .ended, s⟩)
        (.ended (ran ++ es) (.error e) t)

inductive Meanwhile (beside : Beside S) : Request S → Request S → Prop
  | planned (c ran s t) (h : beside.meanwhile s t) :
      Meanwhile beside (.planned c ran s) (.planned c ran t)
  | running (c ran xs s t) (h : beside.meanwhile s t) :
      Meanwhile beside (.running c ran ⟨xs, s⟩) (.running c ran ⟨xs, t⟩)

end Request

/-- A request for some roots that has just been made. -/
def Session.request (s : Session S) (roots : List S.Key) : Request S :=
  .planned (s.schedule roots) [] s

end BuildAnalysis.Engine
