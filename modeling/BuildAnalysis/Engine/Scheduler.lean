import BuildAnalysis.Engine.Cycle
import BuildAnalysis.Engine.Run

/-!
# The scheduler

Work proceeds in rounds. A round runs every pending key whose requested keys all have values; a key
that is not ready makes the keys it misses pending and waits for them. A round in which nothing can
run means that pending keys wait for each other. Unless a request goes on after failures, the first
key that computes to a failure ends it.

The engine that is run here has a single worker. `Request.Step` is a step of a request whose rounds
are shared out to any number of workers; with one worker it comes to the same.
-/
namespace BuildAnalysis.Engine

variable {S : KeySpace}

/-- The keys still to be computed and what the suspended ones among them asked for. -/
structure Schedule (S : KeySpace) where
  pending : List S.Key
  waiting : List (S.Key × List S.Key) := []
  round : Nat := 0

namespace Schedule

/-- The schedule without the keys that have got a value. -/
def refresh (c : Schedule S) (store : Store S) : Schedule S :=
  let pending := c.pending.filter fun k => !store.contains k
  ⟨pending, c.waiting.filter fun e => pending.contains e.1, c.round + 1⟩

/-- The pending keys that wait for nothing that has no value. -/
def frontier (c : Schedule S) (store : Store S) : List S.Key :=
  c.pending.filter fun k =>
    match Listing.find? k c.waiting with
    | some missing => missing.all store.contains
    | none => true

/-- A key was computed. -/
def complete (c : Schedule S) (k : S.Key) : Schedule S :=
  { c with
    pending := c.pending.filter fun x => x ≠ k
    waiting := c.waiting.filter fun e => e.1 ≠ k }

/-- A key waits for others. -/
def suspend (c : Schedule S) (k : S.Key) (missing : List S.Key) : Schedule S :=
  { c with
    pending := Listing.addAll c.pending missing
    waiting := Listing.put k missing c.waiting }

end Schedule

structure Evaluated (S : KeySpace) where
  key : S.Key
  outcome : Outcome S key

/-- Evaluates the keys of a round one after the other, as a single worker does. -/
def evaluateAll (compute : Computation S) (nest : Nest S) :
    List S.Key → Session S → List (Evaluated S) × Session S
  | [], s => ([], s)
  | k :: ks, s =>
    let first := evaluate compute nest k s
    let rest := evaluateAll compute nest ks first.2
    (⟨k, first.1⟩ :: rest.1, rest.2)

/-- Takes the outcomes of a round into account, in order; the first that ends the request wins. -/
def settle (keepGoing : Bool) :
    List (Evaluated S) → Schedule S → Session S → Except (RequestError S) (Schedule S) × Session S
  | [], c, s => (.ok c, s)
  | ⟨k, .done value⟩ :: es, c, s =>
    match if keepGoing then none else S.failure? k value with
    | some failure => (.error (.failFast k failure), s)
    | none => settle keepGoing es (c.complete k) s
  | ⟨k, .notReady missing⟩ :: es, c, s =>
    settle keepGoing es (c.suspend k missing) (s.logAt .debug
      s!"{S.keyText k} is not ready, restarting after {missing.length} keys")
  | ⟨_, .cancelled⟩ :: _, _, s => (.error .cancelled, s)

/-- Runs rounds until nothing is pending, at most `rounds` of them. -/
def runRounds (compute : Computation S) (nest : Nest S) (keepGoing : Bool) :
    (rounds : Nat) → Schedule S → Session S → Except (RequestError S) Unit × Session S
  | 0, c, s => (if c.pending.isEmpty then .ok () else .error .exhausted, s)
  | rounds + 1, c, s =>
    if c.pending.isEmpty then (.ok (), s)
    else if s.isCancelled then (.error .cancelled, s)
    else
      let c := c.refresh s.store
      let frontier := c.frontier s.store
      if c.pending.isEmpty then (.ok (), s)
      else if frontier.isEmpty then
        (.error (.cycle ((Cycle.first? c.waiting).getD c.pending)), s)
      else
        match frontier.find? S.isInjected with
        | some k => (.error (.missingInjected k), s)
        | none =>
          let s := s.logAt .debug
            s!"DICE round {c.round}: {frontier.length} runnable of {c.pending.length} pending keys"
          let evaluated := evaluateAll compute nest frontier s
          match settle keepGoing evaluated.1 c evaluated.2 with
          | (.error e, s) => (.error e, s)
          | (.ok c, s) => runRounds compute nest keepGoing rounds c s

/-- Bounds on what a request may take. They serve termination only: a request whose keys demand
finitely many others stays within some bound. -/
structure Bounds where
  rounds : Nat := 100000
  depth : Nat := 1000

/-- The values of keys that were computed, or the first key that has none. -/
def collect (store : Store S) : (ks : List S.Key) → Except (RequestError S) (Values S ks)
  | [] => .ok .nil
  | k :: ks =>
    match store.value? k with
    | none => .error (.missingInjected k)
    | some v =>
      match collect store ks with
      | .error e => .error e
      | .ok vs => .ok (.cons v vs)

/-- Computes keys and everything they request; nested requests may be `depth` deep. -/
def computeWithin (compute : Computation S) (rounds : Nat) :
    (depth : Nat) → (keepGoing : Bool) → (ks : List S.Key) → Session S →
      Except (RequestError S) (Values S ks) × Session S
  | 0, _, _, s => (.error .exhausted, s)
  | depth + 1, keepGoing, ks, s =>
    let nest : Nest S := fun k s => s.nest fun s =>
      let served := computeWithin compute rounds depth true [k] s
      (served.1.map Values.single, served.2)
    let roots := Listing.distinct (ks.filter fun k => !s.store.contains k)
    match runRounds compute nest keepGoing rounds { pending := roots } s with
    | (.error e, s) => (.error e, s)
    | (.ok (), s) => (collect s.store ks, s)

/-- How nested requests are served by an engine. -/
def nestWithin (compute : Computation S) (bounds : Bounds) : Nest S := fun k s => s.nest fun s =>
  let served := computeWithin compute bounds.rounds bounds.depth true [k] s
  (served.1.map Values.single, served.2)

namespace Session

/-- Computes keys and everything they request. -/
def computeMany (compute : Computation S) (bounds : Bounds) (keepGoing : Bool) (ks : List S.Key)
    (s : Session S) : Except (RequestError S) (Values S ks) × Session S :=
  computeWithin compute bounds.rounds (bounds.depth + 1) keepGoing ks s

/-- Computes keys of one kind and everything they request. -/
def computeAll {α β : Type} (compute : Computation S) (bounds : Bounds) (keepGoing : Bool)
    (key : α → S.Key) (read : (a : α) → S.Value (key a) → β) (as : List α) (s : Session S) :
    Except (RequestError S) (List β) × Session S :=
  let served := s.computeMany compute bounds keepGoing (as.map key)
  (served.1.map (Values.toList key read as), served.2)

/-- Computes a key and everything it requests. -/
def compute (compute : Computation S) (bounds : Bounds) (keepGoing : Bool) (k : S.Key)
    (s : Session S) : Except (RequestError S) (S.Value k) × Session S :=
  let served := s.computeMany compute bounds keepGoing [k]
  (served.1.map Values.single, served.2)

end Session

inductive Attempt (S : KeySpace) (k : S.Key) where
  | ready (value : S.Value k)
  | notReady (missing : List S.Key)

namespace Session

/-- Runs the computation of a key once, without computing what it requests. -/
def attempt (compute : Computation S) (bounds : Bounds) (k : S.Key) (s : Session S) :
    Except (RequestError S) (Attempt S k) × Session S :=
  match s.store.value? k with
  | some value => (.ok (.ready value), s)
  | none =>
    if S.isInjected k then (.error (.missingInjected k), s)
    else
      match evaluate compute (nestWithin compute bounds) k s with
      | (.done value, s) => (.ok (.ready value), s)
      | (.notReady missing, s) => (.ok (.notReady missing), s)
      | (.cancelled, s) => (.error .cancelled, s)

end Session
end BuildAnalysis.Engine
