import BuildAnalysis.Collection.Listing
import BuildAnalysis.Environment.LogLevel
import BuildAnalysis.Failure.Basic

/-!
# Tasks

A task is a computation that may request the values of keys. It is a value: a tree whose nodes are
what it does next. A request hands all its values to the rest of the task, or says why there are
none yet; a task that is told so is meant to stop, and is run again from the start later.

Besides requesting values a task may look at the cancellation of its transaction, cancel the request
it is run for, put an observer around its requests, perform effects on the world, log, compute a key
in a transaction of its own, and commit changes.
-/
namespace BuildAnalysis.Engine

/-- The keys of an engine, the type of each key's value, and the world that effects change. -/
structure KeySpace where
  Key : Type
  Value : Key → Type
  [decideEq : DecidableEq Key]
  keyText : Key → String
  /-- Keys whose values are set from outside and never computed. -/
  isInjected : Key → Bool
  /-- Whether setting the second value in place of the first is no change. -/
  sameValue : (k : Key) → Value k → Value k → Bool
  /-- The failure that a value stands for. -/
  failure? : (k : Key) → Value k → Option Failure
  World : Type
  Effect : Type
  /-- The world after an effect, and what is logged. -/
  perform : Effect → World → World × List LogEntry
  Observer : Type
  beforeRequest : Observer → Effect
  afterRequest : Observer → Effect

instance (S : KeySpace) : DecidableEq S.Key := S.decideEq

variable {S : KeySpace}

inductive Values (S : KeySpace) : List S.Key → Type where
  | nil : Values S []
  | cons {k : S.Key} {ks : List S.Key} (value : S.Value k) (rest : Values S ks) : Values S (k :: ks)

namespace Values

/-- The values of the first and of the second part of a list of keys. -/
def split : (ks : List S.Key) → {ls : List S.Key} → Values S (ks ++ ls) → Values S ks × Values S ls
  | [], _, vs => (.nil, vs)
  | _ :: ks, _, .cons v vs => (.cons v (split ks vs).1, (split ks vs).2)

/-- The values of keys of one kind. -/
def toList {α β : Type} (key : α → S.Key) (read : (a : α) → S.Value (key a) → β) :
    (as : List α) → Values S (as.map key) → List β
  | [], _ => []
  | a :: as, .cons v vs => read a v :: toList key read as vs

def single {k : S.Key} : Values S [k] → S.Value k
  | .cons v _ => v

end Values

inductive Suspension where
  /-- Some requested keys have no value yet. -/
  | notReady
  /-- The transaction was cancelled. -/
  | cancelled
  deriving DecidableEq

inductive RequestError (S : KeySpace) where
  /-- Each key waits for the next, and the last for the first. -/
  | cycle (keys : List S.Key)
  /-- A key computed to a failure, and the request does not go on after failures. -/
  | failFast (key : S.Key) (failure : Failure)
  | cancelled
  | missingInjected (key : S.Key)
  /-- The bound on rounds or on nested requests was reached. -/
  | exhausted

namespace RequestError

def message : RequestError S → String
  | cycle keys => "Cycle detected: " ++ " -> ".intercalate (keys.map S.keyText)
  | failFast key failure => s!"Computing `{S.keyText key}` failed: {failure.message}"
  | cancelled => "Computation was cancelled"
  | missingInjected key => s!"Value of injected key `{S.keyText key}` was never set"
  | exhausted => "Computation exceeded its bound"

def tag : RequestError S → Tag
  | cycle _ => .cycle
  | failFast _ failure => failure.bestTag
  | cancelled => .tier0
  | missingInjected _ => .internalError
  | exhausted => .internalError

/-- The name of the kind of an error in diagnostic text. -/
def kindName : RequestError S → String
  | cycle _ => "Cycle"
  | failFast _ _ => "FailFast"
  | cancelled => "Cancelled"
  | missingInjected _ => "MissingInjected"
  | exhausted => "Exhausted"

/-- The failure that ended the request. -/
def inner? : RequestError S → Option Failure
  | failFast _ failure => some failure
  | _ => none

/-- The keys an error is about. -/
def keys : RequestError S → List S.Key
  | cycle keys => keys
  | failFast key _ => [key]
  | cancelled => []
  | missingInjected key => [key]
  | exhausted => []

def toFailure (e : RequestError S) : Failure := .new e.tag e.message

end RequestError

inductive Change (S : KeySpace) where
  /-- Sets the value of an injected key. -/
  | inject (key : S.Key) (value : S.Value key)
  /-- Drops the value of a key and of everything that depends on it. -/
  | invalidate (key : S.Key)

inductive Task (S : KeySpace) (α : Type) where
  | done (result : α)
  | request (keys : List S.Key) (next : Except Suspension (Values S keys) → Task S α)
  | isCancelled (next : Bool → Task S α)
  /-- Cancels the request that the task is run for. -/
  | cancel (next : Task S α)
  /-- Sets the observer of the requests that follow; hands on the one before. -/
  | observe (observer : Option S.Observer) (next : Option S.Observer → Task S α)
  | perform (effect : S.Effect) (next : Task S α)
  | log (entry : LogEntry) (next : Task S α)
  /-- Computes a key in a transaction of its own that goes on after failures. -/
  | nested (key : S.Key) (next : Except (RequestError S) (S.Value key) → Task S α)
  | commit (changes : List (Change S)) (next : Task S α)

namespace Task

variable {α β : Type}

/-- Goes on with the result of a task. -/
def bind (t : Task S α) (f : α → Task S β) : Task S β :=
  match t with
  | done a => f a
  | request ks next => request ks fun r => (next r).bind f
  | isCancelled next => isCancelled fun b => (next b).bind f
  | cancel next => cancel (next.bind f)
  | observe o next => observe o fun previous => (next previous).bind f
  | perform e next => perform e (next.bind f)
  | log entry next => log entry (next.bind f)
  | nested k next => nested k fun r => (next r).bind f
  | commit cs next => commit cs (next.bind f)

instance : Monad (Task S) where
  pure := done
  bind := bind

end Task

/-- A task that stops when a request has no values. -/
abbrev Demand (S : KeySpace) (α : Type) := ExceptT Suspension (Task S) α

namespace Demand

variable {α β : Type}

/-- Requests the value of a key. -/
def value (k : S.Key) : Demand S (S.Value k) :=
  Task.request [k] fun r => .done (r.map Values.single)

/-- Requests the values of keys of one kind in one batch. -/
def values (key : α → S.Key) (read : (a : α) → S.Value (key a) → β) (as : List α) :
    Demand S (List β) :=
  Task.request (as.map key) fun r => .done (r.map (Values.toList key read as))

/-- Requests the values of keys of two kinds in one batch. -/
def values₂ {α' β' : Type} (key : α → S.Key) (read : (a : α) → S.Value (key a) → β)
    (key' : α' → S.Key) (read' : (a : α') → S.Value (key' a) → β')
    (as : List α) (as' : List α') : Demand S (List β × List β') :=
  Task.request (as.map key ++ as'.map key') fun r => .done (r.map fun vs =>
    (Values.toList key read as (Values.split _ vs).1,
      Values.toList key' read' as' (Values.split _ vs).2))

/-- What a task leads to that does something else than requesting values. -/
def lift (t : Task S α) : Demand S α := t.bind fun a => .done (.ok a)

end Demand

abbrev Computation (S : KeySpace) := (k : S.Key) → Task S (Except Suspension (S.Value k))

end BuildAnalysis.Engine
