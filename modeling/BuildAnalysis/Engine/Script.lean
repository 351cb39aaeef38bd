import BuildAnalysis.Engine.Scheduler

/-!
# Scripted computations

Small programs that exercise an engine. Injected keys hold numbers. A program sums up what it
requests; a node has the sum of its program as value, its mirror the negated sum. Programs may also
cancel the request they run for, observe their requests, run another key's program in place, compute
a key in a transaction of its own, and change values while they run. The world is the trace of what
ran.
-/
namespace BuildAnalysis.Engine.Script

inductive NodeKey where
  /-- A number that is set from outside. -/
  | base (name : String)
  /-- The sum of the program of that name; its failures count as failures of the key. -/
  | node (name : String)
  /-- The negated sum; its failures are plain values. -/
  | mirror (name : String)
  deriving DecidableEq

namespace NodeKey

def name : NodeKey → String
  | base n | node n | mirror n => n

/-- The key of the same kind with another name. -/
def rename (n : String) : NodeKey → NodeKey
  | base _ => base n
  | node _ => node n
  | mirror _ => mirror n

/-- Keys of one kind, that of the first. -/
def alike : List NodeKey → List NodeKey
  | [] => []
  | k :: ks => k :: ks.map fun l => k.rename l.name

def kindName : NodeKey → String
  | base _ => "Base"
  | node _ => "Node"
  | mirror _ => "Alt"

instance : ToString NodeKey := ⟨fun k => k.kindName ++ "(" ++ k.name ++ ")"⟩

def debugText (k : NodeKey) : String := Text.applied k.kindName [Text.quote k.name]

end NodeKey

/-- What a key is computed to. -/
abbrev Number := Except Failure Int64

/-- Whether two results are the same number; a failure is like nothing. -/
def sameNumber : Number → Number → Bool
  | .ok a, .ok b => a == b
  | _, _ => false

abbrev NodeValue : NodeKey → Type
  | .base _ => Int64
  | .node _ => Number
  | .mirror _ => Number

/-- The keys of scripted computations over a world that is a list of lines. An observer writes a
line before and a line after each request. -/
def space : KeySpace where
  Key := NodeKey
  Value := NodeValue
  keyText := toString
  isInjected
    | .base _ => true
    | _ => false
  sameValue
    | .base _, a, b => a == b
    | .node _, a, b => sameNumber a b
    | .mirror _, a, b => sameNumber a b
  failure?
    | .node _, .error e => some e
    | _, _ => none
  World := List String
  Effect := String
  perform line lines := (lines ++ [line], [])
  Observer := Unit
  beforeRequest _ := "pre"
  afterRequest _ := "post"

/-- The value of any key as a result. -/
def asNumber : (k : NodeKey) → NodeValue k → Number
  | .base _, n => .ok n
  | .node _, r => r
  | .mirror _, r => r

inductive Instruction where
  /-- Adds the value of a key. -/
  | add (key : NodeKey)
  /-- Adds the values of keys requested in one batch. -/
  | addAll (keys : List NodeKey)
  /-- Adds the value of a key if it has one. -/
  | addIfReady (key : NodeKey)
  /-- Goes on with the first list if the value of the key is negative, else with the second. -/
  | branch (key : NodeKey) (negative other : List Instruction)
  | addConstant (n : Int64)
  | multiply (n : Int64)
  | fail (tag : Tag) (message : String)
  /-- Fails if the sum is negative. -/
  | failIfNegative (tag : Tag) (message : String)
  | cancel
  /-- Adds one if the transaction is cancelled. -/
  | countCancelled
  /-- Sets or removes the observer; writes whether there was one. -/
  | observe (on : Bool)
  /-- Runs the computation of a key in place and adds its value. -/
  | direct (key : NodeKey)
  /-- Computes a key in a transaction of its own that goes on after failures, and adds its value. -/
  | nested (key : NodeKey)
  | commit (changes : List (Change space))
  deriving Inhabited

/-- A running program: it may fail, and stops when a request has no values. -/
abbrev Program (α : Type) := ExceptT Failure (Demand space) α

namespace Program

/-- What a program asks the engine for. -/
def request {α : Type} (d : Demand space α) : Program α := ExceptT.lift d

def perform {α : Type} (t : Task space α) : Program α := request (Demand.lift t)

def trace (line : String) : Demand space Unit := Demand.lift (.perform line (.done ()))

/-- A requested value; a failure is reported as one of the key it came from. -/
def received (k : NodeKey) (r : Number) : Program Int64 :=
  ExceptT.mk (pure (r.mapError fun e => e.within ("from " ++ k.name)))

/-- The value of a key, requested alone. -/
def fetch (k : NodeKey) : Program Int64 := do
  let v ← request (Demand.value (S := space) k)
  received k (asNumber k v)

/-- The values of keys, requested in one batch. -/
def fetchAll (ks : List NodeKey) : Program (List Int64) := do
  let values ← request
    (Demand.values (S := space) id (fun k v => (k, asNumber k v)) ks)
  values.mapM fun e => received e.1 e.2

/-- The value of a key if it is there and no failure. -/
def fetchIfReady (k : NodeKey) : Program (Option Int64) :=
  request (ExceptT.mk ((Demand.value (S := space) k).run.bind fun
    | .ok v =>
      match asNumber k v with
      | .ok n => .done (.ok (some n))
      | .error _ => .done (.ok none)
    | .error _ => .done (.ok none)))

/-- The value of a key computed in a transaction of its own. -/
def computeNested (k : NodeKey) : Program Int64 := do
  match ← perform (Task.nested (S := space) k .done) with
  | .ok v => ExceptT.mk (pure (asNumber k v))
  | .error e => throw e.toFailure

end Program

open Program

mutual

/-- Runs an instruction from a sum to the next; `direct` runs the computation of a key in place. -/
def step (direct : NodeKey → Demand space Number) (sum : Int64) : Instruction → Program Int64
  | .add k => do return sum + (← fetch k)
  | .addAll ks => do return (← fetchAll ks).foldl (· + ·) sum
  | .addIfReady k => do return sum + ((← fetchIfReady k).getD 0)
  | .branch k negative other => do
    if (← fetch k) < 0 then steps direct sum negative else steps direct sum other
  | .addConstant n => pure (sum + n)
  | .multiply n => pure (sum * n)
  | .fail tag message => throw (.new tag message)
  | .failIfNegative tag message => if sum < 0 then throw (.new tag message) else pure sum
  | .cancel => do
    perform (.cancel (.done ()))
    return sum
  | .countCancelled => do
    if ← perform (.isCancelled .done) then return sum + 1 else return sum
  | .observe on => do
    let before ← perform (.observe (if on then some () else none) .done)
    request (trace s!"observed {before.isSome}")
    return sum
  | .direct k => do
    let r ← request (direct k)
    return sum + (← ExceptT.mk (pure r))
  | .nested k => do return sum + (← computeNested k)
  | .commit changes => do
    perform (.commit changes (.done ()))
    return sum

/-- Runs instructions one after the other. -/
def steps (direct : NodeKey → Demand space Number) (sum : Int64) :
    List Instruction → Program Int64
  | [] => pure sum
  | i :: is => do steps direct (← step direct sum i) is

end

/-- The programs by name; a name without a program has the empty one. -/
abbrev Programs := List (String × List Instruction)

/-- Writes how a run of a key ended. -/
def traceEnd (k : NodeKey) : Except Suspension Number → Task space (Except Suspension Number)
  | .ok (.ok n) => .perform s!"done {k}" (.done (.ok (.ok n)))
  | .ok (.error e) => .perform s!"fail {k}" (.done (.ok (.error e)))
  | .error .notReady => .perform s!"NotReady {k}" (.done (.error .notReady))
  | .error .cancelled => .perform s!"Cancelled {k}" (.done (.error .cancelled))

/-- Runs the program of a key; computations run in place may be `depth` deep. -/
def compute (programs : Programs) : (depth : Nat) → NodeKey → Demand space Number
  | 0, _ => throw .notReady
  | depth + 1, k =>
    let direct : NodeKey → Demand space Number
      | .base _ => throw .notReady
      | k => compute programs depth k
    let run := (steps direct 0 ((Listing.find? k.name programs).getD [])).run
    Task.perform s!"start {k}" (run.run.bind fun r =>
      traceEnd k (r.map fun n =>
        match k with
        | .mirror _ => n.map fun m => -m
        | _ => n))

/-- How the keys of a set of programs are computed. -/
def computation (programs : Programs) : Computation space
  | .base _ => .done (.error .notReady)
  | .node name => compute programs 1000 (.node name)
  | .mirror name => compute programs 1000 (.mirror name)

end BuildAnalysis.Engine.Script
