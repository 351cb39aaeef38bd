/-!
# Permits

A pool holds a fixed number of permits, at least one. An evaluation enters a section, which takes a
permit; while the evaluation waits for requested values the section gives its permit back, and takes
one again afterwards. Taking a permit from an exhausted pool blocks.
-/
namespace BuildAnalysis

structure Permits where
  capacity : Nat
  available : Nat
  deriving DecidableEq

namespace Permits

def ofCapacity (n : Nat) : Permits := ⟨max n 1, max n 1⟩

def acquire? (p : Permits) : Option Permits :=
  if p.available = 0 then none else some { p with available := p.available - 1 }

def release (p : Permits) : Permits := { p with available := p.available + 1 }

end Permits

inductive Holder where
  /-- A permit held until it is dropped. -/
  | permit
  /-- The section of an evaluation. -/
  | section (holding : Bool)
  | dropped
  deriving DecidableEq

namespace Holder

def held : Holder → Nat
  | permit => 1
  | .section true => 1
  | .section false => 0
  | dropped => 0

def sectionHolds? : Holder → Option Bool
  | .section holding => some holding
  | _ => none

end Holder

/-- A pool and its holders, in the order in which they came. -/
structure PermitPool where
  permits : Permits
  holders : List Holder := []
  deriving DecidableEq

inductive PermitPool.Step where
  | acquire
  | enter
  | drop (holder : Nat)
  /-- The evaluation of a section begins to wait for requested values. -/
  | pause (holder : Nat)
  /-- The evaluation of a section has got its values. -/
  | resume (holder : Nat)
  deriving DecidableEq

namespace PermitPool

def ofCapacity (n : Nat) : PermitPool := ⟨.ofCapacity n, []⟩

def grant (p : PermitPool) (h : Holder) : Option PermitPool :=
  p.permits.acquire?.map fun permits => ⟨permits, p.holders ++ [h]⟩

def giveBack (p : PermitPool) (i : Nat) (h : Holder) : PermitPool :=
  match p.holders[i]? with
  | some .permit | some (.section true) => ⟨p.permits.release, p.holders.set i h⟩
  | some (.section false) => ⟨p.permits, p.holders.set i h⟩
  | _ => p

/-- The pool after a step; `none` if the step blocks. -/
def step (p : PermitPool) : Step → Option PermitPool
  | .acquire => p.grant .permit
  | .enter => p.grant (.section true)
  | .drop i => some (p.giveBack i .dropped)
  | .pause i =>
    match p.holders[i]? with
    | some (.section _) => some (p.giveBack i (.section false))
    | _ => some p
  | .resume i =>
    match p.holders[i]? with
    | some (.section false) =>
      p.permits.acquire?.map fun permits => ⟨permits, p.holders.set i (.section true)⟩
    | _ => some p

/-- Makes a step unless it blocks; whether it did block. -/
def attempt (p : PermitPool) (s : Step) : Bool × PermitPool :=
  match p.step s with
  | some q => (false, q)
  | none => (true, p)

def holding (p : PermitPool) : List (Option Bool) := p.holders.map Holder.sectionHolds?

end PermitPool

structure PermitWait where
  /-- What is logged about it. -/
  log : List String
  available : Nat
  deriving DecidableEq

namespace PermitPool

def stallMessage (waited : String) (capacity : Nat) : String :=
  s!"Spent {waited} ms acquiring a CPU permit for analysis ({capacity} permits)"

/-- Takes and drops a permit once for each item of a list. An item tells whether the pool was
exhausted at first, so that taking took a while; of the stalls beyond the pool's patience only the
first is logged, since stalls are logged rarely. -/
def waits (capacity : Nat) (patient : Bool) : (logged : Bool) → List Bool → List PermitWait
  | _, [] => []
  | logged, stalled :: rest =>
    let pool := Permits.ofCapacity capacity
    let loud := stalled && !patient && !logged
    ⟨if loud then [stallMessage "N" pool.capacity] else [], pool.available⟩ ::
      waits capacity patient (logged || loud) rest

end PermitPool
end BuildAnalysis
