import BuildAnalysis.Environment.Variable

/-!
# Settings of the analysis phase

Defaults, overridden by environment variables. Numbers of permits and threads that are not set
follow the machine; zero counts as one.
-/
namespace BuildAnalysis

structure AnalysisSettings where
  /-- Go on with other targets after a failure. -/
  keepGoing : Bool := false
  /-- How many evaluations may work at the same time; `none` is one per processor. -/
  cpuPermits : Option Nat := none
  /-- Give the permit back while waiting for requested values. -/
  unblockWhileFetching : Bool := true
  /-- Record the packages loaded for each target. -/
  storeTransitivePackages : Bool := false
  /-- Waiting longer than this for a permit is logged. -/
  stallMilliseconds : Nat := 5
  /-- Worker threads of the scheduler; `none` is one per processor. -/
  threads : Option Nat := none
  deriving DecidableEq

namespace AnalysisSettings

def lookup (env : List (String × String)) (name : String) (type : VariableType) :
    Except Failure (Option VariableValue) :=
  Override.readOnce ⟨name, type, none⟩
    (match Listing.find? name env with
    | some s => .text s
    | none => .unset)

def lookupBool (env : List (String × String)) (name : String) (default : Bool) :
    Except Failure Bool :=
  (lookup env name .boolean).map fun
    | some (.boolean b) => b
    | _ => default

def lookupNat (env : List (String × String)) (name : String) : Except Failure (Option Nat) :=
  (lookup env name .word).map fun
    | some (.number n) => some n.toNat
    | _ => none

/-- The defaults with the overrides of an environment, in which a variable set twice has its last
value; the first bad variable is reported. -/
def ofEnvironment (assignments : List (String × String)) : Except Failure AnalysisSettings := do
  let env := Listing.ofEntries assignments
  let keepGoing ← lookupBool env "STRATA_KEEP_GOING" false
  let cpuPermits ← lookupNat env "STRATA_CPU_PERMITS"
  let unblock ← lookupBool env "STRATA_UNBLOCK_CPU_WHEN_FETCHING" true
  let store ← lookupBool env "STRATA_STORE_TRANSITIVE_PACKAGES" false
  let stall ← lookupNat env "STRATA_THROTTLE_STALL_MS"
  let threads ← lookupNat env "STRATA_SCHEDULER_THREADS"
  return {
    keepGoing := keepGoing
    cpuPermits := cpuPermits.map (max 1)
    unblockWhileFetching := unblock
    storeTransitivePackages := store
    stallMilliseconds := stall.getD 5
    threads := threads.map (max 1) }

end AnalysisSettings
end BuildAnalysis
