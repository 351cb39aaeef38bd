import BuildAnalysis.Analysis.Computation
import BuildAnalysis.Analysis.Loaded

/-!
# Requests for analysis

The ways in which targets are asked for: a batch of targets as configured by the installed settings,
or one target whose evaluation is run step by step, computing in between what it waits for.
-/
namespace BuildAnalysis

abbrev AnalysisSession := Engine.Session analysisSpace

abbrev AnalysisError := Engine.RequestError analysisSpace

namespace AnalysisSession

def start (settings : AnalysisSettings) : AnalysisSession :=
  { world := { permits := .ofCapacity (settings.cpuPermits.getD 1) } }

def load (s : AnalysisSession) (l : Loaded) : AnalysisSession := s.begin l.changes

/-- The engine without its log and without what has left it so far. -/
def forget (s : AnalysisSession) : AnalysisSession :=
  { s with log := [], world := { s.world with events := [], progress := [] } }

def isCached (s : AnalysisSession) (k : AnalysisKey) : Bool :=
  Engine.Session.isCached (S := analysisSpace) s k

def compute (services : Option Services) (keepGoing : Bool) (k : AnalysisKey)
    (s : AnalysisSession) : Except AnalysisError k.Value × AnalysisSession :=
  Engine.Session.compute (AnalysisKey.computation services) {} keepGoing k s

def computeTargets (services : Option Services) (keepGoing : Bool) (ks : List TargetKey)
    (s : AnalysisSession) :
    Except AnalysisError (List (Except Failure TargetValue)) × AnalysisSession :=
  Engine.Session.computeAll (AnalysisKey.computation services) {} keepGoing
    AnalysisKey.target (fun _ v => v) ks s

/-- Whether two keys have equal values, which are computed in one request. -/
def computeEqual (services : Option Services) (k l : AnalysisKey) (s : AnalysisSession) :
    Except AnalysisError Bool × AnalysisSession :=
  let served := Engine.Session.computeMany (AnalysisKey.computation services) {} true [k, l] s
  (served.1.map fun (.cons v (.cons w .nil)) => k.sameAcross l v w, served.2)

/-- Analyzes targets in a transaction of their own, as the installed settings say. -/
def analyze (services : Option Services) (ks : List TargetKey) (s : AnalysisSession) :
    Except Failure (List (Except Failure TargetValue)) × AnalysisSession :=
  match services with
  | none => (.error Services.missing, s)
  | some sv =>
    let keepGoing := sv.settings.keepGoing
    let s := s.logAt .debug s!"Analyzing {ks.length} targets, keep going: {keepGoing}"
    let served := computeTargets services keepGoing ks (s.begin [])
    (served.1.mapError Engine.RequestError.toFailure, served.2)

def attemptTarget (services : Option Services) (k : TargetKey) (s : AnalysisSession) :
    Except AnalysisError (Engine.Attempt analysisSpace (.target k)) × AnalysisSession :=
  Engine.Session.attempt (AnalysisKey.computation services) {} (.target k) s

inductive DriveEnd where
  | ready (value : Except Failure TargetValue)
  /-- The evaluation waits for something that loading has to set. -/
  | unexpected (key : AnalysisKey)
  | failed (error : AnalysisError)
  /-- The evaluation was not ready after all rounds. -/
  | never

/-- Computes keys one after the other, stopping at what cannot be computed. -/
def computeWaited (services : Option Services) (keepGoing : Bool) :
    List AnalysisKey → AnalysisSession → Option DriveEnd × AnalysisSession
  | [], s => (none, s)
  | k :: ks, s =>
    if analysisSpace.isInjected k then (some (.unexpected k), s)
    else
      match compute services keepGoing k s with
      | (.error e, s) => (some (.failed e), s)
      | (.ok _, s) => computeWaited services keepGoing ks s

/-- Runs the evaluation of a target again and again, computing in between what it waits for; how it
ends, and what it waited for in each round. -/
def drive (services : Option Services) (keepGoing : Bool) (k : TargetKey) :
    (rounds : Nat) → (waited : List (List AnalysisKey)) → AnalysisSession →
      (DriveEnd × List (List AnalysisKey)) × AnalysisSession
  | 0, waited, s => ((.never, waited), s)
  | rounds + 1, waited, s =>
    match attemptTarget services k s with
    | (.error e, s) => ((.failed e, waited), s)
    | (.ok (.ready v), s) => ((.ready v, waited), s)
    | (.ok (.notReady missing), s) =>
      match computeWaited services keepGoing missing s with
      | (some stopped, s) => ((stopped, waited), s)
      | (none, s) =>
        let round : List AnalysisKey := missing
        drive services keepGoing k rounds (waited ++ [round]) s

end AnalysisSession
end BuildAnalysis
