import BuildAnalysis.Environment.LogLevel
import BuildAnalysis.Label.Basic

/-!
# Events

What analysis tells the user. An evaluation keeps its events until it ends with a value or a
failure; only then are they delivered, so an evaluation that is started again tells nothing twice.
-/
namespace BuildAnalysis

inductive EventKind where
  | error
  | warning
  | info
  deriving DecidableEq

structure Event where
  kind : EventKind
  label : Option Label
  message : String
  deriving DecidableEq

namespace EventKind

def name : EventKind → String
  | error => "ERROR"
  | warning => "WARNING"
  | info => "INFO"

def lowerName : EventKind → String
  | error => "error"
  | warning => "warning"
  | info => "info"

def ofLowerName? (s : String) : Option EventKind :=
  [error, warning, info].find? fun k => k.lowerName == s

end EventKind

namespace Event

def error (label : Label) (message : String) : Event := ⟨.error, some label, message⟩

def warning (label : Label) (message : String) : Event := ⟨.warning, some label, message⟩

def isError (e : Event) : Bool := e.kind == .error

instance : ToString Event where
  toString e :=
    match e.label with
    | some l => s!"{e.kind.name}: {l}: {e.message}"
    | none => s!"{e.kind.name}: {e.message}"

def logEntry (e : Event) : LogEntry := ⟨if e.isError then .debug else .trace, toString e⟩

def errors (es : List Event) : List Event := es.filter isError

end Event
end BuildAnalysis
