/-!
# Log levels

How important a logged message is, and a message with its level.
-/
namespace BuildAnalysis

inductive LogLevel where
  | error
  | warn
  | info
  | debug
  | trace
  deriving DecidableEq, Repr

namespace LogLevel

def all : List LogLevel := [error, warn, info, debug, trace]

def verbosity : LogLevel → Nat
  | error => 1
  | warn => 2
  | info => 3
  | debug => 4
  | trace => 5

def name : LogLevel → String
  | error => "ERROR"
  | warn => "WARN"
  | info => "INFO"
  | debug => "DEBUG"
  | trace => "TRACE"

def lowerName : LogLevel → String
  | error => "error"
  | warn => "warn"
  | info => "info"
  | debug => "debug"
  | trace => "trace"

def ofLowerName? (s : String) : Option LogLevel := all.find? fun l => l.lowerName == s

end LogLevel

structure LogEntry where
  level : LogLevel
  message : String
  deriving DecidableEq

instance : ToString LogEntry := ⟨fun e => e.level.name ++ " " ++ e.message⟩

end BuildAnalysis
