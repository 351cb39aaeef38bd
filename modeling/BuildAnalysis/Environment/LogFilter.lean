import BuildAnalysis.Collection.Listing
import BuildAnalysis.Environment.LogDirective
import BuildAnalysis.Environment.Variable

/-!
# Log filters

A filter is a comma separated list of directives; the most specific directive that applies to a
message decides which levels pass. Nothing passes where no directive applies. Without a filter,
warnings and errors pass.
-/
namespace BuildAnalysis

structure LogFilter where
  directives : List LogDirective
  deriving DecidableEq

namespace LogFilter

def default : LogFilter := ⟨[{ verbosity := LogLevel.warn.verbosity }]⟩

def parse? (s : String) : Option LogFilter :=
  (((s.toList.splitOn ',').filter fun p => !p.isEmpty).mapM LogDirective.parse?).map LogFilter.mk

def messageFields : List String := ["message"]

/-- The most specific directive for messages of a module; among equally specific ones the last. -/
def decisive? (f : LogFilter) (module : String) : Option LogDirective :=
  (f.directives.filter fun d => d.appliesTo module messageFields).foldl
    (fun best d =>
      match best with
      | some b => if b.specificity ≤ d.specificity then some d else some b
      | none => some d) none

def passes (f : LogFilter) (module : String) (level : LogLevel) : Bool :=
  match f.decisive? module with
  | some d => level.verbosity ≤ d.verbosity
  | none => false

def ofVariable (name : String) (v : Variable) : Except Failure LogFilter :=
  match Override.readOnce ⟨name, .text, none⟩ v with
  | .error e => .error e
  | .ok (some (.text s)) =>
    match parse? s with
    | some f => .ok f
    | none => .error ((Failure.new .tier0 "invalid filter directive").within
        s!"Failed to parse ${name} as a filter")
  | .ok _ => .ok default

/-- The filter that an environment asks for in the variable `name`. -/
def ofEnvironment (name : String) (environment : List (String × String)) : Except Failure LogFilter :=
  ofVariable name (((Listing.find? name (Listing.ofEntries environment)).map .text).getD .unset)

def levels (f : LogFilter) (module : String) : List LogLevel := LogLevel.all.filter fun l => f.passes module l

def installedTwice : Failure :=
  (Failure.new .tier0 "a global default trace dispatcher has already been set").within
    "Failed to install the tracing subscriber"

end LogFilter
end BuildAnalysis
