import BuildAnalysis.Configuration.Key

/-!
# Root causes

A cause is a failure pinned to a target. A set of causes lists each cause once, in the order of
first arrival, and ranks as its most important tag. The failure of a target carries the causes that
led to it.
-/
namespace BuildAnalysis

structure Cause where
  label : Label
  configuration : Option ConfigurationKey
  tag : Tag
  message : String
  deriving DecidableEq

instance : ToString Cause where
  toString c :=
    match c.configuration with
    | some k => s!"{c.label} ({k}): {c.message}"
    | none => s!"{c.label}: {c.message}"

/-- Causes without repetition, in the order in which they were first seen, with the most important
of their tags, which is kept up to date as causes arrive. -/
structure Causes where
  items : List Cause
  mostImportant : Option Tag
  nodup : items.Nodup
  upToDate : mostImportant = Tag.best? (items.map Cause.tag)
  deriving DecidableEq

namespace Causes

def empty : Causes := ⟨[], none, .nil, rfl⟩

instance : Inhabited Causes := ⟨empty⟩
instance : EmptyCollection Causes := ⟨empty⟩

theorem upToDate_of_mem {cs : Causes} {c : Cause} (h : c ∈ cs.items) :
    Tag.moreImportant? cs.mostImportant (some c.tag) = Tag.best? (cs.items.map Cause.tag) := by
  rw [cs.upToDate]
  exact Tag.moreImportant?_best?_of_mem (List.mem_map_of_mem h)

theorem nodup_concat {cs : Causes} {c : Cause} (h : c ∉ cs.items) : (cs.items ++ [c]).Nodup := by
  refine List.nodup_append.mpr ⟨cs.nodup, List.nodup_cons.mpr ⟨List.not_mem_nil, .nil⟩, ?_⟩
  intro a ha b hb hab
  rw [List.mem_singleton.mp hb] at hab
  exact h (hab ▸ ha)

theorem upToDate_concat (cs : Causes) (c : Cause) :
    Tag.moreImportant? cs.mostImportant (some c.tag) =
      Tag.best? ((cs.items ++ [c]).map Cause.tag) := by
  rw [cs.upToDate, List.map_append, List.map_singleton, Tag.best?_concat]

/-- Adds a cause at the end unless it is known. Known or not, its tag is compared with the most
important one so far. -/
def add (cs : Causes) (c : Cause) : Causes :=
  if h : c ∈ cs.items then
    ⟨cs.items, Tag.moreImportant? cs.mostImportant (some c.tag), cs.nodup, upToDate_of_mem h⟩
  else
    ⟨cs.items ++ [c], Tag.moreImportant? cs.mostImportant (some c.tag), nodup_concat h,
      upToDate_concat cs c⟩

def addAll (cs other : Causes) : Causes := other.items.foldl add cs

def single (c : Cause) : Causes := empty.add c

def isEmpty (cs : Causes) : Bool := cs.items.isEmpty

def size (cs : Causes) : Nat := cs.items.length

def labels (cs : Causes) : List Label := cs.items.map Cause.label

end Causes

/-- The failure of a configured target. `reported` tells whether its message reached the user when
the failure was found; otherwise showing it is left to whoever asked for the target. -/
structure TargetFailure where
  label : Label
  configuration : Option ConfigurationKey
  message : String
  causes : Causes
  detailedTag : Option Tag
  reported : Bool
  deriving DecidableEq

namespace TargetFailure

/-- A failure that ranks as its causes do. -/
def ofCauses (label : Label) (configuration : Option ConfigurationKey) (message : String)
    (causes : Causes) : TargetFailure :=
  ⟨label, configuration, message, causes, causes.mostImportant, false⟩

/-- A failure of the target itself, which is its own cause. -/
def ofTarget (label : Label) (configuration : Option ConfigurationKey) (tag : Tag)
    (message : String) : TargetFailure :=
  ofCauses label configuration message (.single ⟨label, configuration, tag, message⟩)

def withMessage (f : TargetFailure) (message : String) : TargetFailure :=
  { f with message := message }

def withDetailedTag (f : TargetFailure) (tag : Option Tag) : TargetFailure :=
  { f with detailedTag := tag }

def markReported (f : TargetFailure) : TargetFailure := { f with reported := true }

def tag (f : TargetFailure) : Tag := f.detailedTag.getD .analysis

end TargetFailure
end BuildAnalysis
