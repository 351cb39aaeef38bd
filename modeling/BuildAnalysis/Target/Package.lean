import BuildAnalysis.Target.Basic

/-!
# Packages

A package holds the targets that loading found in it, each under its own name. Loading may have
failed in part; the targets that were found are there all the same.
-/
namespace BuildAnalysis

inductive PackageError where
  | noSuchTarget (package : PackagePath) (name : TargetName)
  | wrongPackage (label : Label) (package : PackagePath)
  | repeatedTarget (label : Label)
  deriving DecidableEq

namespace PackageError

def tag : PackageError → Tag
  | noSuchTarget _ _ => .targetNotFound
  | _ => .packageLoading

def message : PackageError → String
  | noSuchTarget package name =>
    s!"no such target '{Label.mk package name}': target '{name}' not declared in package '{package.path}'"
  | wrongPackage label package => s!"Target `{label}` does not belong to package `{package}`"
  | repeatedTarget label => s!"Target `{label}` is declared twice"

def toFailure (e : PackageError) : Failure := .new e.tag e.message

end PackageError

structure Package where
  label : PackagePath
  targets : List Target
  owned : ∀ t ∈ targets, t.label.package = label
  distinct : (targets.map fun t => t.label.name).Nodup
  /-- The message of loading, if it reported errors. -/
  errorMessage : Option String := none
  deriving DecidableEq

namespace Package

def add (p : Package) (t : Target) : Except PackageError Package :=
  if ho : t.label.package = p.label then
    if hd : t.label.name ∈ p.targets.map fun t => t.label.name then
      .error (.repeatedTarget t.label)
    else
      .ok { p with
        targets := p.targets ++ [t]
        owned := by
          intro u hu
          rcases List.mem_append.1 hu with hu | hu
          · exact p.owned u hu
          · rw [List.mem_singleton.1 hu]; exact ho
        distinct := by
          rw [List.map_append, List.nodup_append]
          refine ⟨p.distinct, by simp, ?_⟩
          intro a ha b hb hab
          simp only [List.map_cons, List.map_nil, List.mem_singleton] at hb
          exact hd (hb ▸ hab ▸ ha) }
  else .error (.wrongPackage t.label p.label)

def empty (label : PackagePath) : Package :=
  ⟨label, [], by simp, by simp, none⟩

/-- A package of the given targets; the first one that does not fit is reported. -/
def ofTargets (label : PackagePath) (targets : List Target) : Except PackageError Package :=
  targets.foldlM add (empty label)

/-- Marks the package as having had loading errors. -/
def withError (p : Package) (message : String) : Package := { p with errorMessage := some message }

def containsErrors (p : Package) : Bool := p.errorMessage.isSome

def target (p : Package) (name : TargetName) : Except PackageError Target :=
  match p.targets.find? fun t => t.label.name == name with
  | some t => .ok t
  | none => .error (.noSuchTarget p.label name)

/-- Equality up to the ids of transitions and the order of targets. -/
def same (p q : Package) : Bool :=
  p.label == q.label &&
    Listing.sameEntries Target.same (p.targets.map fun t => (t.label.name, t))
      (q.targets.map fun t => (t.label.name, t)) &&
    p.errorMessage == q.errorMessage

end Package
end BuildAnalysis
