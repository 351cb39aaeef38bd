import BuildAnalysis.Configuration.Settings
import BuildAnalysis.Failure.Basic

/-!
# Providers

A target exposes named values to the targets that depend on it. Names are distinct: adding a name
that is there fails and changes nothing.
-/
namespace BuildAnalysis

structure ConditionMatch where
  label : Label
  settings : Settings
  holds : Bool
  deriving DecidableEq

inductive Provided where
  | text (s : String)
  | labels (ls : List Label)
  | condition (c : ConditionMatch)
  | list (items : List Provided)
  deriving Inhabited

namespace Provided

mutual

def beq : Provided → Provided → Bool
  | text s, text t => s == t
  | labels ls, labels ms => ls == ms
  | condition c, condition d => c == d
  | list xs, list ys => beqItems xs ys
  | _, _ => false

def beqItems : List Provided → List Provided → Bool
  | [], [] => true
  | x :: xs, y :: ys => beq x y && beqItems xs ys
  | _, _ => false

end

mutual

theorem eq_of_beq : ∀ {a b : Provided}, beq a b = true → a = b
  | text _, b, h => by cases b <;> simp_all [beq]
  | labels _, b, h => by cases b <;> simp_all [beq]
  | condition _, b, h => by cases b <;> simp_all [beq]
  | list xs, b, h => by
    cases b <;> simp only [beq, Bool.false_eq_true] at h
    rw [eq_of_beqItems h]

theorem eq_of_beqItems : ∀ {xs ys : List Provided}, beqItems xs ys = true → xs = ys
  | [], ys, h => by cases ys <;> simp_all [beqItems]
  | x :: xs, ys, h => by
    cases ys with
    | nil => simp [beqItems] at h
    | cons y ys =>
      simp only [beqItems, Bool.and_eq_true] at h
      rw [eq_of_beq h.1, eq_of_beqItems h.2]

end

mutual

theorem beq_self : ∀ a : Provided, beq a a = true
  | text _ => by simp [beq]
  | labels _ => by simp [beq]
  | condition _ => by simp [beq]
  | list xs => by rw [beq, beqItems_self xs]

theorem beqItems_self : ∀ xs : List Provided, beqItems xs xs = true
  | [] => rfl
  | x :: xs => by rw [beqItems, beq_self x, beqItems_self xs]; rfl

end

instance : DecidableEq Provided := fun a b =>
  decidable_of_iff (beq a b = true) ⟨eq_of_beq, fun h => h ▸ beq_self a⟩

end Provided

structure RepeatedProvider where
  name : String
  deriving DecidableEq

namespace RepeatedProvider

def tag (_ : RepeatedProvider) : Tag := .duplicateProvider

def message (e : RepeatedProvider) : String := s!"Provider `{e.name}` provided twice"

def toFailure (e : RepeatedProvider) : Failure := .new e.tag e.message

end RepeatedProvider

structure Providers where
  entries : SortedMap String Provided := ∅
  deriving DecidableEq

namespace Providers

instance : EmptyCollection Providers := ⟨{}⟩

def conditionName : String := "ConfigMatchingProvider"

def get? (p : Providers) (name : String) : Option Provided := p.entries.get? name

def contains (p : Providers) (name : String) : Bool := p.entries.contains name

def names (p : Providers) : List String := p.entries.keys

def isEmpty (p : Providers) : Bool := p.entries.isEmpty

def put (p : Providers) (name : String) (value : Provided) : Providers :=
  ⟨p.entries.insert name value⟩

def ofList (es : List (String × Provided)) : Providers := ⟨.ofList es⟩

def insert (p : Providers) (name : String) (value : Provided) :
    Except RepeatedProvider Providers :=
  if p.contains name then .error ⟨name⟩ else .ok (p.put name value)

/-- Adds all values of `q` in place, unless there are names that both have; the first of these is
reported. -/
def absorb (q : Providers) : ExceptT RepeatedProvider (StateM Providers) Unit := do
  let p ← get
  match q.names.find? p.contains with
  | some name => throw ⟨name⟩
  | none => q.entries.entries.forM fun e => modify fun p => p.put e.1 e.2

/-- The values of `p` and `q` together, if they have no name in common. -/
def merge (p q : Providers) : Except RepeatedProvider Providers :=
  match (absorb q).run.run p with
  | (.error e, _) => .error e
  | (.ok _, merged) => .ok merged

def condition? (p : Providers) : Option ConditionMatch :=
  match p.get? conditionName with
  | some (.condition c) => some c
  | _ => none

end Providers
end BuildAnalysis
