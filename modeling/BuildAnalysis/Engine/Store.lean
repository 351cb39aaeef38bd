import BuildAnalysis.Engine.Task

/-!
# The store of an engine

The store holds the values that are set or computed, each with the keys it was computed from, and
for every key the keys computed from it. Dropping a key drops everything computed from it, directly
or through others.
-/
namespace BuildAnalysis.Engine

variable {S : KeySpace}

/-- A value with the keys that were requested while it was computed. -/
structure Entry (S : KeySpace) where
  key : S.Key
  value : S.Value key
  deps : List S.Key

structure Store (S : KeySpace) where
  entries : List (Entry S) := []
  /-- For a key, the keys computed from it. -/
  dependents : List (S.Key × List S.Key) := []

namespace Store

def entry? (s : Store S) (k : S.Key) : Option (Entry S) := s.entries.find? fun e => e.key = k

def valueIn? (k : S.Key) : List (Entry S) → Option (S.Value k)
  | [] => none
  | e :: es => if h : e.key = k then some (h ▸ e.value) else valueIn? k es

def value? (s : Store S) (k : S.Key) : Option (S.Value k) := valueIn? k s.entries

def contains (s : Store S) (k : S.Key) : Bool := (s.value? k).isSome

def size (s : Store S) : Nat := s.entries.length

/-- The keys of a list that have no value. -/
def missing (s : Store S) (ks : List S.Key) : List S.Key := ks.filter fun k => !s.contains k

def values? (s : Store S) : (ks : List S.Key) → Option (Values S ks)
  | [] => some .nil
  | k :: ks =>
    match s.value? k, s.values? ks with
    | some v, some vs => some (.cons v vs)
    | _, _ => none

/-- The keys computed from a key. -/
def dependentsOf (s : Store S) (k : S.Key) : List S.Key :=
  (Listing.find? k s.dependents).getD []

/-- Records that `k` was computed from `dep`. -/
def addDependent (k dep : S.Key) : List (S.Key × List S.Key) → List (S.Key × List S.Key)
  | [] => [(dep, [k])]
  | e :: es =>
    if e.1 = dep then (e.1, Listing.add e.2 k) :: es else e :: addDependent k dep es

/-- Forgets that `k` was computed from `dep`. -/
def dropDependent (k : S.Key) (dependents : List (S.Key × List S.Key)) (dep : S.Key) :
    List (S.Key × List S.Key) :=
  dependents.map fun e => if e.1 = dep then (e.1, e.2.filter fun x => x ≠ k) else e

/-- Stores a computed value unless the key has one; the value the key has afterwards. -/
def insertComputed (s : Store S) (k : S.Key) (v : S.Value k) (deps : List S.Key) :
    Store S × S.Value k :=
  match s.value? k with
  | some existing => (s, existing)
  | none =>
    (⟨s.entries ++ [⟨k, v, deps⟩], deps.foldl (fun ds dep => addDependent k dep ds) s.dependents⟩, v)

/-- Drops the entry of a key from the store, and the key from the dependents of what it was
computed from. -/
def remove (s : Store S) (k : S.Key) : Store S :=
  match s.entry? k with
  | none => s
  | some e =>
    ⟨s.entries.filter fun e => e.key ≠ k, e.deps.foldl (dropDependent k) s.dependents⟩

/-- The store without the list of what was computed from a key. -/
def dropDependentsOf (s : Store S) (k : S.Key) : Store S :=
  { s with dependents := s.dependents.filter fun e => e.1 ≠ k }

/-- How many dependents are recorded in a list. -/
def recorded : List (S.Key × List S.Key) → Nat
  | [] => 0
  | e :: es => e.2.length + recorded es

/-- How many recorded dependents a store has. -/
def weight (s : Store S) : Nat := recorded s.dependents

theorem recorded_dropDependent (k : S.Key) (ds : List (S.Key × List S.Key)) (dep : S.Key) :
    recorded (dropDependent k ds dep) ≤ recorded ds := by
  induction ds with
  | nil => exact Nat.le_refl _
  | cons e es ih =>
    have : (if e.1 = dep then (e.1, e.2.filter fun x => x ≠ k) else e).2.length ≤ e.2.length := by
      split
      · exact List.length_filter_le _ _
      · exact Nat.le_refl _
    simp only [dropDependent, List.map_cons, recorded] at ih ⊢
    omega

theorem recorded_foldl_dropDependent (k : S.Key) (deps : List S.Key)
    (ds : List (S.Key × List S.Key)) :
    recorded (deps.foldl (dropDependent k) ds) ≤ recorded ds := by
  induction deps generalizing ds with
  | nil => exact Nat.le_refl _
  | cons dep deps ih => exact Nat.le_trans (ih _) (recorded_dropDependent k ds dep)

theorem recorded_filter (k : S.Key) (ds : List (S.Key × List S.Key)) :
    recorded (ds.filter fun e => e.1 ≠ k) ≤ recorded ds := by
  induction ds with
  | nil => exact Nat.le_refl _
  | cons e es ih =>
    simp only [List.filter_cons, recorded] at ih ⊢
    split
    · simp only [recorded]; omega
    · omega

theorem weight_remove_le (s : Store S) (k : S.Key) : (s.remove k).weight ≤ s.weight := by
  unfold remove
  split
  · exact Nat.le_refl _
  · exact recorded_foldl_dropDependent _ _ _

theorem weight_dropDependentsOf (s : Store S) (k : S.Key) :
    (s.dependentsOf k).length + (s.dropDependentsOf k).weight ≤ s.weight := by
  obtain ⟨es, ds⟩ := s
  simp only [dependentsOf, dropDependentsOf, weight]
  induction ds with
  | nil => exact Nat.le_refl _
  | cons e es' ih =>
    have := recorded_filter k es'
    by_cases h : e.1 = k
    · simp only [Listing.find?, h, ite_true, Option.getD_some, List.filter_cons, ne_eq,
        not_true_eq_false, decide_false, Bool.false_eq_true, ite_false, recorded] at this ⊢
      omega
    · simp only [Listing.find?, h, ite_false, List.filter_cons, ne_eq, not_false_eq_true,
        decide_true, ite_true, recorded] at ih ⊢
      omega

/-- Drops the keys of a queue and everything computed from them; how many keys had a value. -/
def sweep (s : Store S) (queue : List S.Key) : Store S × Nat :=
  match queue with
  | [] => (s, 0)
  | k :: rest =>
    let more := s.dependentsOf k
    let lighter := s.dropDependentsOf k
    let swept := sweep (lighter.remove k) (more ++ rest)
    (swept.1, swept.2 + if s.contains k then 1 else 0)
termination_by s.weight + queue.length
decreasing_by
  have h₁ := weight_dropDependentsOf s k
  have h₂ := weight_remove_le (s.dropDependentsOf k) k
  simp only [List.length_append, List.length_cons]
  omega

/-- Drops everything computed from a key, but not the key itself. -/
def dropComputedFrom (s : Store S) (k : S.Key) : Store S × Nat :=
  sweep (s.dropDependentsOf k) (s.dependentsOf k)

/-- Drops a key and everything computed from it; how many keys had a value. -/
def invalidate (s : Store S) (k : S.Key) : Store S × Nat :=
  let dropped := s.dropComputedFrom k
  (dropped.1.remove k, dropped.2 + if dropped.1.contains k then 1 else 0)

/-- Sets the value of an injected key; whether that was a change. -/
def setInjected (s : Store S) (k : S.Key) (v : S.Value k) : Store S × Bool :=
  let unchanged :=
    match s.value? k with
    | some old => S.sameValue k old v
    | none => false
  if unchanged then (s, false)
  else
    let dropped := (s.dropComputedFrom k).1
    ({ dropped with entries := (dropped.entries.filter fun e => e.key ≠ k) ++ [⟨k, v, []⟩] }, true)

/-- Applies a change; how many values it dropped or set. -/
def apply (s : Store S) : Change S → Store S × Nat
  | .inject k v =>
    let set := s.setInjected k v
    (set.1, if set.2 then 1 else 0)
  | .invalidate k => s.invalidate k

/-- Applies changes one after the other. -/
def applyAll (s : Store S) (changes : List (Change S)) : Store S × Nat :=
  changes.foldl (fun acc c => ((acc.1.apply c).1, acc.2 + (acc.1.apply c).2)) (s, 0)

end Store
end BuildAnalysis.Engine
