/-!
# Failure tags

A tag classifies a failure. Tags are ranked: when several failures meet, the one with the smallest
rank is the one worth showing, and the earlier of two equal ones is kept.
-/
namespace BuildAnalysis

/-- What kind of failure occurred, from the most to the least important kind. -/
inductive Tag where
  | internalError
  | tier0
  | cycle
  | packageLoading
  | targetNotFound
  | toolchainResolution
  | configCondition
  | transition
  | duplicateProvider
  | actionConflict
  | invalidExecGroup
  | analysis
  | dependencyEvaluation
  | input
  deriving DecidableEq, Repr, Inhabited

inductive Blame where
  | user
  | infra
  deriving DecidableEq, Repr

namespace Tag

def all : List Tag :=
  [internalError, tier0, cycle, packageLoading, targetNotFound, toolchainResolution,
    configCondition, transition, duplicateProvider, actionConflict, invalidExecGroup, analysis,
    dependencyEvaluation, input]

/-- Smaller is more important. -/
def rank : Tag → Nat
  | internalError => 0
  | tier0 => 1
  | cycle => 2
  | packageLoading => 3
  | targetNotFound => 4
  | toolchainResolution => 5
  | configCondition => 6
  | transition => 7
  | duplicateProvider => 8
  | actionConflict => 9
  | invalidExecGroup => 10
  | analysis => 11
  | dependencyEvaluation => 12
  | input => 13

def name : Tag → String
  | internalError => "InternalError"
  | tier0 => "Tier0"
  | cycle => "Cycle"
  | packageLoading => "PackageLoading"
  | targetNotFound => "TargetNotFound"
  | toolchainResolution => "ToolchainResolution"
  | configCondition => "ConfigCondition"
  | transition => "Transition"
  | duplicateProvider => "DuplicateProvider"
  | actionConflict => "ActionConflict"
  | invalidExecGroup => "InvalidExecGroup"
  | analysis => "Analysis"
  | dependencyEvaluation => "DependencyEvaluation"
  | input => "Input"

def code : Tag → String
  | internalError => "INTERNAL_ERROR"
  | tier0 => "TIER0"
  | cycle => "CYCLE"
  | packageLoading => "PACKAGE_LOADING"
  | targetNotFound => "TARGET_NOT_FOUND"
  | toolchainResolution => "TOOLCHAIN_RESOLUTION"
  | configCondition => "CONFIG_CONDITION"
  | transition => "TRANSITION"
  | duplicateProvider => "DUPLICATE_PROVIDER"
  | actionConflict => "ACTION_CONFLICT"
  | invalidExecGroup => "INVALID_EXEC_GROUP"
  | analysis => "ANALYSIS"
  | dependencyEvaluation => "DEPENDENCY_EVALUATION"
  | input => "INPUT"

def ofName? (s : String) : Option Tag := all.find? fun t => t.name == s

def blame : Tag → Blame
  | internalError | tier0 => .infra
  | _ => .user

/-- The more important of two tags, the first one when they rank alike. -/
def moreImportant (a b : Tag) : Tag := if b.rank < a.rank then b else a

/-- The most important tag of a list, the earliest of those that rank alike. -/
def best? : List Tag → Option Tag
  | [] => none
  | t :: ts => some (ts.foldl moreImportant t)

/-- The more important of two tags either of which may be absent; an absent tag is least
important. -/
def moreImportant? : Option Tag → Option Tag → Option Tag
  | none, b => b
  | a, none => a
  | some a, some b => some (moreImportant a b)

/-- The more important of a tag so far and each further tag of a list, in turn. -/
def moreImportantFrom (best : Option Tag) : List (Option Tag) → List (Option Tag)
  | [] => []
  | t :: ts => moreImportant? best t :: moreImportantFrom (moreImportant? best t) ts

/-! ### The most important tag -/

theorem rank_moreImportant_le_left (a b : Tag) : (moreImportant a b).rank ≤ a.rank := by
  unfold moreImportant
  split <;> omega

theorem rank_moreImportant_le_right (a b : Tag) : (moreImportant a b).rank ≤ b.rank := by
  unfold moreImportant
  split <;> omega

theorem moreImportant_eq_or (a b : Tag) : moreImportant a b = a ∨ moreImportant a b = b := by
  unfold moreImportant
  split
  · exact .inr rfl
  · exact .inl rfl

theorem moreImportant_of_le {a b : Tag} (h : a.rank ≤ b.rank) : moreImportant a b = a :=
  if_neg (Nat.not_lt.mpr h)

theorem foldl_moreImportant_mem (ts : List Tag) (t : Tag) :
    ts.foldl moreImportant t ∈ t :: ts := by
  induction ts generalizing t with
  | nil => exact List.mem_cons_self
  | cons u ts ih =>
      rcases List.mem_cons.mp (ih (moreImportant t u)) with h | h
      · rw [List.foldl_cons, h]
        rcases moreImportant_eq_or t u with h | h <;> simp [h]
      · exact List.mem_cons_of_mem _ (List.mem_cons_of_mem _ h)

theorem rank_foldl_moreImportant_le (ts : List Tag) (t : Tag) :
    ∀ u ∈ t :: ts, (ts.foldl moreImportant t).rank ≤ u.rank := by
  induction ts generalizing t with
  | nil => exact List.forall_mem_singleton.mpr (Nat.le_refl _)
  | cons v ts ih =>
      have hrest := ih (moreImportant t v)
      have hhead := hrest _ List.mem_cons_self
      refine List.forall_mem_cons.mpr ⟨?_, List.forall_mem_cons.mpr ⟨?_, fun u hu => ?_⟩⟩
      · exact Nat.le_trans hhead (rank_moreImportant_le_left t v)
      · exact Nat.le_trans hhead (rank_moreImportant_le_right t v)
      · exact hrest u (List.mem_cons_of_mem _ hu)

theorem best?_mem {ts : List Tag} {t : Tag} (h : best? ts = some t) : t ∈ ts := by
  cases ts with
  | nil => cases h
  | cons u ts =>
      obtain rfl := Option.some.inj h
      exact foldl_moreImportant_mem ts u

/-- No tag of a list is more important than the best one. -/
theorem rank_best?_le {ts : List Tag} {t : Tag} (h : t ∈ ts) :
    ∃ m, best? ts = some m ∧ m.rank ≤ t.rank := by
  cases ts with
  | nil => cases h
  | cons u ts => exact ⟨_, rfl, rank_foldl_moreImportant_le ts u t h⟩

theorem moreImportant?_none (a : Option Tag) : moreImportant? a none = a := by
  cases a with
  | none => rfl
  | some a => rfl

theorem moreImportant?_eq_or (a b : Option Tag) :
    moreImportant? a b = a ∨ moreImportant? a b = b := by
  cases a with
  | none => exact .inr rfl
  | some a =>
      cases b with
      | none => exact .inl rfl
      | some b => exact (moreImportant_eq_or a b).imp (congrArg some) (congrArg some)

theorem rank_injective {a b : Tag} (h : a.rank = b.rank) : a = b := by
  have hall : ∀ t : Tag, all[t.rank]? = some t := fun t => by cases t <;> rfl
  have ha := hall a
  rw [h, hall b] at ha
  exact (Option.some.inj ha).symm

theorem best?_eq_none_iff {ts : List Tag} : best? ts = none ↔ ts = [] := by
  cases ts with
  | nil => exact iff_of_true rfl rfl
  | cons t ts => exact iff_of_false (fun h => nomatch h) (List.cons_ne_nil t ts)

/-- No two tags rank alike, so the best tag of a list is the only one that none of the others
surpasses. -/
theorem best?_eq_some_iff {ts : List Tag} {t : Tag} :
    best? ts = some t ↔ t ∈ ts ∧ ∀ u ∈ ts, t.rank ≤ u.rank := by
  constructor
  · intro h
    refine ⟨best?_mem h, fun u hu => ?_⟩
    obtain ⟨m, hm, hle⟩ := rank_best?_le hu
    obtain rfl := Option.some.inj (h.symm.trans hm)
    exact hle
  · intro ⟨hmem, hleast⟩
    obtain ⟨m, hm, hle⟩ := rank_best?_le hmem
    have hrank := Nat.le_antisymm (hleast m (best?_mem hm)) hle
    rw [hm, rank_injective hrank]

theorem best?_congr {ts us : List Tag} (h : ∀ t, t ∈ ts ↔ t ∈ us) : best? ts = best? us :=
  Option.ext fun t => by simp only [best?_eq_some_iff, h]

theorem best?_concat (ts : List Tag) (t : Tag) :
    best? (ts ++ [t]) = moreImportant? (best? ts) (some t) := by
  cases ts with
  | nil => rfl
  | cons u ts =>
      rw [List.cons_append, best?, List.foldl_append]
      rfl

theorem moreImportant?_best?_of_mem {ts : List Tag} {t : Tag} (h : t ∈ ts) :
    moreImportant? (best? ts) (some t) = best? ts := by
  obtain ⟨m, hm, hle⟩ := rank_best?_le h
  rw [hm]
  exact congrArg some (moreImportant_of_le hle)

end Tag

def Blame.name : Blame → String
  | user => "User"
  | infra => "Infra"

end BuildAnalysis
