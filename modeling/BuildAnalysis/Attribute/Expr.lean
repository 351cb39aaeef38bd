import BuildAnalysis.Attribute.Value
import BuildAnalysis.Configuration.Settings

/-!
# Attribute expressions

An attribute as a package writes it: a value that may choose among branches by condition and may be
put together by concatenation. `configure` resolves it where conditions are known. Of several
conditions that match, the one that refines all others decides; without one the choice is
ambiguous.
-/
namespace BuildAnalysis

inductive AttrExpr where
  | none
  | bool (b : Bool)
  | text (s : String)
  | label (l : Label)
  | list (items : List AttrExpr)
  | dict (entries : List (AttrExpr × AttrExpr))
  /-- The value of the branch whose condition holds, else the fallback. -/
  | select (branches : List (Label × AttrExpr)) (fallback : Option AttrExpr)
  | concat (items : List AttrExpr)
  deriving Inhabited

inductive SelectError where
  | noMatch (configuration : String) (keys : List Label)
  | ambiguous (first second : Label)
  | emptyConcat
  | repeatedKey (key : Label)
  deriving DecidableEq

namespace SelectError

def tag : SelectError → Tag
  | emptyConcat => .internalError
  | _ => .configCondition

def message : SelectError → String
  | noMatch configuration keys =>
    s!"None of {keys.length} conditions matched configuration `{configuration}` and no default was set:\n" ++
      "\n".intercalate (keys.map fun k => s!"  {k}")
  | ambiguous first second =>
    s!"Both select keys `{first}` and `{second}` match the configuration, but neither is more specific"
  | emptyConcat => "concat with no items (internal error)"
  | repeatedKey key => s!"duplicate key `{key}` in `select()`"

def toFailure (e : SelectError) : Failure := .new e.tag e.message

end SelectError

/-- Where expressions are resolved: a configuration, and for each condition its settings if it
matches there. -/
structure ConditionContext where
  configuration : Configuration
  matching : Label → Except Failure (Option Settings)

/-- The context of a configuration in which exactly the listed conditions exist; the last entry of a
condition counts. -/
def ConditionContext.ofSettings (c : Configuration) (conditions : List (Label × Settings)) :
    ConditionContext :=
  ⟨c, fun l =>
    match Listing.find? l (Listing.ofEntries conditions) with
    | some s => .ok (if s.isMet c.options then some s else none)
    | none => .error (.internal s!"no condition `{l}`")⟩

structure Candidate (α : Type) where
  key : Label
  settings : Settings
  value : α

/-- The better of the best candidate so far and one more branch. -/
def ConditionContext.prefer {α : Type} (ctx : ConditionContext) (best : Option (Candidate α))
    (branch : Label × α) : Except Failure (Option (Candidate α)) :=
  match ctx.matching branch.1 with
  | .error e => .error e
  | .ok none => .ok best
  | .ok (some s) =>
    match best with
    | none => .ok (some ⟨branch.1, s, branch.2⟩)
    | some b =>
      if s.refines b.settings then .ok (some ⟨branch.1, s, branch.2⟩)
      else if b.settings.refines s then .ok (some b)
      else .error (SelectError.ambiguous b.key branch.1).toFailure

/-- The value of the branch whose condition matches and refines every other matching one. -/
def ConditionContext.mostSpecific {α : Type} (ctx : ConditionContext)
    (branches : List (Label × α)) : Except Failure (Option α) :=
  match branches.foldlM ctx.prefer none with
  | .error e => .error e
  | .ok best => .ok (best.map Candidate.value)

def sequence {ε α : Type} : List (Except ε α) → Except ε (List α)
  | [] => .ok []
  | r :: rs =>
    match r with
    | .error e => .error e
    | .ok a =>
      match sequence rs with
      | .error e => .error e
      | .ok as => .ok (a :: as)

namespace AttrExpr

def mkSelect (branches : List (Label × AttrExpr)) (fallback : Option AttrExpr) :
    Except SelectError AttrExpr :=
  match Listing.firstRepeated? [] (branches.map Prod.fst) with
  | some key => .error (.repeatedKey key)
  | Option.none => .ok (select branches fallback)

def labelList (ls : List Label) : AttrExpr := list (ls.map label)

mutual

def configure (ctx : ConditionContext) : AttrExpr → Except Failure AttrValue
  | none => .ok .none
  | bool b => .ok (.bool b)
  | text s => .ok (.text s)
  | label l => .ok (.label l)
  | list items =>
    match sequence (configureItems ctx items) with
    | .error e => .error e
    | .ok values => .ok (.list values)
  | dict entries =>
    match sequence (configureEntries ctx entries) with
    | .error e => .error e
    | .ok values => .ok (.dict values)
  | select branches fallback =>
    match ctx.mostSpecific (configureBranches ctx branches) with
    | .error e => .error e
    | .ok (some value) => value
    | .ok Option.none =>
      match configureFallback ctx fallback with
      | some value => value
      | Option.none =>
        .error (SelectError.noMatch (toString ctx.configuration)
          (branches.map Prod.fst)).toFailure
  | concat items =>
    match configureItems ctx items with
    | [] => .error SelectError.emptyConcat.toFailure
    | .error e :: _ => .error e
    | .ok value :: values => value.appendAll values

def configureItems (ctx : ConditionContext) : List AttrExpr → List (Except Failure AttrValue)
  | [] => []
  | x :: xs => configure ctx x :: configureItems ctx xs

def configureEntries (ctx : ConditionContext) :
    List (AttrExpr × AttrExpr) → List (Except Failure (AttrValue × AttrValue))
  | [] => []
  | (k, v) :: es =>
    (match configure ctx k with
      | .error e => .error e
      | .ok k =>
        match configure ctx v with
        | .error e => .error e
        | .ok v => .ok (k, v)) :: configureEntries ctx es

def configureBranches (ctx : ConditionContext) :
    List (Label × AttrExpr) → List (Label × Except Failure AttrValue)
  | [] => []
  | (k, v) :: bs => (k, configure ctx v) :: configureBranches ctx bs

def configureFallback (ctx : ConditionContext) :
    Option AttrExpr → Option (Except Failure AttrValue)
  | Option.none => Option.none
  | some x => some (configure ctx x)

end

mutual

/-- The conditions that the expression consults, as often as they are written. -/
def keyOccurrences : AttrExpr → List Label
  | list items => keysOfItems items
  | concat items => keysOfItems items
  | dict entries => keysOfEntries entries
  | select branches fallback => keysOfBranches branches ++ keysOfFallback fallback
  | _ => []

def keysOfItems : List AttrExpr → List Label
  | [] => []
  | x :: xs => keyOccurrences x ++ keysOfItems xs

def keysOfEntries : List (AttrExpr × AttrExpr) → List Label
  | [] => []
  | (k, v) :: es => keyOccurrences k ++ keyOccurrences v ++ keysOfEntries es

def keysOfBranches : List (Label × AttrExpr) → List Label
  | [] => []
  | (k, v) :: bs => k :: (keyOccurrences v ++ keysOfBranches bs)

def keysOfFallback : Option AttrExpr → List Label
  | Option.none => []
  | some x => keyOccurrences x

end

mutual

/-- The labels in any branch of the expression, conditions excepted, as often as they are written. -/
def labelOccurrences : AttrExpr → List Label
  | label l => [l]
  | list items => labelsOfItems items
  | concat items => labelsOfItems items
  | dict entries => labelsOfEntries entries
  | select branches fallback => labelsOfBranches branches ++ labelsOfFallback fallback
  | _ => []

def labelsOfItems : List AttrExpr → List Label
  | [] => []
  | x :: xs => labelOccurrences x ++ labelsOfItems xs

def labelsOfEntries : List (AttrExpr × AttrExpr) → List Label
  | [] => []
  | (k, v) :: es => labelOccurrences k ++ labelOccurrences v ++ labelsOfEntries es

def labelsOfBranches : List (Label × AttrExpr) → List Label
  | [] => []
  | (_, v) :: bs => labelOccurrences v ++ labelsOfBranches bs

def labelsOfFallback : Option AttrExpr → List Label
  | Option.none => []
  | some x => labelOccurrences x

end

/-- Adds the conditions of the expression to a listing, each once and in order of first use. -/
def selectKeys (e : AttrExpr) (known : List Label) : List Label :=
  Listing.addAll known e.keyOccurrences

/-- Adds the labels of every branch to a listing, each once and in order of first use. -/
def allLabels (e : AttrExpr) (known : List Label) : List Label :=
  Listing.addAll known e.labelOccurrences

mutual

/-- The value of an expression that needs no context: one without choices and concatenations. -/
def unconfigured? : AttrExpr → Option AttrValue
  | none => some .none
  | bool b => some (.bool b)
  | text s => some (.text s)
  | label l => some (.label l)
  | list items => (unconfiguredItems? items).map .list
  | dict entries => (unconfiguredEntries? entries).map .dict
  | select _ _ => Option.none
  | concat _ => Option.none

def unconfiguredItems? : List AttrExpr → Option (List AttrValue)
  | [] => some []
  | x :: xs =>
    match unconfigured? x, unconfiguredItems? xs with
    | some v, some vs => some (v :: vs)
    | _, _ => Option.none

def unconfiguredEntries? :
    List (AttrExpr × AttrExpr) → Option (List (AttrValue × AttrValue))
  | [] => some []
  | (k, v) :: es =>
    match unconfigured? k, unconfigured? v, unconfiguredEntries? es with
    | some k, some v, some es => some ((k, v) :: es)
    | _, _, _ => Option.none

end

mutual

def beq : AttrExpr → AttrExpr → Bool
  | none, none => true
  | bool a, bool b => a == b
  | text a, text b => a == b
  | label a, label b => a == b
  | list xs, list ys => beqItems xs ys
  | dict xs, dict ys => beqEntries xs ys
  | select xs x, select ys y => beqBranches xs ys && beqFallback x y
  | concat xs, concat ys => beqItems xs ys
  | _, _ => false
termination_by structural x => x

def beqItems : List AttrExpr → List AttrExpr → Bool
  | [], [] => true
  | x :: xs, y :: ys => beq x y && beqItems xs ys
  | _, _ => false
termination_by structural x => x

def beqEntries : List (AttrExpr × AttrExpr) → List (AttrExpr × AttrExpr) → Bool
  | [], [] => true
  | (k, v) :: xs, (l, w) :: ys => beq k l && beq v w && beqEntries xs ys
  | _, _ => false
termination_by structural x => x

def beqBranches : List (Label × AttrExpr) → List (Label × AttrExpr) → Bool
  | [], [] => true
  | (k, v) :: xs, (l, w) :: ys => k == l && beq v w && beqBranches xs ys
  | _, _ => false
termination_by structural x => x

def beqFallback : Option AttrExpr → Option AttrExpr → Bool
  | Option.none, Option.none => true
  | some x, some y => beq x y
  | _, _ => false
termination_by structural x => x

end

mutual

theorem eq_of_beq : ∀ {a b : AttrExpr}, beq a b = true → a = b
  | none, b, h => by cases b <;> simp_all [beq]
  | bool _, b, h => by cases b <;> simp_all [beq]
  | text _, b, h => by cases b <;> simp_all [beq]
  | label _, b, h => by cases b <;> simp_all [beq]
  | list xs, b, h => by
    cases b <;> simp only [beq, Bool.false_eq_true] at h
    rw [eq_of_beqItems h]
  | dict xs, b, h => by
    cases b <;> simp only [beq, Bool.false_eq_true] at h
    rw [eq_of_beqEntries h]
  | select xs x, b, h => by
    cases b <;> simp only [beq, Bool.false_eq_true, Bool.and_eq_true] at h
    rw [eq_of_beqBranches h.1, eq_of_beqFallback h.2]
  | concat xs, b, h => by
    cases b <;> simp only [beq, Bool.false_eq_true] at h
    rw [eq_of_beqItems h]

theorem eq_of_beqItems : ∀ {xs ys : List AttrExpr}, beqItems xs ys = true → xs = ys
  | [], ys, h => by cases ys <;> simp_all [beqItems]
  | x :: xs, ys, h => by
    cases ys with
    | nil => simp [beqItems] at h
    | cons y ys =>
      simp only [beqItems, Bool.and_eq_true] at h
      rw [eq_of_beq h.1, eq_of_beqItems h.2]

theorem eq_of_beqEntries : ∀ {xs ys : List (AttrExpr × AttrExpr)},
    beqEntries xs ys = true → xs = ys
  | [], ys, h => by cases ys <;> simp_all [beqEntries]
  | (k, v) :: xs, ys, h => by
    cases ys with
    | nil => simp [beqEntries] at h
    | cons y ys =>
      obtain ⟨l, w⟩ := y
      simp only [beqEntries, Bool.and_eq_true] at h
      rw [eq_of_beq h.1.1, eq_of_beq h.1.2, eq_of_beqEntries h.2]

theorem eq_of_beqBranches : ∀ {xs ys : List (Label × AttrExpr)},
    beqBranches xs ys = true → xs = ys
  | [], ys, h => by cases ys <;> simp_all [beqBranches]
  | (k, v) :: xs, ys, h => by
    cases ys with
    | nil => simp [beqBranches] at h
    | cons y ys =>
      obtain ⟨l, w⟩ := y
      simp only [beqBranches, Bool.and_eq_true, beq_iff_eq] at h
      rw [h.1.1, eq_of_beq h.1.2, eq_of_beqBranches h.2]

theorem eq_of_beqFallback : ∀ {x y : Option AttrExpr}, beqFallback x y = true → x = y
  | Option.none, y, h => by cases y <;> simp_all [beqFallback]
  | some x, y, h => by
    cases y with
    | none => simp [beqFallback] at h
    | some y =>
      simp only [beqFallback] at h
      rw [eq_of_beq h]

end

mutual

theorem beq_self : ∀ a : AttrExpr, beq a a = true
  | none => rfl
  | bool _ => by simp [beq]
  | text _ => by simp [beq]
  | label _ => by simp [beq]
  | list xs => by rw [beq, beqItems_self xs]
  | dict xs => by rw [beq, beqEntries_self xs]
  | select xs x => by rw [beq, beqBranches_self xs, beqFallback_self x]; rfl
  | concat xs => by rw [beq, beqItems_self xs]

theorem beqItems_self : ∀ xs : List AttrExpr, beqItems xs xs = true
  | [] => rfl
  | x :: xs => by rw [beqItems, beq_self x, beqItems_self xs]; rfl

theorem beqEntries_self : ∀ xs : List (AttrExpr × AttrExpr), beqEntries xs xs = true
  | [] => rfl
  | (k, v) :: xs => by rw [beqEntries, beq_self k, beq_self v, beqEntries_self xs]; rfl

theorem beqBranches_self : ∀ xs : List (Label × AttrExpr), beqBranches xs xs = true
  | [] => rfl
  | (k, v) :: xs => by rw [beqBranches, beq_self v, beqBranches_self xs]; simp

theorem beqFallback_self : ∀ x : Option AttrExpr, beqFallback x x = true
  | Option.none => rfl
  | some x => by rw [beqFallback, beq_self x]

end

instance : DecidableEq AttrExpr := fun a b =>
  decidable_of_iff (beq a b = true) ⟨eq_of_beq, fun h => h ▸ beq_self a⟩

end AttrExpr
end BuildAnalysis
