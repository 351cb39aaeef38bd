import BuildAnalysis.Failure.Basic

/-!
# Attribute values

The value of an attribute once every condition is resolved. Lists, texts and dictionaries can be
concatenated with their own kind; nothing else can.
-/
namespace BuildAnalysis

inductive AttrValue where
  | none
  | bool (b : Bool)
  | text (s : String)
  | label (l : Label)
  | list (items : List AttrValue)
  | dict (entries : List (AttrValue × AttrValue))
  deriving Inhabited

namespace AttrValue

mutual

def beq : AttrValue → AttrValue → Bool
  | none, none => true
  | bool a, bool b => a == b
  | text a, text b => a == b
  | label a, label b => a == b
  | list xs, list ys => beqItems xs ys
  | dict xs, dict ys => beqEntries xs ys
  | _, _ => false

def beqItems : List AttrValue → List AttrValue → Bool
  | [], [] => true
  | x :: xs, y :: ys => beq x y && beqItems xs ys
  | _, _ => false

def beqEntries : List (AttrValue × AttrValue) → List (AttrValue × AttrValue) → Bool
  | [], [] => true
  | (k, v) :: xs, (l, w) :: ys => beq k l && beq v w && beqEntries xs ys
  | _, _ => false

end

mutual

theorem eq_of_beq : ∀ {a b : AttrValue}, beq a b = true → a = b
  | none, b, h => by cases b <;> simp_all [beq]
  | bool _, b, h => by cases b <;> simp_all [beq]
  | text _, b, h => by cases b <;> simp_all [beq]
  | label _, b, h => by cases b <;> simp_all [beq]
  | list xs, b, h => by
    cases b <;> simp only [beq, Bool.false_eq_true] at h
    rw [eq_of_beqItems h]
  | dict xs, b, h => by
    cases b <;> simp only [beq, Bool.false_eq_true] at h
    rw [eq_of_beqEntries h]

theorem eq_of_beqItems : ∀ {xs ys : List AttrValue}, beqItems xs ys = true → xs = ys
  | [], ys, h => by cases ys <;> simp_all [beqItems]
  | x :: xs, ys, h => by
    cases ys with
    | nil => simp [beqItems] at h
    | cons y ys =>
      simp only [beqItems, Bool.and_eq_true] at h
      rw [eq_of_beq h.1, eq_of_beqItems h.2]

theorem eq_of_beqEntries : ∀ {xs ys : List (AttrValue × AttrValue)},
    beqEntries xs ys = true → xs = ys
  | [], ys, h => by cases ys <;> simp_all [beqEntries]
  | (k, v) :: xs, ys, h => by
    cases ys with
    | nil => simp [beqEntries] at h
    | cons y ys =>
      obtain ⟨l, w⟩ := y
      simp only [beqEntries, Bool.and_eq_true] at h
      rw [eq_of_beq h.1.1, eq_of_beq h.1.2, eq_of_beqEntries h.2]

end

mutual

theorem beq_self : ∀ a : AttrValue, beq a a = true
  | none => rfl
  | bool _ => by simp [beq]
  | text _ => by simp [beq]
  | label _ => by simp [beq]
  | list xs => by rw [beq, beqItems_self xs]
  | dict xs => by rw [beq, beqEntries_self xs]

theorem beqItems_self : ∀ xs : List AttrValue, beqItems xs xs = true
  | [] => rfl
  | x :: xs => by rw [beqItems, beq_self x, beqItems_self xs]; rfl

theorem beqEntries_self : ∀ xs : List (AttrValue × AttrValue), beqEntries xs xs = true
  | [] => rfl
  | (k, v) :: xs => by rw [beqEntries, beq_self k, beq_self v, beqEntries_self xs]; rfl

end

instance : DecidableEq AttrValue := fun a b =>
  decidable_of_iff (beq a b = true) ⟨eq_of_beq, fun h => h ▸ beq_self a⟩

def kindName : AttrValue → String
  | none => "none"
  | bool _ => "bool"
  | text _ => "string"
  | label _ => "label"
  | list _ => "list"
  | dict _ => "dict"

mutual

def labels : AttrValue → List Label
  | label l => [l]
  | list items => labelsOfItems items
  | dict entries => labelsOfEntries entries
  | _ => []

def labelsOfItems : List AttrValue → List Label
  | [] => []
  | x :: xs => labels x ++ labelsOfItems xs

def labelsOfEntries : List (AttrValue × AttrValue) → List Label
  | [] => []
  | (k, v) :: es => labels k ++ labels v ++ labelsOfEntries es

end

mutual

def debugText : AttrValue → String
  | none => "None"
  | bool b => Text.applied "Bool" [if b then "true" else "false"]
  | text s => Text.applied "String" [Text.quote s]
  | label l => Text.applied "Label" [l.debugText]
  | list items => Text.applied "List" [Text.bracketed (debugTexts items)]
  | dict entries => Text.applied "Dict" [Text.bracketed (debugPairs entries)]

def debugTexts : List AttrValue → List String
  | [] => []
  | x :: xs => debugText x :: debugTexts xs

def debugPairs : List (AttrValue × AttrValue) → List String
  | [] => []
  | (k, v) :: es => Text.applied "" [debugText k, debugText v] :: debugPairs es

end

def asText? : AttrValue → Option String
  | text s => some s
  | _ => Option.none

def asLabel? : AttrValue → Option Label
  | label l => some l
  | _ => Option.none

def asDict? : AttrValue → Option (List (AttrValue × AttrValue))
  | dict entries => some entries
  | _ => Option.none

inductive ConcatError where
  | differentKinds (left right : String)
  | notConcatenable (kind : String)
  deriving DecidableEq

namespace ConcatError

def message : ConcatError → String
  | differentKinds left right =>
    s!"Cannot concatenate values of different types: `{left}` and `{right}`"
  | notConcatenable kind => s!"Cannot concatenate values of type `{kind}`"

def toFailure (e : ConcatError) : Failure := .new .input e.message

end ConcatError

def append : AttrValue → AttrValue → Except ConcatError AttrValue
  | list xs, list ys => .ok (list (xs ++ ys))
  | text s, text t => .ok (text (s ++ t))
  | dict es, dict fs => .ok (dict (es ++ fs))
  | a, b =>
    if a.kindName = b.kindName then .error (.notConcatenable a.kindName)
    else .error (.differentKinds a.kindName b.kindName)

/-- Appends results to a value, left to right; the first thing that goes wrong is the result. -/
def appendAll (acc : AttrValue) : List (Except Failure AttrValue) → Except Failure AttrValue
  | [] => .ok acc
  | r :: rs =>
    match r with
    | .error e => .error e
    | .ok v =>
      match acc.append v with
      | .ok acc => appendAll acc rs
      | .error e => .error e.toFailure

end AttrValue
end BuildAnalysis
