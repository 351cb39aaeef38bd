/-!
# Lists that remember when an item was first added

A listing is a list without repetition to which items are added at the end. A keyed listing holds
pairs; a key that is put again keeps the place of its first arrival and takes the later value.
-/
namespace BuildAnalysis.Listing

universe u v
variable {α : Type u} {β : Type v} [DecidableEq α]

def add (xs : List α) (x : α) : List α := if x ∈ xs then xs else xs ++ [x]

def addAll (xs ys : List α) : List α := ys.foldl add xs

def distinct (xs : List α) : List α := addAll [] xs

def firstRepeated? (seen : List α) : List α → Option α
  | [] => none
  | x :: xs => if x ∈ seen then some x else firstRepeated? (seen ++ [x]) xs

/-- Sets the value of a key: in its place if the key is there, else at the end. -/
def put (k : α) (v : β) : List (α × β) → List (α × β)
  | [] => [(k, v)]
  | e :: es => if e.1 = k then (k, v) :: es else e :: put k v es

/-- The keyed listing made by putting the entries one after the other. -/
def ofEntries (es : List (α × β)) : List (α × β) := es.foldl (fun m e => put e.1 e.2 m) []

def find? (k : α) : List (α × β) → Option β
  | [] => none
  | e :: es => if e.1 = k then some e.2 else find? k es

/-- Whether two keyed listings hold the same entries, in whatever order, values being compared by
`same`. -/
def sameEntries (same : β → β → Bool) (xs ys : List (α × β)) : Bool :=
  xs.length == ys.length && xs.all fun e =>
    match find? e.1 ys with
    | some v => same e.2 v
    | none => false

end BuildAnalysis.Listing
