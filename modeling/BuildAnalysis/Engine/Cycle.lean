import BuildAnalysis.Collection.Listing

/-!
# Cycles among waiting keys

A waiting list says for each suspended key which keys it asked for. A depth-first walk from each
waiting key in turn finds the first cycle, listed from the key that is reached twice.
-/
namespace BuildAnalysis.Engine.Cycle

variable {K : Type} [DecidableEq K]

/-- The waiting keys that are not on the path. -/
def offPath (waiting : List (K × List K)) (path : List K) : List (K × List K) :=
  waiting.filter fun e => !(path.contains e.1)

theorem length_offPath_lt {waiting : List (K × List K)} {path : List K} {k : K} {next : List K}
    (hk : Listing.find? k waiting = some next) (hp : ¬ k ∈ path) :
    (offPath waiting (path ++ [k])).length < (offPath waiting path).length := by
  have mono : ∀ es : List (K × List K),
      (offPath es (path ++ [k])).length ≤ (offPath es path).length := by
    intro es
    induction es with
    | nil => simp [offPath]
    | cons e es ih =>
      simp only [offPath, List.filter_cons, List.contains_eq_mem, List.mem_append,
        List.mem_singleton] at ih ⊢
      by_cases h₁ : e.1 ∈ path <;> by_cases h₂ : e.1 = k <;> simp_all
      omega
  induction waiting with
  | nil => simp [Listing.find?] at hk
  | cons e es ih =>
    by_cases h : e.1 = k
    · have := mono es
      simp only [offPath, List.filter_cons, List.contains_eq_mem, List.mem_append,
        List.mem_singleton, h, hp] at this ⊢
      simp
      simp at this
      omega
    · have hes : Listing.find? k es = some next := by simpa [Listing.find?, h] using hk
      have := ih hes
      simp only [offPath, List.filter_cons, List.contains_eq_mem, List.mem_append,
        List.mem_singleton, h] at this ⊢
      by_cases h₁ : e.1 ∈ path <;> simp_all

/-- Walks the keys of a list, each of which is asked for at the end of the path. Keys that are
`done` lead to no cycle; the result is a cycle or the keys that are done afterwards. -/
def walk (waiting : List (K × List K)) (path : List K) (keys done : List K) :
    Except (List K) (List K) :=
  match keys with
  | [] => .ok done
  | k :: ks =>
    if _hp : k ∈ path then .error (path.dropWhile fun x => x ≠ k)
    else if k ∈ done then walk waiting path ks done
    else
      match _hk : Listing.find? k waiting with
      | none => walk waiting path ks (done ++ [k])
      | some next =>
        match walk waiting (path ++ [k]) next done with
        | .error cycle => .error cycle
        | .ok done => walk waiting path ks (done ++ [k])
termination_by ((offPath waiting path).length, keys.length)
decreasing_by
  · exact Prod.Lex.right _ (by simp)
  · exact Prod.Lex.right _ (by simp)
  · exact Prod.Lex.left _ _ (length_offPath_lt _hk _hp)
  · exact Prod.Lex.right _ (by simp)

/-- The first cycle that a walk from the waiting keys in order meets. -/
def first? (waiting : List (K × List K)) : Option (List K) :=
  match walk waiting [] (waiting.map Prod.fst) [] with
  | .error cycle => some cycle
  | .ok _ => none

end BuildAnalysis.Engine.Cycle
