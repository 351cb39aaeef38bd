import BuildAnalysis.Failure.Tag
import BuildAnalysis.Text.Quoted

/-!
# Labels

A package is a path below the workspace root, written with two leading slashes. A target label is
a package and a name in it, written `//pkg:name`. The types carry what reading guarantees: only
label characters occur, a path does not end in a slash and a name is not empty.
-/
namespace BuildAnalysis

inductive LabelError where
  | missingSlashes (text : String)
  | emptyName (text : String)
  | invalidCharacter (text : String) (c : Char)
  deriving DecidableEq, Repr

namespace LabelError

def tag (_ : LabelError) : Tag := .input

def message : LabelError → String
  | missingSlashes text => s!"label `{text}` must start with `//`"
  | emptyName text => s!"label `{text}` has an empty target name"
  | invalidCharacter text c => s!"label `{text}` contains invalid character `{c}`"

def kindName : LabelError → String
  | missingSlashes _ => "MissingPrefix"
  | emptyName _ => "EmptyName"
  | invalidCharacter _ _ => "InvalidChar"

/-- What an error is about: the text that was read and the character in question. -/
def arguments : LabelError → List String
  | missingSlashes text | emptyName text => [text]
  | invalidCharacter text c => [text, c.toString]

end LabelError

def isLabelChar (c : Char) : Bool :=
  ('a' ≤ c && c ≤ 'z') || ('A' ≤ c && c ≤ 'Z') || ('0' ≤ c && c ≤ '9') ||
    c ∈ ['_', '-', '.', '+', '=', '@', '~', '/']

/-- What precedes and what follows the last occurrence of a character. -/
def splitLast (c : Char) : List Char → Option (List Char × List Char)
  | [] => none
  | x :: xs =>
    match splitLast c xs with
    | some (before, after) => some (x :: before, after)
    | none => if x = c then some ([], xs) else none

/-- What follows `start` in a list that starts with it. -/
def afterStart? : (start xs : List Char) → Option (List Char)
  | [], xs => some xs
  | _ :: _, [] => none
  | p :: ps, x :: xs => if p = x then afterStart? ps xs else none

/-- What precedes `ending` in a list that ends in it. -/
def beforeEnding? (ending xs : List Char) : Option (List Char) :=
  (afterStart? ending.reverse xs.reverse).map List.reverse

/-- A text without the slashes at its end. -/
def dropTrailingSlashes (cs : List Char) : List Char :=
  (cs.reverse.dropWhile (· == '/')).reverse

/-- A package path: label characters that do not end in a slash. The workspace root is the empty
path. -/
structure PackagePath where
  path : String
  valid : path.toList.all isLabelChar = true
  trimmed : path.toList.getLast? ≠ some '/'
  deriving DecidableEq

namespace PackagePath

def chars (p : PackagePath) : List Char := p.path.toList

def root : PackagePath := ⟨"", rfl, by decide⟩

instance : Inhabited PackagePath := ⟨root⟩
instance : Ord PackagePath := ⟨fun p q => compare p.path q.path⟩
instance : ToString PackagePath := ⟨fun p => "//" ++ p.path⟩

def debugText (p : PackagePath) : String := Text.applied "PackageLabel" [Text.quote p.path]

theorem dropTrailingSlashes_trimmed (cs : List Char) :
    (dropTrailingSlashes cs).getLast? ≠ some '/' := by
  simp only [dropTrailingSlashes, List.getLast?_reverse]
  intro h
  have := List.head?_dropWhile_not (· == '/') cs.reverse
  rw [h] at this
  simp at this

/-- Reads `//foo/bar`; slashes at the end are dropped. -/
def parse (text : String) : Except LabelError PackagePath :=
  match text.toList with
  | '/' :: '/' :: rest =>
    let cs := dropTrailingSlashes rest
    if h : cs.all isLabelChar = true then
      .ok ⟨String.ofList cs, by rwa [String.toList_ofList],
        by rw [String.toList_ofList]; exact dropTrailingSlashes_trimmed rest⟩
    else
      .error (.invalidCharacter text ((cs.find? fun c => !isLabelChar c).getD '/'))
  | _ => .error (.missingSlashes text)

/-- Whether `q` is `p` or lies below it. -/
def isBelow (q p : PackagePath) : Bool :=
  p.path.isEmpty ||
    match afterStart? p.chars q.chars with
    | some [] => true
    | some (c :: _) => c == '/'
    | none => false

def lastComponent (p : PackagePath) : List Char :=
  match splitLast '/' p.chars with
  | some (_, last) => last
  | none => p.chars

end PackagePath

structure TargetName where
  text : String
  valid : text.toList.all isLabelChar = true
  nonempty : text ≠ ""
  deriving DecidableEq

namespace TargetName

instance : Ord TargetName := ⟨fun p q => compare p.text q.text⟩
instance : ToString TargetName := ⟨TargetName.text⟩

def debugText (n : TargetName) : String := Text.applied "TargetName" [Text.quote n.text]

/-- A name made of the given characters; errors quote `whole`, the text it was cut from. -/
def ofChars (whole : String) (cs : List Char) : Except LabelError TargetName :=
  if hn : cs = [] then
    .error (.emptyName whole)
  else if hv : cs.all isLabelChar = true then
    .ok ⟨String.ofList cs, by rwa [String.toList_ofList], by
      intro h
      have := congrArg String.toList h
      rw [String.toList_ofList] at this
      exact hn this⟩
  else
    .error (.invalidCharacter whole ((cs.find? fun c => !isLabelChar c).getD '/'))

def parse (text : String) : Except LabelError TargetName := ofChars text text.toList

end TargetName

structure Label where
  package : PackagePath
  name : TargetName
  deriving DecidableEq

namespace Label

instance : ToString Label := ⟨fun l => s!"{l.package}:{l.name}"⟩

/-- By package, then by name. -/
instance : Ord Label :=
  ⟨compareLex (compareOn fun l => l.package.path) (compareOn fun l => l.name.text)⟩

instance : Std.TransOrd Label :=
  inferInstanceAs (Std.TransCmp
    (compareLex (compareOn fun l : Label => l.package.path) (compareOn fun l => l.name.text)))

instance : Std.LawfulEqOrd Label where
  compare_self := by intro a; exact Std.ReflCmp.compare_self
  eq_of_compare := by
    intro a b h
    simp only [compare, compareLex, compareOn, Ordering.then_eq_eq] at h
    obtain ⟨⟨p, _, _⟩, ⟨n, _, _⟩⟩ := a
    obtain ⟨⟨q, _, _⟩, ⟨m, _, _⟩⟩ := b
    have hp : p = q := Std.LawfulEqOrd.eq_of_compare h.1
    have hn : n = m := Std.LawfulEqOrd.eq_of_compare h.2
    subst hp
    subst hn
    rfl

def debugText (l : Label) : String :=
  Text.record "TargetLabel" [("pkg", l.package.debugText), ("name", l.name.debugText)]

/-- Reads `//pkg:name`, or `//pkg` as shorthand for the target of `pkg` that is named like its last
component. -/
def parse (text : String) : Except LabelError Label :=
  match splitLast ':' text.toList with
  | some (pkg, name) => do
    let p ← PackagePath.parse (String.ofList pkg)
    let n ← TargetName.ofChars text name
    return ⟨p, n⟩
  | none => do
    let p ← PackagePath.parse text
    let n ← TargetName.ofChars text p.lastComponent
    return ⟨p, n⟩

end Label

instance : Std.TransOrd PackagePath :=
  inferInstanceAs (Std.TransCmp (compareOn PackagePath.path))

end BuildAnalysis
