import BuildAnalysis.Failure.Cause

/-!
# Failures

A failure is a root (what went wrong, under which tag, and the typed error behind it, if any) under
a stack of context: texts, which are shown, and tags, which only classify. Adding context never
changes the root.
-/
namespace BuildAnalysis

/-- The typed error a failure was made from. -/
inductive Failure.Detail where
  | label (e : LabelError)
  | target (e : TargetFailure)
  /-- An error of another kind, as the texts of its chain of sources, outermost first. -/
  | chain (texts : List String)
  deriving DecidableEq

/-- What went wrong first. `origin` is the identity of the place: copies of a failure share it. -/
structure Failure.Root where
  description : String
  tag : Tag
  detail : Option Failure.Detail
  origin : Nat
  deriving DecidableEq

inductive Failure.Context where
  | text (s : String)
  | tags (ts : List Tag)
  deriving DecidableEq

structure Failure where
  root : Failure.Root
  /-- Last added first. -/
  context : List Failure.Context
  deriving DecidableEq

namespace Failure

def tagsText (ts : List Tag) : String := Text.bracketed (ts.map Tag.name)

/-- The text of a piece of context, the same in display and diagnostic form. -/
def Context.toText : Context → String
  | text s => s
  | tags ts => tagsText ts

def new (tag : Tag) (description : String) : Failure := ⟨⟨description, tag, none, 0⟩, []⟩

def internal (description : String) : Failure :=
  new .internalError (description ++ " (internal error)")

def ofLabelError (e : LabelError) : Failure := ⟨⟨e.message, e.tag, some (.label e), 0⟩, []⟩

def ofTargetFailure (e : TargetFailure) : Failure := ⟨⟨e.message, e.tag, some (.target e), 0⟩, []⟩

/-- A failure made from an error of another kind, given by the texts of its chain. -/
def ofChain (tag : Tag) (texts : List String) : Failure :=
  ⟨⟨texts.headD "", tag, some (.chain texts), 0⟩, []⟩

/-- A failure that keeps only the texts of a chain, outermost first, in its description. -/
def ofFlattened (tag : Tag) (texts : List String) : Failure := new tag (": ".intercalate texts)

/-- The same failure under another identity. -/
def withOrigin (f : Failure) (origin : Nat) : Failure :=
  { f with root := { f.root with origin := origin } }

def addContext (f : Failure) (c : Context) : Failure := { f with context := c :: f.context }

def within (f : Failure) (s : String) : Failure := f.addContext (.text s)

def addTags (f : Failure) (ts : List Tag) : Failure :=
  if ts.isEmpty then f else f.addContext (.tags ts)

/-- Declares the failure a broken invariant. -/
def asInternal (f : Failure) (s : String) : Failure :=
  (f.within (s ++ " (internal error)")).addTags [.internalError]

/-- The tags of a piece of context. -/
def Context.tagList : Context → List Tag
  | text _ => []
  | tags ts => ts

/-- The text of a piece of context that is shown. -/
def Context.shown? : Context → Option String
  | text s => some s
  | tags _ => none

/-- All tags, that of the root first, then in the order they were added, each once. -/
def tags (f : Failure) : List Tag :=
  Listing.addAll [f.root.tag] (f.context.reverse.flatMap Context.tagList)

def bestTag (f : Failure) : Tag := (Tag.best? f.tags).getD f.root.tag

def blame (f : Failure) : Blame := f.bestTag.blame

def isInternal (f : Failure) : Bool := f.tags.contains .internalError

def description (f : Failure) : String := f.root.description

def texts (f : Failure) : List String := f.context.filterMap Context.shown? ++ [f.description]

/-- The text shown by itself: the last added one. -/
def message (f : Failure) : String := f.texts.headD ""

/-- Numbered lines, counted from `n`. -/
def numbered : Nat → List String → String
  | _, [] => ""
  | n, s :: ss => s!"\n    {n}: {s}" ++ numbered (n + 1) ss

/-- The message with all that it covers. -/
def fullText (f : Failure) : String :=
  match f.texts with
  | [] => ""
  | [s] => s
  | s :: ss => s ++ "\n\nCaused by:" ++ numbered 0 ss

/-- The diagnostic form: the full text and the tags. -/
def debugText (f : Failure) : String := f.fullText ++ "\n\nTags: " ++ tagsText f.tags

/-- The failure of a target behind a failure. -/
def targetFailure? (f : Failure) : Option TargetFailure :=
  match f.root.detail with
  | some (.target e) => some e
  | _ => none

def labelError? (f : Failure) : Option LabelError :=
  match f.root.detail with
  | some (.label e) => some e
  | _ => none

/-- The texts of the chain behind a failure made from an error of another kind. -/
def chainTexts (f : Failure) : List String :=
  match f.root.detail with
  | some (.chain texts) => texts
  | _ => []

/-- The failure of a target behind `f`; failures of another kind are attributed to `label`. -/
def toTargetFailure (f : Failure) (label : Label) (configuration : Option ConfigurationKey) :
    TargetFailure :=
  f.targetFailure?.getD (.ofTarget label configuration f.bestTag f.fullText)

/-- An absent value explained by a piece of context. -/
def absent (c : Context) : Failure := new .input c.toText

/-- An absent value known only by its tag. -/
def absentTagged (tag : Tag) : Failure := new tag "missing value"

end Failure
end BuildAnalysis
