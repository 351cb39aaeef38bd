import BuildAnalysis.Environment.FieldPattern.BracketClass
import BuildAnalysis.Text.Alphanumeric

/-!
# Field patterns

A log directive may ask for the value of a field: for a number, or for a match with a regular
expression. Here is which texts are one. Expressions have groups, alternatives, repetitions, bracket
classes and escapes; there are no tables of character classes beyond ASCII, so whatever needs one is
refused: shorthand classes, word boundaries and matching without regard to case, unless the
expression turns such characters off by itself.

A directive ends its fields at the first closing brace and its field's value at the first equals
sign, so counted repetitions, which need a brace, never close.

An expression may not nest too deep: groups, repetitions, brackets and operations on sets count one
level each, and so do branches and parts that do not stand alone.
-/
namespace BuildAnalysis.FieldPattern

/-! ## Expressions -/

structure Part where
  /-- How deep it nests. -/
  height : Nat := 0
  /-- Whether a repetition may apply to it. -/
  isRepeatable : Bool := true

structure Group where
  /-- The parts of the branch that is being read, the last first. -/
  parts : List Part := []
  /-- How deep the branches before it nest. -/
  branches : List Nat := []

namespace Group

def branchHeight (g : Group) : Nat := nesting (g.parts.map Part.height)

/-- How deep the branches of the group nest. -/
def height (g : Group) : Nat := nesting (g.branchHeight :: g.branches)

def add (g : Group) (p : Part) : Group := { g with parts := p :: g.parts }

def endBranch (g : Group) : Group := { parts := [], branches := g.branchHeight :: g.branches }

/-- Repeats the last part, if it may be repeated. -/
def repeat? (g : Group) : Option Group :=
  match g.parts with
  | p :: parts => if p.isRepeatable then some { g with parts := { height := p.height + 1 } :: parts } else none
  | [] => none

end Group

structure Reader where
  mode : Mode := {}
  group : Group := {}
  /-- The groups around the one that is being read and the modes to return to, innermost first. -/
  outer : List (Mode × Group) := []
  /-- The names given to groups. -/
  names : List (List Char) := []

namespace Reader

def add (r : Reader) (p : Part) : Reader := { r with group := r.group.add p }

def enter (r : Reader) (mode : Mode) : Reader :=
  { r with mode := mode, group := {}, outer := (r.mode, r.group) :: r.outer }

def leave? (r : Reader) : Option Reader :=
  match r.outer with
  | [] => none
  | (mode, around) :: outer =>
    some { r with mode := mode, group := around.add { height := r.group.height + 1 }, outer := outer }

def addName? (r : Reader) (name : List Char) : Option Reader :=
  match name with
  | [] => none
  | c :: cs =>
    if (c == '_' || Text.isAlphabetic c) &&
        cs.all (fun c => ['_', '.', '[', ']'].contains c || Text.isAlphanumeric c) &&
        !r.names.contains name then
      some { r with names := name :: r.names }
    else none

/-- Reads a group's name up to its closing bracket and goes into the group. -/
def readName (r : Reader) (cs : List Char) : Option (Reader × List Char) :=
  match cs.dropWhile (· != '>') with
  | _ :: rest => (r.addName? (cs.takeWhile (· != '>'))).map fun r => (r.enter r.mode, rest)
  | [] => none

/-- Reads what may follow an opening parenthesis: a name, or modes, which hold for a group of their
own or for the rest of the group they stand in. -/
def readOpening (r : Reader) (cs : List Char) : Option (Reader × List Char) :=
  match r.mode.skip cs with
  | '?' :: 'P' :: '<' :: rest => r.readName rest
  | '?' :: '<' :: rest => r.readName rest
  | '?' :: rest =>
    (r.mode.read [] rest).map fun (mode, isGroup, rest) =>
      (if isGroup then r.enter mode else { r.add { isRepeatable := false } with mode := mode }, rest)
  | rest => some (r.enter r.mode, rest)

/-- Repeats the last part. A question mark right after the sign of a repetition belongs to it. -/
def readRepetition (r : Reader) (rest : List Char) : Option (Reader × List Char) :=
  r.group.repeat?.map fun g =>
    ({ r with group := g }, if rest.head? = some '?' then rest.tail else rest)

def step (r : Reader) (c : Char) (rest : List Char) : Option (Reader × List Char) :=
  let passed (isAllowed : Bool) (rest : List Char) : Option (Reader × List Char) :=
    if isAllowed then some (r.add {}, rest) else none
  match c with
  | '(' => r.readOpening rest
  | ')' => r.leave?.map (·, rest)
  | '|' => some ({ r with group := r.group.endBranch }, rest)
  | '[' => (BracketClass.read r.mode rest).map fun c => (r.add { height := c.1 }, c.2)
  | '?' => r.readRepetition rest
  | '*' => r.readRepetition rest
  | '+' => r.readRepetition rest
  | '{' => none
  | '\\' => (Escape.read r.mode rest).bind fun e => passed (e.1.isAllowed r.mode) e.2
  | '.' => passed r.mode.wide rest
  | '^' => passed true rest
  | '$' => passed true rest
  | _ => passed r.mode.allowsLiteral rest

/-- Reads an expression to its end, where every group is closed: how deep it nests. -/
def read : (fuel : Nat) → Reader → List Char → Option Nat
  | 0, _, _ => none
  | fuel + 1, r, cs =>
    match r.mode.skip cs with
    | [] => if r.outer.isEmpty then some r.group.height else none
    | c :: rest => (r.step c rest).bind fun next => read fuel next.1 next.2

end Reader

def maxHeight : Nat := 250

/-- Whether a text is a regular expression that does not nest too deep. -/
def isExpression (cs : List Char) : Bool :=
  (Reader.read (cs.length + 1) {} cs).any (· ≤ maxHeight)

/-! ## Numbers -/

/-- Whether a text is a sign, if any, and a decimal number, possibly with a fraction and an exponent,
or one of the names of what is no finite number. -/
def isNumber (cs : List Char) : Bool :=
  let unsigned (cs : List Char) : List Char :=
    match cs with
    | '+' :: rest => rest
    | '-' :: rest => rest
    | cs => cs
  let body := unsigned cs
  let whole := body.takeWhile Char.isDigit
  let afterWhole := body.dropWhile Char.isDigit
  let fraction := if afterWhole.head? = some '.' then afterWhole.tail.takeWhile Char.isDigit else []
  let afterFraction :=
    if afterWhole.head? = some '.' then afterWhole.tail.dropWhile Char.isDigit else afterWhole
  let exponentOk :=
    match afterFraction with
    | [] => true
    | c :: rest => c.toLower == 'e' && !(unsigned rest).isEmpty && (unsigned rest).all Char.isDigit
  ["inf", "infinity", "nan"].contains (String.ofList (body.map Char.toLower)) ||
    (!(whole ++ fraction).isEmpty && exponentOk)

end FieldPattern

/-- Whether a field may be asked for a value. -/
def isFieldPattern (cs : List Char) : Bool := FieldPattern.isNumber cs || FieldPattern.isExpression cs

end BuildAnalysis
