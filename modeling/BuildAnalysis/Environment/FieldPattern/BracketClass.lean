import BuildAnalysis.Environment.FieldPattern.Part

/-!
# Bracket classes

Sets of characters between brackets: their members are characters, ranges, named classes and further
brackets, and sets may be met, taken away or compared with the signs `&&`, `--` and `~~`, from left to
right.
-/
namespace BuildAnalysis.FieldPattern.BracketClass

/-- The classes that may be named inside brackets. -/
def names : List String :=
  ["alnum", "alpha", "ascii", "blank", "cntrl", "digit", "graph", "lower", "print", "punct", "space",
    "upper", "word", "xdigit"]

/-- Reads a named class after its opening bracket: whether it is a complement, and the rest. -/
def readNamed : List Char → Option (Bool × List Char)
  | ':' :: rest =>
    let complement := rest.head? = some '^'
    let body := if complement then rest.tail else rest
    if names.contains (String.ofList (body.takeWhile (· != ':'))) then
      match body.dropWhile (· != ':') with
      | ':' :: ']' :: after => some (complement, after)
      | _ => none
    else none
  | _ => none

def readMember (m : Mode) : List Char → Option (Escape × List Char)
  | [] => none
  | '\\' :: rest => Escape.read m rest
  | c :: rest => some (.literal c, rest)

/-- Whether a member may stand in brackets. -/
def allowsMember (m : Mode) : Escape → Bool
  | .literal c => m.allowsLiteral && (m.wide || c.toNat < 0x80)
  | .octet c => m.allowsLiteral && (m.wide || c.toNat < 0x80)
  | .shorthand complement => !m.wide && !complement
  | .boundary => false
  | .anchor => false

def character? : Escape → Option Char
  | .literal c => some c
  | .octet c => some c
  | _ => none

/-- What decides whether a minus sign before it makes a range: the next character, blanks and the sign
of a comment aside. -/
def afterMinus? (m : Mode) (cs : List Char) : Option Char :=
  if m.spaced then
    match cs.dropWhile Text.isBlank with
    | '#' :: rest => (rest.dropWhile Text.isBlank).head?
    | rest => rest.head?
  else cs.head?

/-- Reads a member or a range of characters. -/
def readRange (m : Mode) (cs : List Char) : Option (List Char) := do
  let (low, rest) ← readMember m cs
  guard (allowsMember m low)
  match m.skip rest with
  | [] => none
  | '-' :: more =>
    if (afterMinus? m more).any fun c => c == ']' || c == '-' then some rest
    else
      let (high, after) ← readMember m (m.skip more)
      guard (allowsMember m high)
      let first ← character? low
      let last ← character? high
      if first ≤ last then some after else none
  | _ => some rest

structure Open where
  /-- How deep the members since the last operation nest. -/
  members : List Nat := []
  /-- How deep what stands on the left of that operation nests. -/
  operand : Option Nat := none

namespace Open

/-- How deep all that was read so far nests. An operation is one level above its operands. -/
def height (o : Open) : Nat :=
  match o.operand with
  | none => nesting o.members
  | some left => nesting [left, nesting o.members]

def add (o : Open) (height : Nat) : Open := { o with members := height :: o.members }

def operate (o : Open) : Open := { members := [], operand := some o.height }

end Open

/-- Counts the minus signs that stand for themselves, skipping what the mode skips. -/
def readMinuses (m : Mode) : (inComment : Bool) → List Char → Nat × List Char
  | _, [] => (0, [])
  | true, c :: cs => readMinuses m (c != '\n') cs
  | false, c :: cs =>
    if c == '-' then ((readMinuses m false cs).1 + 1, (readMinuses m false cs).2)
    else if m.spaced && c == '#' then readMinuses m true cs
    else if m.spaced && Text.isBlank c then readMinuses m false cs
    else (0, c :: cs)

/-- Reads what may follow an opening bracket: a complement sign, and minus signs or a closing bracket
that stand for themselves. -/
def readOpening (m : Mode) (cs : List Char) : Option (Open × List Char) :=
  let cs := m.skip cs
  let complement := cs.head? = some '^'
  let cs := if complement then m.skip cs.tail else cs
  let minuses := readMinuses m false cs
  if complement && !m.wide then none
  else if minuses.1 > 0 then
    if m.allowsLiteral then some ({ members := .replicate minuses.1 0 }, minuses.2) else none
  else if cs.head? = some ']' then
    if m.allowsLiteral then some ({ members := [0] }, cs.tail) else none
  else some ({}, cs)

/-- Reads members up to the end of the outermost brackets: how deep the class nests, and the rest.
`outer` are the brackets around those that are being read, innermost first. -/
def readMembers (m : Mode) : (fuel : Nat) → (outer : List Open) → Open → List Char →
    Option (Nat × List Char)
  | 0, _, _, _ => none
  | fuel + 1, outer, o, cs =>
    match m.skip cs with
    | [] => none
    | ']' :: rest =>
      match outer with
      | [] => some (o.height + 1, rest)
      | around :: outer => readMembers m fuel outer (around.add (o.height + 1)) rest
    | '[' :: rest =>
      match readNamed rest with
      | some (complement, after) =>
        if m.allowsLiteral && (m.wide || !complement) then readMembers m fuel outer (o.add 0) after
        else none
      | none => (readOpening m rest).bind fun inner => readMembers m fuel (o :: outer) inner.1 inner.2
    | '&' :: '&' :: rest => readMembers m fuel outer o.operate rest
    | '-' :: '-' :: rest => readMembers m fuel outer o.operate rest
    | '~' :: '~' :: rest => readMembers m fuel outer o.operate rest
    | cs => (readRange m cs).bind (readMembers m fuel outer (o.add 0))

/-- Reads a class after its opening bracket: how deep it nests, and the rest. -/
def read (m : Mode) (cs : List Char) : Option (Nat × List Char) :=
  (readOpening m cs).bind fun opening => readMembers m (cs.length + 1) [] opening.1 opening.2

end BuildAnalysis.FieldPattern.BracketClass
