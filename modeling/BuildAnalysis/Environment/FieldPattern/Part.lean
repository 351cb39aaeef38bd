import BuildAnalysis.Text.Blank

/-!
# Parts of field patterns

What all parts of a regular expression share: the modes that say how it is read, the escapes that
stand for characters and for places between them, and how deep parts nest.
-/
namespace BuildAnalysis.FieldPattern

/-! ## Modes -/

/-- How the expression is read from here on to the end of the group. -/
structure Mode where
  /-- Upper and lower case are the same. -/
  caseless : Bool := false
  /-- Characters are code points; else they are single bytes. -/
  wide : Bool := true
  /-- Blanks and comments between the parts are skipped. -/
  spaced : Bool := false

namespace Mode

/-- Turns the mode that a letter stands for on or off. -/
def turn (m : Mode) (flag : Char) (on : Bool) : Mode :=
  match flag with
  | 'i' => { m with caseless := on }
  | 'u' => { m with wide := on }
  | 'x' => { m with spaced := on }
  | _ => m

def allowsLiteral (m : Mode) : Bool := !(m.caseless && m.wide)

/-- Drops blanks, and comments up to the end of their line. -/
def dropSpacing : (inComment : Bool) → List Char → List Char
  | _, [] => []
  | true, c :: cs => dropSpacing (c != '\n') cs
  | false, c :: cs =>
    if c == '#' then dropSpacing true cs
    else if Text.isBlank c then dropSpacing false cs
    else c :: cs

/-- What is left to read after the spacing that the mode skips. -/
def skip (m : Mode) (cs : List Char) : List Char := if m.spaced then dropSpacing false cs else cs

/-- The letters that stand for modes, and the sign that turns those after it off. -/
def letters : List Char := ['-', 'i', 'm', 's', 'U', 'u', 'R', 'x']

/-- Reads mode letters up to a colon or a closing parenthesis: the new mode, whether a group follows,
and the rest. Each letter occurs once; those after a minus are turned off. -/
def read (m : Mode) (seen : List Char) : List Char → Option (Mode × Bool × List Char)
  | [] => none
  | ':' :: rest => if seen.head? = some '-' then none else some (m, true, rest)
  | ')' :: rest => if seen.head? = some '-' || seen.isEmpty then none else some (m, false, rest)
  | c :: rest =>
    if seen.contains c || !letters.contains c then none
    else read (m.turn c !(seen.contains '-')) (c :: seen) rest

end Mode

/-! ## Escapes -/

inductive Escape where
  | literal (c : Char)
  /-- A code of two digits, which is a byte where characters are bytes. -/
  | octet (c : Char)
  /-- Digits, word characters or blanks, or everything else. -/
  | shorthand (complement : Bool)
  | boundary
  | anchor

namespace Escape

/-- Whether the escape may stand on its own. -/
def isAllowed (m : Mode) : Escape → Bool
  | literal _ => m.allowsLiteral
  | octet c => m.allowsLiteral && (m.wide || c.toNat < 0x80)
  | shorthand complement => !m.wide && !complement
  | boundary => !m.wide
  | anchor => true

def hexValue? (c : Char) : Option Nat :=
  if c.isDigit then some (c.toNat - '0'.toNat)
  else if 'a' ≤ c ∧ c ≤ 'f' then some (c.toNat - 'a'.toNat + 10)
  else if 'A' ≤ c ∧ c ≤ 'F' then some (c.toNat - 'A'.toNat + 10)
  else none

/-- Reads a code point of as many hexadecimal digits; the mode may skip spacing before each. -/
def readCode (m : Mode) (acc : Nat) : (digits : Nat) → List Char → Option (Char × List Char)
  | 0, cs => if acc.isValidChar then some (.ofNat acc, cs) else none
  | n + 1, cs =>
    match m.skip cs with
    | [] => none
    | c :: cs => (hexValue? c).bind fun d => readCode m (acc * 16 + d) n cs

/-- The control characters that letters stand for. -/
def controls : List (Char × Char) :=
  [('a', '\x07'), ('f', '\x0c'), ('n', '\n'), ('r', '\x0d'), ('t', '\t'), ('v', '\x0b')]

/-- Reads an escape after its backslash. -/
def read (m : Mode) : List Char → Option (Escape × List Char)
  | [] => none
  | c :: rest =>
    if c = 'x' then (readCode m 0 2 rest).map fun r => (.octet r.1, r.2)
    else if c = 'u' then (readCode m 0 4 rest).map fun r => (.literal r.1, r.2)
    else if c = 'U' then (readCode m 0 8 rest).map fun r => (.literal r.1, r.2)
    else if ['d', 's', 'w'].contains c then some (.shorthand false, rest)
    else if ['D', 'S', 'W'].contains c then some (.shorthand true, rest)
    else if ['b', 'B', '<', '>'].contains c then some (.boundary, rest)
    else if ['A', 'z'].contains c then some (.anchor, rest)
    else
      match controls.lookup c with
      | some control => some (.literal control, rest)
      | none => if c.toNat < 0x80 && !c.isAlphanum then some (.literal c, rest) else none

end Escape

/-! ## Nesting -/

/-- How deep parts nest that stand side by side: one level more than the deepest of them, unless there
is but one. -/
def nesting : List Nat → Nat
  | [] => 0
  | [height] => height
  | heights => heights.foldl max 0 + 1

end BuildAnalysis.FieldPattern
