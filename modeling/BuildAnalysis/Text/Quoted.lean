import BuildAnalysis.Text.Glyph

/-!
# Quoted text and structured text

The diagnostic form of a value is one line: text in double quotes with escapes, lists in square
brackets, maps in braces, records and applications under their name. Everything that is identified
by its diagnostic form relies on two values never sharing one, so escapes leave no bare quote
inside a quoted text.
-/
namespace BuildAnalysis.Text

def hexDigits (n : Nat) : List Char := Nat.toDigits 16 n

/-- The written form of one character inside double quotes. -/
def escapeChar (c : Char) : List Char :=
  match c with
  | '\x00' => ['\\', '0']
  | '\t' => ['\\', 't']
  | '\n' => ['\\', 'n']
  | '\r' => ['\\', 'r']
  | '\"' => ['\\', '\"']
  | '\\' => ['\\', '\\']
  | c => if hasNoGlyph c then ['\\', 'u', '\x7b'] ++ hexDigits c.toNat ++ ['\x7d'] else [c]

def escape (cs : List Char) : List Char := cs.flatMap escapeChar

def quote (s : String) : String := String.ofList ('\"' :: escape s.toList ++ ['\"'])

def bracketed (items : List String) : String := "[" ++ ", ".intercalate items ++ "]"

def mapping (entries : List (String × String)) : String :=
  "\x7b" ++ ", ".intercalate (entries.map fun e => e.1 ++ ": " ++ e.2) ++ "\x7d"

def record (name : String) (fields : List (String × String)) : String :=
  name ++ " \x7b " ++ ", ".intercalate (fields.map fun f => f.1 ++ ": " ++ f.2) ++ " \x7d"

def applied (name : String) (args : List String) : String :=
  name ++ "(" ++ ", ".intercalate args ++ ")"

def optional : Option String → String
  | none => "None"
  | some s => applied "Some" [s]

end BuildAnalysis.Text
