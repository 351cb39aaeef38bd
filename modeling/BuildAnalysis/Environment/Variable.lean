import BuildAnalysis.Failure.Basic
import BuildAnalysis.Text.Numeral

/-!
# Overrides from environment variables

An override reads one variable through a converter and remembers the first success; a failed read
is tried again the next time. Finding a value is logged before it is converted.
-/
namespace BuildAnalysis

inductive Variable where
  | unset
  | text (s : String)
  /-- Set to bytes that are no text. -/
  | notText
  deriving DecidableEq

def Variable.ofBytes (bytes : ByteArray) : Variable :=
  match String.fromUTF8? bytes with
  | some s => .text s
  | none => .notText

inductive VariableType where
  | boolean
  | natural (limit : Nat)
  | integer (limit : Nat)
  | character
  | text
  deriving DecidableEq

namespace VariableType

def word : VariableType := .natural (UInt64.size - 1)

def byte : VariableType := .natural (UInt8.size - 1)

def signedWord : VariableType := .integer (UInt64.size / 2 - 1)

end VariableType

inductive VariableValue where
  | boolean (b : Bool)
  | number (n : Int)
  | character (c : Char)
  | text (s : String)
  deriving DecidableEq

namespace VariableValue

def toText : VariableValue → String
  | boolean b => if b then "true" else "false"
  | number n => toString n
  | character c => c.toString
  | text s => s

end VariableValue

def parseBool (s : String) : Except Failure Bool :=
  match Text.readBool? s with
  | some b => .ok b
  | none => .error (.new .input s!"Expected a boolean, got `{s}`")

namespace VariableType

/-- Reads a value of the given type; whatever goes wrong is the user's input. -/
def parse (type : VariableType) (s : String) : Except Failure VariableValue :=
  match type with
  | boolean => (parseBool s).map .boolean
  | natural limit =>
    match Text.readNat limit s with
    | .ok n => .ok (.number n)
    | .error e => .error (.new .input e.message)
  | integer limit =>
    match Text.readInt limit s with
    | .ok n => .ok (.number n)
    | .error e => .error (.new .input e.message)
  | character =>
    match Text.readChar s with
    | .ok c => .ok (.character c)
    | .error e => .error (.new .input e.message)
  | text => .ok (.text s)

end VariableType

/-- An override: a variable, its type, and the first successful reading. -/
structure Override where
  name : String
  type : VariableType
  remembered : Option (Option VariableValue) := none
  deriving DecidableEq

namespace Override

def foundText (name value : String) : String := s!"Env override found: ${name} = {value}"

def attempt (o : Override) : Variable → Except Failure (Option VariableValue)
  | .unset => .ok none
  | .text s => (o.type.parse s).map some
  | .notText => .error (.new .tier0 "Variable is not unicode")

def attemptLog (o : Override) : Variable → List String
  | .text s => [foundText o.name s]
  | _ => []

/-- Reads the override: its value, the override that remembers it, and what was logged. -/
def read (o : Override) (v : Variable) :
    Except Failure (Option VariableValue) × Override × List String :=
  match o.remembered with
  | some value => (.ok value, o, [])
  | none =>
    match o.attempt v with
    | .ok value => (.ok value, { o with remembered := some value }, o.attemptLog v)
    | .error e => (.error (e.within s!"Invalid value for ${o.name}"), o, o.attemptLog v)

def readOnce (o : Override) (v : Variable) : Except Failure (Option VariableValue) := (o.read v).1

end Override
end BuildAnalysis
