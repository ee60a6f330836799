/-!
# JSON Text

The compact form of JSON: no space between tokens, fields in the order given, and a string with
the quotation mark, the backslash and the control characters below the space escaped.  Every other
character stands for itself.
-/

namespace GrammarForms.Json

/-- Two hexadecimal digits in lower case. -/
def hexPair (n : Nat) : List Char :=
  [Nat.digitChar (n / 16 % 16), Nat.digitChar (n % 16)]

def escapeChar (c : Char) : List Char :=
  if c = '"' then ['\\', '"']
  else if c = '\\' then ['\\', '\\']
  else if c = '\x08' then ['\\', 'b']
  else if c = '\t' then ['\\', 't']
  else if c = '\n' then ['\\', 'n']
  else if c = '\x0c' then ['\\', 'f']
  else if c = '\r' then ['\\', 'r']
  else if c.toNat < 0x20 then ['\\', 'u', '0', '0'] ++ hexPair c.toNat
  else [c]

def string (text : String) : String :=
  "\"" ++ String.ofList (text.toList.flatMap escapeChar) ++ "\""

def array (items : List String) : String :=
  "[" ++ ",".intercalate items ++ "]"

def object (fields : List (String × String)) : String :=
  "\x7b" ++ ",".intercalate (fields.map fun field ↦ string field.1 ++ ":" ++ field.2) ++ "\x7d"

end GrammarForms.Json
