/-!
# LaTeX Text

Each character that LaTeX reads as a command, and each that it joins to a neighbour or draws as
another sign, is replaced by a form that prints the character itself.  A hyphen is such a character
only where another hyphen follows it.
-/

namespace GrammarForms.Latex

/-- The form of a character, given the character that follows it. -/
def escapeChar (c : Char) (next? : Option Char) : List Char :=
  if c ∈ ['&', '%', '$', '#', '_', '\x7b', '\x7d'] then ['\\', c]
  else if c = '[' then "\x7b[\x7d".toList
  else if c = ']' then "\x7b]\x7d".toList
  else if c = '~' then "\\textasciitilde\x7b\x7d".toList
  else if c = '^' then "\\textasciicircum\x7b\x7d".toList
  else if c = '<' then "\\textless\x7b\x7d".toList
  else if c = '>' then "\\textgreater\x7b\x7d".toList
  else if c = '!' then "!\x7b\x7d".toList
  else if c = '\\' then "\\textbackslash\x7b\x7d".toList
  else if c = '-' ∧ next? = some '-' then "-\x7b\x7d".toList
  else [c]

def escapeList : List Char → List Char
  | [] => []
  | c :: rest => escapeChar c rest.head? ++ escapeList rest

def escape (text : String) : String :=
  String.ofList (escapeList text.toList)

end GrammarForms.Latex
