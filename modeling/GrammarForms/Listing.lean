import GrammarForms.Grammar
import GrammarForms.Text.Json
import GrammarForms.Text.Latex

/-!
# Listings

A listing shows a grammar with one line for each nonterminal that has rules.  It is written as plain
text, in the form in which grammars are read, as a LaTeX array, or as JSON.
-/

namespace GrammarForms

inductive Format where
  | plain
  | latex
  | json
deriving DecidableEq

/-- A left side with its written alternatives. -/
structure RuleLine where
  left : String
  rights : List String
deriving DecidableEq

namespace RuleLine

def plain (line : RuleLine) : String :=
  line.left ++ " → " ++ " | ".intercalate line.rights

/-- The characters of an alternative one by one, with a space between them. -/
def latexAlternative (right : String) : String :=
  if right = "ε" then "\\epsilon"
  else " \\ ".intercalate (right.toList.map fun c ↦ Latex.escape c.toString)

def latex (line : RuleLine) : String :=
  Latex.escape line.left ++ " & \\rightarrow & " ++
    " \\mid ".intercalate (line.rights.map latexAlternative)

def json (line : RuleLine) : String :=
  Json.object
    [("left", Json.string line.left), ("rights", Json.array (line.rights.map Json.string))]

def ofEntry (entry : Entry) : RuleLine :=
  ⟨entry.name.toString, entry.rules.map Rule.text⟩

end RuleLine

structure Listing where
  lines : List RuleLine
deriving DecidableEq

namespace Listing

def plain (listing : Listing) : String :=
  "\n".intercalate (listing.lines.map RuleLine.plain)

def latex (listing : Listing) : String :=
  "\\\\\n".intercalate
    ("\\[\\begin\x7barray\x7d\x7bcll\x7d" :: listing.lines.map RuleLine.latex ++
      ["\\end\x7barray\x7d\\]"])

def json (listing : Listing) : String :=
  Json.object [("productions", Json.array (listing.lines.map RuleLine.json))]

def render (listing : Listing) : Format → String
  | .plain => listing.plain
  | .latex => listing.latex
  | .json => listing.json

end Listing

def Grammar.listing (g : Grammar) : Listing :=
  ⟨(g.entries.filter (!·.rules.isEmpty)).map RuleLine.ofEntry⟩

end GrammarForms
