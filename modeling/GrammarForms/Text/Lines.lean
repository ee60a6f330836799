import GrammarForms.Text.Blank

/-!
# Lines

A line ends at a line feed, together with one carriage return right before it, or at the end of the
text.  A carriage return that no line feed follows belongs to its line, and a text that ends in a
line feed has no further empty line.
-/

namespace GrammarForms.Text

def dropReturn (line : List Char) : List Char :=
  if line.getLast? = some '\r' then line.dropLast else line

def lines (text : List Char) : List (List Char) :=
  let pieces := text.splitOn '\n'
  pieces.dropLast.map dropReturn ++ (pieces.getLast?.filter (!·.isEmpty)).toList

/-- The text without the blank characters at either end. -/
def trim (text : List Char) : List Char :=
  ((text.dropWhile isBlank).reverse.dropWhile isBlank).reverse

end GrammarForms.Text
