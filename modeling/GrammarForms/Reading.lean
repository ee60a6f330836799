import GrammarForms.Error
import GrammarForms.Grammar
import GrammarForms.Text.Lines

/-!
# Reading a Grammar

A grammar is written with one line for each nonterminal: the nonterminal, an arrow, and its
alternatives with bars between them.  Blank lines do not count, and blank characters inside a line
do not matter.

Reading goes over the lines twice.  First `definitions` takes the left side off each line, so that
every nonterminal the text defines is known; then the alternatives are read, and may use
nonterminals of later lines.  A line of a wrong shape is therefore reported before any fault in an
alternative, wherever the two stand.
-/

namespace GrammarForms

open Text

/-- A line of a text with its number, counted from one. -/
structure NumberedLine where
  number : Nat
  text : List Char

/-- A line whose left side has been read. -/
structure Definition where
  line : NumberedLine
  left : Char
  right : List Char

def numberedLines (text : List Char) : List NumberedLine :=
  (lines text).zipIdx.map fun (line, index) ↦ ⟨index + 1, line⟩

def NumberedLine.fault (line : NumberedLine) (reason : LineFault) : GrammarError :=
  .badLine line.number (String.ofList line.text) reason

/-- The left side of a line, one uppercase letter, and what follows the arrow. -/
def readLeft (text : List Char) : Except LineFault (Char × List Char) :=
  match text.splitOn '→' with
  | [left, right] =>
    match trim left with
    | [name] => if name.isUpper then .ok (name, right) else .error .badLeft
    | _ => .error .badLeft
  | _ :: _ :: _ => .error .manyArrows
  | _ => .error .noArrow

/-- The definitions of the lines that are not blank, after those of earlier lines. -/
def definitions (earlier : List Definition) :
    List NumberedLine → Except GrammarError (List Definition)
  | [] => .ok earlier
  | line :: rest =>
    if line.text.all isBlank then definitions earlier rest
    else
      match readLeft line.text with
      | .error reason => .error (line.fault reason)
      | .ok (name, right) =>
        match earlier.find? (·.left == name) with
        | some first => .error (.repeatedName name line.number first.line.number)
        | none => definitions (earlier ++ [⟨line, name, right⟩]) rest

/-- An uppercase letter is a nonterminal, any other visible ASCII character a terminal. -/
def readSymbol (c : Char) : Except LineFault Symbol :=
  if c.isUpper then .ok (.nonterminal c)
  else if '!' ≤ c ∧ c ≤ '~' then .ok (.terminal c)
  else .error (.badSymbol c)

def readAlternative (text : List Char) : Except LineFault Rule :=
  match trim text with
  | [] => .error .emptyAlternative
  | ['ε'] => .ok []
  | text => (text.filter (!isBlank ·)).mapM readSymbol

/-- An alternative of a definition, all of whose nonterminals must be among the defined names. -/
def Definition.readRule (names : List Char) (definition : Definition) (text : List Char) :
    Except GrammarError Rule :=
  match readAlternative text with
  | .error reason => .error (definition.line.fault reason)
  | .ok rule =>
    match (Rule.nonterminals rule).find? (!names.contains ·) with
    | some name => .error (.undefinedName name definition.line.number)
    | none => .ok rule

def Definition.readEntry (names : List Char) (definition : Definition) :
    Except GrammarError Entry := do
  let rules ← (definition.right.splitOn '|').mapM (definition.readRule names)
  return ⟨definition.left, distinct rules⟩

namespace Grammar

def parse (text : String) : Except GrammarError Grammar := do
  match ← definitions [] (numberedLines text.toList) with
  | [] => throw .emptyGrammar
  | first :: rest =>
    let all := first :: rest
    let entries ← all.mapM (Definition.readEntry (all.map (·.left)))
    return ⟨entries, first.left⟩

end Grammar

end GrammarForms
