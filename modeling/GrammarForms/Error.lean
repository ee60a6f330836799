/-!
# Errors and Warnings

`GrammarError` lists the ways in which reading or transforming a grammar fails, and `UnitCycle` is
the one warning a transformation gives.  Each has one function that writes its message.
-/

namespace GrammarForms

inductive LineFault where
  | noArrow
  | manyArrows
  | badLeft
  | emptyAlternative
  | badSymbol (symbol : Char)
deriving DecidableEq

def LineFault.message : LineFault → String
  | .noArrow => "missing \"→\""
  | .manyArrows => "too many \"→\""
  | .badLeft => "left side must be a single uppercase letter"
  | .emptyAlternative => "empty alternative"
  | .badSymbol symbol => "unsupported character `" ++ symbol.toString ++ "` in right side"

inductive GrammarError where
  | badLine (line : Nat) (text : String) (reason : LineFault)
  | undefinedName (name : Char) (line : Nat)
  | repeatedName (name : Char) (line first : Nat)
  | outOfNames (neededFor : String)
  | emptyGrammar
deriving DecidableEq

def GrammarError.message : GrammarError → String
  | .badLine line text reason =>
    "line " ++ toString line ++ ": " ++ reason.message ++ ": `" ++ text ++ "`"
  | .undefinedName name line =>
    "line " ++ toString line ++ ": nonterminal `" ++ name.toString ++
      "` is used but never defined"
  | .repeatedName name line first =>
    "line " ++ toString line ++ ": nonterminal `" ++ name.toString ++
      "` is already defined on line " ++ toString first
  | .outOfNames neededFor => "no fresh nonterminal name left for " ++ neededFor
  | .emptyGrammar => "grammar has no productions"

/-- A chain of unit rules that returns to its first nonterminal, with the last nonterminal of the
chain before it returns. -/
structure UnitCycle where
  nonterminal : Char
  via : Char
deriving DecidableEq

def UnitCycle.message (cycle : UnitCycle) : String :=
  let name := cycle.nonterminal.toString
  if cycle.nonterminal = cycle.via then
    "unit cycle detected: " ++ name ++ " → " ++ name
  else
    "unit cycle detected: " ++ name ++ " → … → " ++ cycle.via.toString ++ " → " ++ name

end GrammarForms
