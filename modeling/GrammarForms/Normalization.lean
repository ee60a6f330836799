import GrammarForms.Elimination.EmptyRules
import GrammarForms.Elimination.UnitRules
import GrammarForms.Elimination.UselessSymbols
import GrammarForms.Listing

/-!
# Normalization

A normalization gives a grammar and says what became of the empty word and which unit cycles it
met.  The first three steps of every normalization are the same: empty rules, unit rules and
useless symbols are eliminated, in this order.
-/

namespace GrammarForms

structure Normalization where
  grammar : Grammar
  emptyWord : EmptyWordFate
  unitCycles : List UnitCycle

namespace Normalization

def plain (n : Normalization) : String :=
  n.grammar.listing.plain

def cycleJson (cycle : UnitCycle) : String :=
  Json.object
    [("non_terminal", Json.string cycle.nonterminal.toString),
      ("via", Json.string cycle.via.toString)]

def json (n : Normalization) : String :=
  Json.object
    [("start", Json.string n.grammar.start.toString),
      ("productions", n.grammar.listing.json),
      ("empty_string", Json.string n.emptyWord.label),
      ("unit_cycles", Json.array (n.unitCycles.map cycleJson))]

def render (n : Normalization) : Format → String
  | .json => n.json
  | format => n.grammar.listing.render format

end Normalization

namespace Grammar

/-- The three eliminations in a row. -/
def cleaned (g : Grammar) (policy : EmptyWordPolicy) : Grammar :=
  (g.withoutEmptyRules policy).withoutUnitRules.withoutUselessSymbols

/-- The unit cycles met by the second of the three eliminations. -/
def cyclesMet (g : Grammar) (policy : EmptyWordPolicy) : List UnitCycle :=
  (g.withoutEmptyRules policy).unitCycles

def simplify (g : Grammar) (policy : EmptyWordPolicy) : Normalization :=
  ⟨g.cleaned policy, .of g.isStartNullable policy, g.cyclesMet policy⟩

end Grammar

end GrammarForms
