import GrammarForms.Analysis.LeastSet
import GrammarForms.Grammar

/-!
# Generating and Reachable Nonterminals

A nonterminal is generating if it derives some string of terminals, and reachable if it occurs in a
sentential form that the start symbol derives.  A nonterminal without an entry generates nothing,
but it can be reachable.
-/

namespace GrammarForms

/-- Whether each nonterminal of the rule is generating. -/
def Rule.isGenerating (generating : List Char) (rule : Rule) : Bool :=
  (nonterminals rule).all (generating.contains ·)

namespace Grammar

def generating (g : Grammar) : List Char :=
  leastSet g.names fun members name ↦ (g.rules name).any (Rule.isGenerating members)

/-- The start symbol, the names of the entries and the nonterminals of the rules. -/
def vocabulary (g : Grammar) : List Char :=
  distinct (g.start :: g.names ++ g.productions.flatMap fun p ↦ Rule.nonterminals p.right)

/-- Whether a rule of the first nonterminal mentions the second. -/
def leadsTo (g : Grammar) (name other : Char) : Bool :=
  (g.rules name).any fun rule ↦ (Rule.nonterminals rule).contains other

def reachable (g : Grammar) : List Char :=
  leastSet g.vocabulary fun members name ↦ name == g.start || members.any (g.leadsTo · name)

end Grammar

end GrammarForms
