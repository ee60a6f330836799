import GrammarForms.Analysis.LeastSet
import GrammarForms.Grammar

/-!
# Nullable Nonterminals

A nonterminal is nullable if it derives the empty word: one of its rules consists of nullable
nonterminals alone.
-/

namespace GrammarForms

def Rule.isNullable (nullable : List Char) (rule : Rule) : Bool :=
  rule.all fun symbol ↦
    match symbol with
    | .terminal _ => false
    | .nonterminal name => nullable.contains name

def Grammar.nullable (g : Grammar) : List Char :=
  leastSet g.names fun members name ↦ (g.rules name).any (Rule.isNullable members)

def Grammar.isStartNullable (g : Grammar) : Bool :=
  g.nullable.contains g.start

end GrammarForms
