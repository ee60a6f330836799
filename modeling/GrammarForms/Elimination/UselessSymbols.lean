import GrammarForms.Analysis.Useful

/-!
# Elimination of Useless Symbols

First the nonterminals that generate nothing leave, with the rules that mention them, and then those
that cannot be reached.  In this order one run of each is enough: a nonterminal that can be reached
keeps the rules through which it generates, and their nonterminals can be reached as well.  To run both again
until the size of the grammar stands still leaves the same (`Grammar.withoutUselessInRounds_eq`).
-/

namespace GrammarForms.Grammar

def keepGenerating (g : Grammar) : Grammar :=
  let generating := g.generating
  (g.keepRules (Rule.isGenerating generating)).keepEntries (generating.contains ·.name)

def keepReachable (g : Grammar) : Grammar :=
  let reachable := g.reachable
  g.keepEntries (reachable.contains ·.name)

def withoutUselessSymbols (g : Grammar) : Grammar :=
  g.keepGenerating.keepReachable

end GrammarForms.Grammar
