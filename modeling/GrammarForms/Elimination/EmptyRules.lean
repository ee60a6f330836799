import GrammarForms.EmptyWord

/-!
# Elimination of Empty Rules

Each rule is replaced by its variants, the nonempty rules that remain when some of its occurrences
of nullable nonterminals are deleted.  A nonterminal all of whose variants mention nonterminals
without any variant derives nothing any more; such barren nonterminals leave together with the
variants that mention them.  The start symbol keeps its entry in any case, and the policy decides
whether a nullable start symbol gets the empty rule back.
-/

namespace GrammarForms

namespace Rule

/-- The ways to keep or delete each occurrence of a nullable nonterminal, keeping first. -/
def erasures (nullable : List Char) : Rule → List Rule
  | [] => [[]]
  | symbol :: rest =>
    let shorter := erasures nullable rest
    shorter.map (symbol :: ·) ++
      match symbol with
      | .terminal _ => []
      | .nonterminal name => if nullable.contains name then shorter else []

def variants (nullable : List Char) (rule : Rule) : List Rule :=
  (erasures nullable rule).filter (!·.isEmpty)

end Rule

namespace Grammar

/-- The rules replaced by their variants. -/
def withVariants (g : Grammar) : Grammar :=
  let nullable := g.nullable
  g.rebuild (g.productions.flatMap fun p ↦
    (Rule.variants nullable p.right).map (Production.mk p.left))

/-- The nonterminals each of whose rules mentions a barren nonterminal. -/
def barren (g : Grammar) : List Char :=
  leastSet g.names fun members name ↦ (g.rules name).all (Rule.mentionsAny members)

def withoutBarren (g : Grammar) : Grammar :=
  let barren := g.barren
  (g.keepRules (!Rule.mentionsAny barren ·)).keepEntries (!barren.contains ·.name)

def withoutEmptyRules (g : Grammar) (policy : EmptyWordPolicy) : Grammar :=
  let pruned := g.withVariants.withoutBarren
  if policy = .keepAtStart ∧ g.isStartNullable then pruned.addRule g.start [] else pruned

end Grammar

end GrammarForms
