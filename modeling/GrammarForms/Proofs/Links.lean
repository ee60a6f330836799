import GrammarForms.Chomsky
import GrammarForms.Proofs.Naming

/-!
# Links Drawn on the Way

The links of a long rule are drawn on a walk along the rule, one for each symbol before the last two.  A rule
thus needs as many links as it has symbols beyond two, whatever they are called, and the walk comes to the same
as to draw them first and then to split the rule with them.  Rule after rule, the links of all of them can be
drawn first.
-/

namespace GrammarForms

/-! ## One rule -/

namespace Rule

/-- What a rule keeps at its own left side, and the links of the chain for the rest. -/
def splitChain : Rule → List Char → Rule × List Production
  | first :: rest, link :: links =>
    let (tail, more) := splitChain rest links
    ([first, .nonterminal link], ⟨link, tail⟩ :: more)
  | rule, _ => (rule, [])

/-- One link cuts off the first symbol, and the rest of the rule becomes the rule of that link. -/
theorem splitChain_cons (first : Symbol) (rest : Rule) (link : Char) (links : List Char) :
    splitChain (first :: rest) (link :: links) =
      ([first, .nonterminal link],
        ⟨link, (splitChain rest links).1⟩ :: (splitChain rest links).2) := rfl

theorem splitChain_of_nil (rule : Rule) : splitChain rule [] = (rule, []) := by
  cases rule <;> rfl

/-- The number of links a rule needs. -/
def excess (rule : Rule) : Nat :=
  rule.length - 2

/-- The walk draws a link for each symbol before the last two. -/
theorem cascade_eq (left : Char) (rule : Rule) :
    cascade left rule = (do
      let links ← NameSupply.freshMany "binarization" (excess rule)
      return (⟨left, (splitChain rule links).1⟩, (splitChain rule links).2)) := by
  fun_induction cascade left rule with
  | case1 left first second third rest ih =>
    -- The name drawn here is the first link, and the rest of the rule draws one name less.
    have hexcess : excess (first :: second :: third :: rest) = excess (second :: third :: rest) + 1 := rfl
    rw [hexcess]
    simp only [ih, NameSupply.freshMany, bind_assoc, pure_bind, splitChain_cons]
  | case2 left rule hshort =>
    have hexcess : excess rule = 0 := by
      rcases rule with _ | ⟨first, _ | ⟨second, _ | ⟨third, rest⟩⟩⟩
      · rfl
      · rfl
      · rfl
      · exact (hshort first second third rest rfl).elim
    rw [hexcess]
    simp only [NameSupply.freshMany, pure_bind, splitChain_of_nil]

end Rule

/-! ## All rules -/

/-- Splits each production with the links that come next; the heads come first, then the chains. -/
def splitAll : List Production → List Char → List Production × List Production
  | [], _ => ([], [])
  | p :: rest, links =>
    let needed := Rule.excess p.right
    let (head, chain) := Rule.splitChain p.right (links.take needed)
    let (heads, chains) := splitAll rest (links.drop needed)
    (⟨p.left, head⟩ :: heads, chain ++ chains)

/-- A walk through many rules draws the links of one after those of the other. -/
theorem cascadeAll_eq (productions : List Production) :
    cascadeAll productions = splitAll productions <$> NameSupply.freshMany "binarization"
      (productions.foldr (fun p total ↦ Rule.excess p.right + total) 0) := by
  induction productions with
  | nil => simp [cascadeAll, splitAll, NameSupply.freshMany]
  | cons p rest ih =>
    rw [List.foldr_cons, NameSupply.freshMany_add, ← bind_pure_comp]
    simp only [cascadeAll, Rule.cascade_eq, ih, bind_assoc, pure_bind, bind_map_left]
    apply NameSupply.freshMany_bind_congr
    intro links hlinks
    simp only [splitAll, List.take_left' hlinks, List.drop_left' hlinks]

namespace Grammar

def excess (g : Grammar) : Nat :=
  g.productions.foldr (fun p total ↦ Rule.excess p.right + total) 0

/-- The grammar whose long rules are split with these links. -/
def splitBy (g : Grammar) (links : List Char) : Grammar :=
  g.rebuild ((splitAll g.productions links).1 ++ (splitAll g.productions links).2)

/-- The splitting draws exactly one link for each symbol beyond the second of a rule. -/
theorem splitLongRules_eq (g : Grammar) :
    g.splitLongRules = g.splitBy <$> NameSupply.freshMany "binarization" g.excess := by
  rw [splitLongRules, cascadeAll_eq, bind_map_left, ← bind_pure_comp]
  rfl

end Grammar

end GrammarForms
