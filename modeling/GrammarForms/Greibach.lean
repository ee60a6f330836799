import GrammarForms.Elimination.LeftRecursion
import GrammarForms.Normalization

/-!
# Greibach Normal Form

Every rule begins with a terminal, so the empty word always leaves the language.

After the eliminations left recursion is removed without empty rules.  From then on no nonterminal
leads back to itself, and a leading nonterminal all of whose rules begin with a terminal is replaced
by these rules.  A pass of such replacements reads the rules as they were before the pass, and each
pass settles another nonterminal, so there are never more passes to make than nonterminals.
-/

namespace GrammarForms

/-- Whether the rule begins with one of the nonterminals. -/
def Rule.isLedBy (led : List Char) (rule : Rule) : Bool :=
  (leader? rule).any led.contains

namespace Grammar

/-- The nonterminals all of whose rules begin with a terminal. -/
def settled (g : Grammar) : List Char :=
  (g.entries.filter (·.rules.all Rule.beginsWithTerminal)).map (·.name)

/-- Replaces the leading nonterminal of a rule by its rules if it is one of those given. -/
def expandLeader (g : Grammar) (led : List Char) (rule : Rule) : List Rule :=
  match Rule.leader? rule with
  | some name => if led.contains name then (g.rules name).map (· ++ rule.tail) else [rule]
  | none => [rule]

/-- One pass over the entries that still have a rule without a leading terminal. -/
def expandLeaders (g : Grammar) (led : List Char) : Grammar :=
  { g with entries := g.entries.map fun entry ↦
      if led.contains entry.name then entry
      else { entry with rules := distinct (entry.rules.flatMap (g.expandLeader led)) } }

/-- Whether a pass has a leading nonterminal to replace. -/
def canExpand (g : Grammar) (led : List Char) : Bool :=
  g.entries.any fun entry ↦ !led.contains entry.name && entry.rules.any (Rule.isLedBy led)

def backSubstitutePasses : Nat → Grammar → Grammar
  | 0, g => g
  | passes + 1, g =>
    let led := g.settled
    if led.length = g.entries.length then g
    else if g.canExpand led then backSubstitutePasses passes (g.expandLeaders led)
    else g.expandLeaders led

/-- Passes until every nonterminal is settled; one pass more than there are nonterminals is
allowed. -/
def backSubstitute (g : Grammar) : Grammar :=
  backSubstitutePasses (g.entries.length + 1) g

def toGreibach (g : Grammar) : Naming Normalization := do
  let unwound ← (g.cleaned .drop).withoutLeftRecursion .withoutRepeater
  return ⟨unwound.backSubstitute, .of g.isStartNullable .drop, g.cyclesMet .drop⟩

def isGreibach (g : Grammar) : Bool :=
  g.productions.all fun p ↦ Rule.beginsWithTerminal p.right

end Grammar

end GrammarForms
