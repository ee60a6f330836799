import GrammarForms.NameSupply
import GrammarForms.Normalization

/-!
# Chomsky Normal Form

Every rule is one terminal or two nonterminals, and only the start symbol may have the empty rule,
provided that it occurs in no rule.

A grammar that keeps the empty word and uses its start symbol in a rule first gets a new start
symbol.  After the eliminations each terminal of a longer rule is replaced by a nonterminal that
stands for it alone, and each rule of more than two symbols becomes a chain of rules of two.  Both
steps go through the rules once and draw a name where they need one.
-/

namespace GrammarForms

/-- Terminals with the nonterminals that stand for them, in the order in which they were met. -/
abbrev StandInTable := List (Char × Char)

/-- The stand-in of a terminal: the one it has, or else a fresh one, which it has from then on. -/
def StandInTable.meet (table : StandInTable) (c : Char) : Naming (Char × StandInTable) :=
  match table.lookup c with
  | some name => return (name, table)
  | none => do
    let name ← NameSupply.fresh "a terminal substitution"
    return (name, table ++ [(c, name)])

namespace Rule

/-- Replaces the terminals one after another by their stand-ins. -/
def isolateSymbols (table : StandInTable) : Rule → Naming (Rule × StandInTable)
  | [] => return ([], table)
  | .nonterminal name :: rest => do
    let (replaced, table) ← isolateSymbols table rest
    return (.nonterminal name :: replaced, table)
  | .terminal c :: rest => do
    let (name, table) ← table.meet c
    let (replaced, table) ← isolateSymbols table rest
    return (.nonterminal name :: replaced, table)

/-- A rule of one symbol keeps its terminal. -/
def isolate (table : StandInTable) (rule : Rule) : Naming (Rule × StandInTable) :=
  if rule.length < 2 then return (rule, table) else isolateSymbols table rule

/-- Gives a left side the first symbol of the rule and a fresh link for the rest, which the link gets
in the same way until two symbols are left.  The rule of the left side comes first, then the chain. -/
def cascade (left : Char) : Rule → Naming (Production × List Production)
  | first :: second :: third :: rest => do
    let link ← NameSupply.fresh "binarization"
    let (next, chain) ← cascade link (second :: third :: rest)
    return (⟨left, [first, .nonterminal link]⟩, next :: chain)
  | rule => return (⟨left, rule⟩, [])

end Rule

/-- Isolates the terminals of rule after rule, with one table for all of them. -/
def isolateAll (table : StandInTable) : List Production → Naming (List Production × StandInTable)
  | [] => return ([], table)
  | p :: rest => do
    let (rule, table) ← Rule.isolate table p.right
    let (isolated, table) ← isolateAll table rest
    return (⟨p.left, rule⟩ :: isolated, table)

/-- Splits rule after rule; what the left sides keep comes first, then the chains. -/
def cascadeAll : List Production → Naming (List Production × List Production)
  | [] => return ([], [])
  | p :: rest => do
    let (head, chain) ← Rule.cascade p.left p.right
    let (heads, chains) ← cascadeAll rest
    return (head :: heads, chain ++ chains)

namespace Grammar

/-- The grammar with a new start symbol, whose rule is the old one. -/
def wrapStart (g : Grammar) (start : Char) : Grammar :=
  .ofEntries start (⟨start, [[.nonterminal g.start]]⟩ :: g.entries)

/-- The stand-ins come after all rules, in the order in which they were drawn. -/
def isolateTerminals (g : Grammar) : Naming Grammar := do
  let (isolated, table) ← isolateAll [] g.productions
  return g.rebuild (isolated ++ table.map fun (c, name) ↦ ⟨name, [.terminal c]⟩)

def splitLongRules (g : Grammar) : Naming Grammar := do
  let (heads, chains) ← cascadeAll g.productions
  return g.rebuild (heads ++ chains)

def needsFreshStart (g : Grammar) (policy : EmptyWordPolicy) : Bool :=
  EmptyWordFate.of g.isStartNullable policy = .kept ∧ g.mentions g.start

def freshStart (g : Grammar) (policy : EmptyWordPolicy) : Naming Grammar :=
  if g.needsFreshStart policy then g.wrapStart <$> NameSupply.fresh "the new start symbol"
  else return g

def toChomsky (g : Grammar) (policy : EmptyWordPolicy) : Naming Normalization := do
  let started ← g.freshStart policy
  let isolated ← (started.cleaned policy).isolateTerminals
  let result ← isolated.splitLongRules
  return ⟨result, .of g.isStartNullable policy, started.cyclesMet policy⟩

/-- Whether every rule has the form described above. -/
def isChomsky (g : Grammar) : Bool :=
  g.productions.all fun p ↦
    match p.right with
    | [] => p.left == g.start && !g.mentions g.start
    | [.terminal _] => true
    | [.nonterminal _, .nonterminal _] => true
    | _ => false

end Grammar

end GrammarForms
