import GrammarForms.Distinct
import GrammarForms.Sorting
import GrammarForms.Symbol

/-!
# Context-Free Grammars

A grammar is a list of entries, one for each nonterminal with its alternatives in order, and a
start symbol.  `Grammar.position?` and `Grammar.symbolTable` are views of the entries, so they
cannot disagree with them.  What the building operations keep is `Grammar.WellFormed`: no two
entries share a name and no entry repeats a rule.

Each transformation of a grammar hands its rules to `Grammar.rebuild`, which keeps the nonterminals
of the grammar, puts the start symbol first, and adds the rules one after another.
-/

namespace GrammarForms

structure Entry where
  name : Char
  rules : List Rule
deriving DecidableEq

/-- The rules of an entry, each with its name. -/
def Entry.productions (entry : Entry) : List Production :=
  entry.rules.map (Production.mk entry.name)

structure Grammar where
  entries : List Entry
  start : Char
deriving DecidableEq

namespace Grammar

/-! ## Views -/

def names (g : Grammar) : List Char :=
  g.entries.map (·.name)

def find? (g : Grammar) (name : Char) : Option Entry :=
  g.entries.find? (·.name == name)

def contains (g : Grammar) (name : Char) : Bool :=
  g.names.contains name

/-- The alternatives of a nonterminal; there are none where the nonterminal has no entry. -/
def rules (g : Grammar) (name : Char) : List Rule :=
  ((g.find? name).map (·.rules)).getD []

def position? (g : Grammar) (name : Char) : Option Nat :=
  g.names.idxOf? name

/-- Each nonterminal with its position. -/
def symbolTable (g : Grammar) : List (Char × Nat) :=
  g.names.zipIdx

def productions (g : Grammar) : List Production :=
  g.entries.flatMap Entry.productions

def ruleCount (g : Grammar) : Nat :=
  g.productions.length

/-- Whether the nonterminal occurs in some rule. -/
def mentions (g : Grammar) (name : Char) : Bool :=
  g.productions.any fun p ↦ (Rule.nonterminals p.right).contains name

/-- The alternatives of each nonterminal with both orders forgotten: names ascend, and rules ascend
within each name. -/
def canonicalRules (g : Grammar) : List (Char × List Rule) :=
  sortBy (fun one other ↦ one.1.toNat ≤ other.1.toNat)
    (g.entries.map fun entry ↦ (entry.name, sortBy Rule.precedes entry.rules))

/-! ## Building -/

/-- The start symbol alone, without rules. -/
def ofStart (start : Char) : Grammar :=
  ⟨[⟨start, []⟩], start⟩

def declare (g : Grammar) (name : Char) : Grammar :=
  if name ∈ g.names then g else { g with entries := g.entries ++ [⟨name, []⟩] }

/-- Changes the rules of one nonterminal, which first gets an entry if it has none. -/
def alter (g : Grammar) (name : Char) (change : List Rule → List Rule) : Grammar :=
  let g := g.declare name
  { g with entries := g.entries.map fun entry ↦
      if entry.name = name then { entry with rules := change entry.rules } else entry }

def addRule (g : Grammar) (name : Char) (rule : Rule) : Grammar :=
  g.alter name (appendNew · rule)

def replaceRules (g : Grammar) (name : Char) (rules : List Rule) : Grammar :=
  g.alter name fun _ ↦ distinct rules

def keepRules (g : Grammar) (keep : Rule → Bool) : Grammar :=
  { g with entries := g.entries.map fun entry ↦ { entry with rules := entry.rules.filter keep } }

/-- Drops the rejected entries, though never the entry of the start symbol. -/
def keepEntries (g : Grammar) (keep : Entry → Bool) : Grammar :=
  { g with entries := g.entries.filter fun entry ↦ entry.name == g.start || keep entry }

/-- The nonterminals without their rules, the start symbol first. -/
def skeleton (g : Grammar) : Grammar :=
  g.names.foldl declare (ofStart g.start)

def rebuild (g : Grammar) (productions : List Production) : Grammar :=
  productions.foldl (fun built p ↦ built.addRule p.left p.right) g.skeleton

/-- The grammar of these entries; a later entry replaces the rules of an earlier one of its name. -/
def ofEntries (start : Char) (entries : List Entry) : Grammar :=
  entries.foldl (fun built entry ↦ built.replaceRules entry.name entry.rules) (ofStart start)

/-! ## Invariants -/

structure WellFormed (g : Grammar) : Prop where
  names_nodup : g.names.Nodup
  rules_nodup : ∀ entry ∈ g.entries, entry.rules.Nodup

/-- Every nonterminal in sight has an entry. -/
structure Closed (g : Grammar) : Prop where
  start_mem : g.start ∈ g.names
  defined : ∀ p ∈ g.productions, ∀ name ∈ Rule.nonterminals p.right, name ∈ g.names

end Grammar

end GrammarForms
