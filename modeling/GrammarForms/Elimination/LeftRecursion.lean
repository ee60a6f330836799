import GrammarForms.NameSupply

/-!
# Removal of Left Recursion

The entries are treated in order.  A rule that begins with an earlier nonterminal gets the rules of
that nonterminal in place of it.  After that an entry may still have rules that begin with its own
name; what follows the name there can be repeated after any of its other rules, and a fresh
nonterminal, the repeater, takes over the repetition.
-/

namespace GrammarForms

/-- How a repetition stops: by the empty rule, or by each rule once more without the repetition. -/
inductive RepetitionStop where
  | emptyRule
  | withoutRepeater
deriving DecidableEq

namespace RepetitionStop

/-- Each rule before the repetition, and on its own where that is how the repetition stops. -/
def repeated (stop : RepetitionStop) (repeater : Char) (rules : List Rule) : List Rule :=
  distinct (rules.flatMap fun rule ↦
    match stop with
    | emptyRule => [rule ++ [.nonterminal repeater]]
    | withoutRepeater => [rule, rule ++ [.nonterminal repeater]])

/-- The rules of the repetition itself. -/
def repeaterRules (stop : RepetitionStop) (repeater : Char) (tails : List Rule) : List Rule :=
  match stop with
  | emptyRule => distinct (stop.repeated repeater tails ++ [[]])
  | withoutRepeater => stop.repeated repeater tails

end RepetitionStop

namespace Entry

/-- Replaces the earlier nonterminal by its rules where it leads a rule. -/
def spliceLeading (entry earlier : Entry) : Entry where
  name := entry.name
  rules := distinct (entry.rules.flatMap fun rule ↦
    if Rule.leader? rule = some earlier.name then earlier.rules.map (· ++ rule.tail) else [rule])

/-- What follows the name of the entry in the rules it leads; a rule that is nothing but the name
adds nothing. -/
def recursiveTails (entry : Entry) : List Rule :=
  (entry.rules.filter (Rule.leader? · == some entry.name)).map List.tail
    |>.filter (!·.isEmpty)

def otherRules (entry : Entry) : List Rule :=
  entry.rules.filter (Rule.leader? · != some entry.name)

end Entry

/-- Entries without left recursion and the repetitions they use. -/
structure Unwound where
  entries : List Entry
  repeaters : List Entry

/-- Treats the entries one after another, given those that are done. -/
def unwind (stop : RepetitionStop) (done : List Entry) : List Entry → Naming Unwound
  | [] => return ⟨done, []⟩
  | entry :: rest => do
    let entry := done.foldl Entry.spliceLeading entry
    let tails := entry.recursiveTails
    if tails.isEmpty then
      unwind stop (done ++ [⟨entry.name, entry.otherRules⟩]) rest
    else
      let repeater ← NameSupply.fresh "left recursion removal"
      let head : Entry := ⟨entry.name, stop.repeated repeater entry.otherRules⟩
      let unwound ← unwind stop (done ++ [head]) rest
      return ⟨unwound.entries, ⟨repeater, stop.repeaterRules repeater tails⟩ :: unwound.repeaters⟩

def Grammar.withoutLeftRecursion (g : Grammar) (stop : RepetitionStop) : Naming Grammar := do
  let unwound ← unwind stop [] g.entries
  return .ofEntries g.start (unwound.entries ++ unwound.repeaters)

end GrammarForms
