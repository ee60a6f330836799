import GrammarForms.Chomsky
import GrammarForms.Greibach
import GrammarForms.Reading

/-!
# Indexed Grammars

An indexed grammar holds the position of each nonterminal three times: as its place among the entries, as the
index its entry carries, and in a table from names to positions.  Nothing in the type makes the three agree;
the operations keep them in step.

The transformations are those of plain grammars.  They walk the entries where they treat all of them
(`listed`), and go through the table where they ask for the rules of one nonterminal (`consulted`).
-/

namespace GrammarForms

/-- The result with names from the supply, or the fallback if they run out. -/
def Naming.resultOr {α : Type} (naming : Naming α) (supply : NameSupply) (fallback : α) : α :=
  match (naming.run.run supply).1 with
  | .ok result => result
  | .error _ => fallback

structure IndexedEntry where
  index : Nat
  name : Char
  rules : List Rule
deriving DecidableEq

def IndexedEntry.plain (entry : IndexedEntry) : Entry :=
  ⟨entry.name, entry.rules⟩

structure IndexedGrammar where
  entries : List IndexedEntry
  table : List (Char × Nat)
  start : Char
deriving DecidableEq

namespace IndexedGrammar

/-! ## Views -/

def names (g : IndexedGrammar) : List Char :=
  g.entries.map (·.name)

def position? (g : IndexedGrammar) (name : Char) : Option Nat :=
  g.table.lookup name

/-- The entry to which the table leads. -/
def get? (g : IndexedGrammar) (name : Char) : Option IndexedEntry :=
  (g.position? name).bind fun position ↦ g.entries[position]?

def rules (g : IndexedGrammar) (name : Char) : List Rule :=
  ((g.get? name).map (·.rules)).getD []

/-- The grammar that a walk over the entries sees. -/
def listed (g : IndexedGrammar) : Grammar :=
  ⟨g.entries.map IndexedEntry.plain, g.start⟩

/-- The grammar that lookups of single nonterminals see. -/
def consulted (g : IndexedGrammar) : Grammar :=
  ⟨g.names.map fun name ↦ ⟨name, g.rules name⟩, g.start⟩

/-! ## Building -/

/-- Enters the position of a name in place of any it had. -/
def enter (table : List (Char × Nat)) (name : Char) (position : Nat) : List (Char × Nat) :=
  table.filter (·.1 != name) ++ [(name, position)]

/-- Puts an entry at the end. -/
def push (g : IndexedGrammar) (name : Char) (rules : List Rule) : IndexedGrammar :=
  let position := g.entries.length
  { g with
    entries := g.entries ++ [⟨position, name, rules⟩]
    table := enter g.table name position }

def declare (g : IndexedGrammar) (name : Char) : IndexedGrammar :=
  if (g.position? name).isSome then g else g.push name []

/-- Changes the rules of the entry to which the table leads. -/
def alter (g : IndexedGrammar) (name : Char) (change : List Rule → List Rule) : IndexedGrammar :=
  let g := g.declare name
  match g.position? name with
  | some position =>
    { g with entries := g.entries.modify position fun entry ↦
        { entry with rules := change entry.rules } }
  | none => g

def addRule (g : IndexedGrammar) (name : Char) (rule : Rule) : IndexedGrammar :=
  g.alter name (appendNew · rule)

def replaceRules (g : IndexedGrammar) (name : Char) (rules : List Rule) : IndexedGrammar :=
  g.alter name fun _ ↦ distinct rules

/-- Changes the rules of each entry in place. -/
def mapRules (g : IndexedGrammar) (change : Char → List Rule → List Rule) : IndexedGrammar :=
  { g with entries := g.entries.map fun entry ↦
      { entry with rules := change entry.name entry.rules } }

def keepRules (g : IndexedGrammar) (keep : Rule → Bool) : IndexedGrammar :=
  g.mapRules fun _ ↦ List.filter keep

/-- Empties the entries and the table, and puts back the entries that stay. -/
def keepEntries (g : IndexedGrammar) (keep : IndexedEntry → Bool) : IndexedGrammar :=
  g.entries.foldl
    (fun kept entry ↦
      if entry.name == g.start || keep entry then kept.push entry.name entry.rules else kept)
    ⟨[], [], g.start⟩

def ofStart (start : Char) : IndexedGrammar :=
  declare ⟨[], [], start⟩ start

/-- The grammar with these nonterminals, the start symbol first, and these rules. -/
def build (start : Char) (names : List Char) (productions : List Production) : IndexedGrammar :=
  productions.foldl (fun built p ↦ built.addRule p.left p.right) (names.foldl declare (ofStart start))

def skeleton (g : IndexedGrammar) : IndexedGrammar :=
  build g.start g.names []

def rebuild (g : IndexedGrammar) (productions : List Production) : IndexedGrammar :=
  build g.start g.names productions

def ofEntries (start : Char) (entries : List Entry) : IndexedGrammar :=
  entries.foldl (fun built entry ↦ built.replaceRules entry.name entry.rules) (ofStart start)

def parse (text : String) : Except GrammarError IndexedGrammar := do
  let read ← Grammar.parse text
  return build read.start read.names read.productions

/-! ## Eliminations -/

def withVariants (g : IndexedGrammar) : IndexedGrammar :=
  let nullable := g.listed.nullable
  g.rebuild (g.listed.productions.flatMap fun p ↦
    (Rule.variants nullable p.right).map (Production.mk p.left))

def withoutBarren (g : IndexedGrammar) : IndexedGrammar :=
  let barren := g.listed.barren
  (g.keepRules (!Rule.mentionsAny barren ·)).keepEntries (!barren.contains ·.name)

def withoutEmptyRules (g : IndexedGrammar) (policy : EmptyWordPolicy) : IndexedGrammar :=
  let pruned := g.withVariants.withoutBarren
  if policy = .keepAtStart ∧ g.listed.isStartNullable then pruned.addRule g.start [] else pruned

def withoutUnitRules (g : IndexedGrammar) : IndexedGrammar :=
  g.rebuild (g.names.flatMap fun root ↦
    ((g.consulted.unitReach root).filter (Rule.soleNonterminal? ·.right |>.isNone)).map
      fun p ↦ ⟨root, p.right⟩)

def keepGenerating (g : IndexedGrammar) : IndexedGrammar :=
  let generating := g.listed.generating
  (g.keepRules (Rule.isGenerating generating)).keepEntries (generating.contains ·.name)

def keepReachable (g : IndexedGrammar) : IndexedGrammar :=
  let reachable := g.consulted.reachable
  g.keepEntries (reachable.contains ·.name)

def withoutUselessSymbols (g : IndexedGrammar) : IndexedGrammar :=
  g.keepGenerating.keepReachable

def cleaned (g : IndexedGrammar) (policy : EmptyWordPolicy) : IndexedGrammar :=
  (g.withoutEmptyRules policy).withoutUnitRules.withoutUselessSymbols

/-- The indices do not take part in the treatment: in the end every entry is entered anew. -/
def withoutLeftRecursion (g : IndexedGrammar) (stop : RepetitionStop) : Naming IndexedGrammar := do
  let unwound ← unwind stop [] g.listed.entries
  return .ofEntries g.start (unwound.entries ++ unwound.repeaters)

/-! ## Normal forms -/

def wrapStart (g : IndexedGrammar) (start : Char) : IndexedGrammar :=
  .ofEntries start (⟨start, [[.nonterminal g.start]]⟩ :: g.listed.entries)

def freshStart (g : IndexedGrammar) (policy : EmptyWordPolicy) : Naming IndexedGrammar :=
  if g.listed.needsFreshStart policy then g.wrapStart <$> NameSupply.fresh "the new start symbol"
  else return g

def isolateTerminals (g : IndexedGrammar) : Naming IndexedGrammar := do
  let (isolated, table) ← isolateAll [] g.listed.productions
  return g.rebuild (isolated ++ table.map fun (c, name) ↦ ⟨name, [.terminal c]⟩)

def splitLongRules (g : IndexedGrammar) : Naming IndexedGrammar := do
  let (heads, chains) ← cascadeAll g.listed.productions
  return g.rebuild (heads ++ chains)

def toChomsky (g : IndexedGrammar) (policy : EmptyWordPolicy) : Naming IndexedGrammar := do
  let started ← g.freshStart policy
  let isolated ← (started.cleaned policy).isolateTerminals
  isolated.splitLongRules

def expandLeaders (g : IndexedGrammar) (led : List Char) : IndexedGrammar :=
  let before := g.consulted
  g.mapRules fun name rules ↦
    if led.contains name then rules else distinct (rules.flatMap (before.expandLeader led))

def backSubstitutePasses : Nat → IndexedGrammar → IndexedGrammar
  | 0, g => g
  | passes + 1, g =>
    let led := g.listed.settled
    if led.length = g.entries.length then g
    else if g.listed.canExpand led then backSubstitutePasses passes (g.expandLeaders led)
    else g.expandLeaders led

def backSubstitute (g : IndexedGrammar) : IndexedGrammar :=
  backSubstitutePasses (g.entries.length + 1) g

def toGreibach (g : IndexedGrammar) : Naming IndexedGrammar := do
  let unwound ← (g.cleaned .drop).withoutLeftRecursion .withoutRepeater
  return unwound.backSubstitute

/-! ## Runs -/

/-- What can be done to a grammar; each step that needs names brings a supply of its own. -/
inductive Operation where
  | clearRules
  | setStart (start : Char)
  | declare (name : Char)
  | addRule (name : Char) (rule : Rule)
  | replaceRules (name : Char) (rules : List Rule)
  | keepEntries (keep : IndexedEntry → Bool)
  | dropEmptyRules (policy : EmptyWordPolicy)
  | dropUnitRules
  | dropUselessSymbols
  | dropLeftRecursion (stop : RepetitionStop) (supply : NameSupply)
  | simplify (policy : EmptyWordPolicy)
  | toChomsky (policy : EmptyWordPolicy) (supply : NameSupply)
  | toGreibach (supply : NameSupply)

/-- A step that fails leaves the grammar as it was. -/
def perform (g : IndexedGrammar) : Operation → IndexedGrammar
  | .clearRules => g.skeleton
  | .setStart start => { g with start }
  | .declare name => g.declare name
  | .addRule name rule => g.addRule name rule
  | .replaceRules name rules => g.replaceRules name rules
  | .keepEntries keep => g.keepEntries keep
  | .dropEmptyRules policy => g.withoutEmptyRules policy
  | .dropUnitRules => g.withoutUnitRules
  | .dropUselessSymbols => g.withoutUselessSymbols
  | .dropLeftRecursion stop supply => (g.withoutLeftRecursion stop).resultOr supply g
  | .simplify policy => g.cleaned policy
  | .toChomsky policy supply => (g.toChomsky policy).resultOr supply g
  | .toGreibach supply => g.toGreibach.resultOr supply g

def after (g : IndexedGrammar) (operations : List Operation) : IndexedGrammar :=
  operations.foldl perform g

end IndexedGrammar

end GrammarForms
