import GrammarForms.Chomsky
import GrammarForms.Greibach
import GrammarForms.Reading

/-!
# Workbenches

A workbench holds one grammar that is edited step by step.  All steps that need fresh names draw
them from one supply, made for the grammar in hand when the first such step comes, so no name is
given out twice in a run.  A step that fails leaves the grammar as it was; names it was given stay
taken.
-/

namespace GrammarForms

structure Workbench where
  grammar : Grammar
  supply? : Option NameSupply
  saved : List (String × Grammar)

/-- Steps on a workbench, which may fail and still use up names. -/
abbrev Working (α : Type) :=
  ExceptT GrammarError (StateM Workbench) α

/-- Steps that change the grammar. -/
inductive Edit where
  | parse (text : String)
  | parseListing
  | restart (start : Char)
  | clearRules
  | setStart (start : Char)
  | declare (name : Char)
  | addRule (name : Char) (rule : Rule)
  | replaceRules (name : Char) (rules : List Rule)
  | keepEntries (keep : Entry → Bool)
  | dropEmptyRules (policy : EmptyWordPolicy)
  | dropUnitRules
  | dropUselessSymbols
  | dropLeftRecursion (stop : RepetitionStop)
  | simplify (policy : EmptyWordPolicy)
  | toChomsky (policy : EmptyWordPolicy)
  | toGreibach

/-- What an edit has to report besides the grammar. -/
inductive Outcome where
  | done
  | position (index : Nat)
  | added (isNew : Bool)
  | cycles (cycles : List UnitCycle)
  | normalized (n : Normalization)

namespace Workbench

def initial : Workbench :=
  ⟨.ofStart 'S', none, []⟩

/-- The supply in use, or else one for the grammar in hand. -/
def supply (bench : Workbench) : NameSupply :=
  bench.supply?.getD (.avoiding bench.grammar)

def renewSupply (bench : Workbench) : Workbench :=
  { bench with supply? := some (.avoiding bench.grammar) }

def save (bench : Workbench) (slot : String) : Workbench :=
  { bench with saved := (slot, bench.grammar) :: bench.saved }

def load? (bench : Workbench) (slot : String) : Option Workbench :=
  (bench.saved.lookup slot).map fun grammar ↦ { bench with grammar }

/-- Draws the names of a step from the supply of the workbench. -/
def drawing {α : Type} (naming : Naming α) : Working α := ExceptT.mk fun bench ↦
  let (result, supply) := naming.run.run bench.supply
  (result, { bench with supply? := some supply })

def replace (grammar : Grammar) : Working Outcome := do
  modify fun bench ↦ { bench with grammar }
  return .done

def normalize (n : Normalization) : Working Outcome := do
  modify fun bench ↦ { bench with grammar := n.grammar }
  return .normalized n

def perform (edit : Edit) : Working Outcome := do
  let g := (← get).grammar
  match edit with
  | .parse text => replace (← MonadExcept.ofExcept (Grammar.parse text))
  | .parseListing => replace (← MonadExcept.ofExcept (Grammar.parse g.listing.plain))
  | .restart start => replace (.ofStart start)
  | .clearRules => replace g.skeleton
  | .setStart start => replace { g with start }
  | .declare name =>
    let g := g.declare name
    discard <| replace g
    return .position ((g.position? name).getD 0)
  | .addRule name rule =>
    discard <| replace (g.addRule name rule)
    return .added (!(g.rules name).contains rule)
  | .replaceRules name rules => replace (g.replaceRules name rules)
  | .keepEntries keep => replace (g.keepEntries keep)
  | .dropEmptyRules policy => replace (g.withoutEmptyRules policy)
  | .dropUnitRules =>
    discard <| replace g.withoutUnitRules
    return .cycles g.unitCycles
  | .dropUselessSymbols => replace g.withoutUselessSymbols
  | .dropLeftRecursion stop => replace (← drawing (g.withoutLeftRecursion stop))
  | .simplify policy => normalize (g.simplify policy)
  | .toChomsky policy => normalize (← drawing (g.toChomsky policy))
  | .toGreibach => normalize (← drawing g.toGreibach)

end Workbench

end GrammarForms
