import GrammarForms.Error
import GrammarForms.Grammar

/-!
# Elimination of Unit Rules

A unit rule is a single nonterminal.  A chain of unit rules leads from a nonterminal to others, and
their remaining rules become its own.  `Grammar.unitReach` walks these chains with an agenda of
rules.  A unit rule to a nonterminal not yet visited puts the rules of that nonterminal in front of
the agenda, so the rules come in the order in which the chains are written.  Each nonterminal is
visited once, and a chain that returns to the nonterminal it began with is a unit cycle.
-/

namespace GrammarForms

/-- The number of rules that the unvisited entries can still add to an agenda. -/
def openRules (unvisited : List Entry) : Nat :=
  (unvisited.flatMap (·.rules)).length

/-- The entries that remain unvisited. -/
def visit (unvisited : List Entry) (name : Char) : List Entry :=
  unvisited.filter (·.name != name)

@[simp]
theorem openRules_cons (entry : Entry) (rest : List Entry) :
    openRules (entry :: rest) = entry.rules.length + openRules rest := by
  simp [openRules]

theorem visit_cons (entry : Entry) (rest : List Entry) (name : Char) :
    visit (entry :: rest) name =
      if entry.name = name then visit rest name else entry :: visit rest name := by
  by_cases h : entry.name = name <;> simp [visit, h]

/-- Visiting an entry never adds open rules. -/
theorem openRules_visit_le (unvisited : List Entry) (name : Char) :
    openRules (visit unvisited name) ≤ openRules unvisited := by
  induction unvisited with
  | nil => simp [visit]
  | cons first rest ih =>
    rw [visit_cons]
    split <;> simp only [openRules_cons] <;> omega

/-- Visiting an entry closes all of its rules, which is why the walk along unit rules ends. -/
theorem openRules_visit_add_le {unvisited : List Entry} {entry : Entry} (h : entry ∈ unvisited) :
    openRules (visit unvisited entry.name) + entry.rules.length ≤ openRules unvisited := by
  induction unvisited with
  | nil => simp at h
  | cons first rest ih =>
    rw [visit_cons]
    have hle := openRules_visit_le rest entry.name
    rcases List.mem_cons.1 h with rfl | h
    · simp only [if_pos, openRules_cons]
      omega
    · have hrest := ih h
      split <;> simp only [openRules_cons] <;> omega

/-- The rules met from an agenda, each with the nonterminal it belongs to. -/
def followUnits (unvisited : List Entry) (agenda : List Production) : List Production :=
  match agenda with
  | [] => []
  | p :: rest =>
    match _found : (Rule.soleNonterminal? p.right).bind fun name ↦ unvisited.find? (·.name == name) with
    | none => p :: followUnits unvisited rest
    | some entry => p :: followUnits (visit unvisited entry.name) (entry.productions ++ rest)
termination_by openRules unvisited + agenda.length
decreasing_by
  · simp
  · obtain ⟨name, _, hfind⟩ := Option.bind_eq_some_iff.1 _found
    have := openRules_visit_add_le (List.mem_of_find?_eq_some hfind)
    simp only [List.length_append, List.length_cons, Entry.productions, List.length_map]
    omega

namespace Grammar

/-- The rules reached from a nonterminal through unit rules, unit rules included. -/
def unitReach (g : Grammar) (root : Char) : List Production :=
  followUnits (visit g.entries root) ((g.rules root).map (Production.mk root))

def unitCyclesAt (g : Grammar) (root : Char) : List UnitCycle :=
  (g.unitReach root).filterMap fun p ↦
    if Rule.soleNonterminal? p.right = some root then some ⟨root, p.left⟩ else none

def unitCycles (g : Grammar) : List UnitCycle :=
  distinct (g.names.flatMap g.unitCyclesAt)

def withoutUnitRules (g : Grammar) : Grammar :=
  g.rebuild (g.names.flatMap fun root ↦
    ((g.unitReach root).filter (Rule.soleNonterminal? ·.right |>.isNone)).map
      fun p ↦ ⟨root, p.right⟩)

end Grammar

end GrammarForms
