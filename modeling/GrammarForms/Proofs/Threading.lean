import GrammarForms.Proofs.Conversions
import GrammarForms.Proofs.Issuing
import GrammarForms.Workbench

/-!
# One Supply for a Whole Run

A workbench draws all names of a run from one supply.  Whatever transformations follow each other,
and whether they succeed or not, the grammar in hand can take the place of the grammar the run began
with and the names in it are taken.  Every name that was given out on the way is new, also where the
transformation that asked for it has failed or a later one has dropped the nonterminal again.
-/

namespace GrammarForms

/-- The edits that transform the grammar in hand, with whatever settings. -/
inductive Edit.IsTransformation : Edit → Prop where
  | dropEmptyRules (policy : EmptyWordPolicy) : IsTransformation (.dropEmptyRules policy)
  | dropUnitRules : IsTransformation .dropUnitRules
  | dropUselessSymbols : IsTransformation .dropUselessSymbols
  | dropLeftRecursion (stop : RepetitionStop) : IsTransformation (.dropLeftRecursion stop)
  | simplify (policy : EmptyWordPolicy) : IsTransformation (.simplify policy)
  | toChomsky (policy : EmptyWordPolicy) : IsTransformation (.toChomsky policy)
  | toGreibach : IsTransformation .toGreibach

namespace Workbench

variable {g : Grammar} {bench : Workbench} {supply : NameSupply} {edit : Edit} {edits : List Edit}

/-- The workbench as an edit leaves it, whatever its outcome. -/
def next (bench : Workbench) (edit : Edit) : Workbench :=
  ((perform edit).run.run bench).2

def after (bench : Workbench) (edits : List Edit) : Workbench :=
  edits.foldl next bench

/-! ## One step -/

/-- A step that needs no names changes the grammar in hand and nothing else. -/
def exchange (bench : Workbench) (grammar : Grammar) : Workbench :=
  { bench with grammar }

/-- A step that needs names takes them from the supply, and it keeps the grammar if they run out. -/
def draw {α : Type} (bench : Workbench) (naming : Naming α) (grammar : α → Grammar) : Workbench :=
  match naming.outcome bench.supply with
  | (.ok a, supply) => { bench with grammar := grammar a, supply? := some supply }
  | (.error _, supply) => { bench with supply? := some supply }

theorem next_dropEmptyRules (policy : EmptyWordPolicy) :
    bench.next (.dropEmptyRules policy) = bench.exchange (bench.grammar.withoutEmptyRules policy) := rfl

theorem next_dropUnitRules :
    bench.next .dropUnitRules = bench.exchange bench.grammar.withoutUnitRules := rfl

theorem next_dropUselessSymbols :
    bench.next .dropUselessSymbols = bench.exchange bench.grammar.withoutUselessSymbols := rfl

theorem next_simplify (policy : EmptyWordPolicy) :
    bench.next (.simplify policy) = bench.exchange (bench.grammar.cleaned policy) := rfl

theorem run_get_bind {β : Type} (later : Workbench → Working β) :
    ((get : Working Workbench) >>= later).run.run bench = (later bench).run.run bench := rfl

/-- Drawing from the workbench passes the supply on, also where a request fails. -/
theorem run_drawing_bind {α β : Type} (naming : Naming α) (later : α → Working β) :
    (drawing naming >>= later).run.run bench =
      match naming.outcome bench.supply with
      | (.ok a, supply) => (later a).run.run { bench with supply? := some supply }
      | (.error e, supply) => (.error e, { bench with supply? := some supply }) := by
  have hdrawing : (drawing naming).run.run bench =
      ((naming.outcome bench.supply).1,
        { bench with supply? := some (naming.outcome bench.supply).2 }) := rfl
  rw [ExceptT.run_bind, StateT.run_bind, hdrawing]
  cases naming.outcome bench.supply with
  | mk result supply => cases result <;> rfl

theorem next_dropLeftRecursion (stop : RepetitionStop) :
    bench.next (.dropLeftRecursion stop) = bench.draw (bench.grammar.withoutLeftRecursion stop) id := by
  rw [next, perform, run_get_bind, run_drawing_bind, draw]
  split <;> rfl

/-- The conversion draws on the supply of the workbench, and a failure leaves its grammar alone. -/
theorem next_toChomsky (policy : EmptyWordPolicy) :
    bench.next (.toChomsky policy) = bench.draw (bench.grammar.toChomsky policy) (·.grammar) := by
  rw [next, perform, run_get_bind, run_drawing_bind, draw]
  split <;> rfl

theorem next_toGreibach : bench.next .toGreibach = bench.draw bench.grammar.toGreibach (·.grammar) := by
  rw [next, perform, run_get_bind, run_drawing_bind, draw]
  split <;> rfl

/-! ## What a run keeps -/

/-- The workbench holds a grammar that can take the place of the first one, and a supply from which that
grammar and everything on the way to it has drawn its names. -/
structure Threaded (g : Grammar) (bench : Workbench) : Prop where
  turnsInto : g.TurnsInto bench.grammar
  hasSupply : bench.supply? = some bench.supply
  names_subset : bench.grammar.names ⊆ bench.supply.taken
  issues : ∃ issued, (NameSupply.avoiding g).Issues issued bench.supply

/-- A step that draws no name keeps the invariant. -/
theorem threaded_exchange (threaded : Threaded g bench) {grammar : Grammar}
    (turnsInto : bench.grammar.TurnsInto grammar)
    (subset : grammar.names ⊆ bench.grammar.start :: bench.grammar.names) :
    Threaded g (bench.exchange grammar) := by
  have hsupply : (bench.exchange grammar).supply = bench.supply := by
    rw [supply, exchange, threaded.hasSupply]
    rfl
  refine ⟨threaded.turnsInto.trans turnsInto, ?_, ?_, ?_⟩
  · rw [hsupply]
    exact threaded.hasSupply
  · intro name hname
    rw [hsupply]
    apply threaded.names_subset
    rcases List.mem_cons.1 (subset hname) with hname | hname
    · exact hname ▸ threaded.turnsInto.inOrder.start_mem
    · exact hname
  · rw [hsupply]
    exact threaded.issues

/-- A step that draws names keeps the invariant, whether or not it succeeds. -/
theorem threaded_draw {α : Type} {naming : Naming α} {grammar : α → Grammar}
    (threaded : Threaded g bench) (onlyIssues : naming.OnlyIssues)
    (turnsInto : ∀ a rest, naming.outcome bench.supply = (.ok a, rest) →
      bench.grammar.TurnsInto (grammar a) ∧ (grammar a).names ⊆ rest.taken) :
    Threaded g (bench.draw naming grammar) := by
  have ⟨earlier, hearlier⟩ := threaded.issues
  have ⟨names, hnames⟩ := onlyIssues bench.supply
  have hissues := hearlier.append hnames
  rw [draw]
  split
  · rename_i a supply h
    rw [h] at hissues
    have ⟨hturns, hsubset⟩ := turnsInto a supply h
    exact ⟨threaded.turnsInto.trans hturns, rfl, hsubset, _, hissues⟩
  · -- The names that were given out before the supply ran dry stay taken, the grammar stays as it was.
    rename_i e supply h
    rw [h] at hissues hnames
    refine ⟨threaded.turnsInto, rfl, fun name hname ↦ ?_, _, hissues⟩
    exact hnames.taken_subset (threaded.names_subset hname)

/-- One step, whichever transformation it is, keeps the invariant. -/
theorem threaded_next (threaded : Threaded g bench) (h : edit.IsTransformation) :
    Threaded g (bench.next edit) := by
  have order := threaded.turnsInto.inOrder
  have taken := threaded.names_subset
  cases h with
  | dropEmptyRules policy =>
    rw [next_dropEmptyRules]
    apply threaded_exchange threaded (Grammar.turnsInto_withoutEmptyRules order policy)
    exact Grammar.names_withoutEmptyRules_subset
  | dropUnitRules =>
    rw [next_dropUnitRules]
    apply threaded_exchange threaded (Grammar.turnsInto_withoutUnitRules order)
    exact Grammar.names_withoutUnitRules_subset
  | dropUselessSymbols =>
    rw [next_dropUselessSymbols]
    apply threaded_exchange threaded (Grammar.turnsInto_withoutUselessSymbols order)
    intro name hname
    exact List.mem_cons_of_mem _ (Grammar.mem_names_withoutUselessSymbols.1 hname).1
  | dropLeftRecursion stop =>
    rw [next_dropLeftRecursion]
    apply threaded_draw threaded (Naming.onlyIssues_withoutLeftRecursion _ stop)
    exact fun unwound rest run ↦ Grammar.turnsInto_withoutLeftRecursion order taken run
  | simplify policy =>
    rw [next_simplify]
    apply threaded_exchange threaded (Grammar.turnsInto_cleaned order policy)
    exact Grammar.names_cleaned_subset
  | toChomsky policy =>
    rw [next_toChomsky]
    apply threaded_draw threaded (Naming.onlyIssues_toChomsky _ policy)
    exact fun n rest run ↦ Grammar.turnsInto_toChomsky order taken run
  | toGreibach =>
    rw [next_toGreibach]
    apply threaded_draw threaded (Naming.onlyIssues_toGreibach _)
    exact fun n rest run ↦ Grammar.turnsInto_toGreibach order taken run

/-- A run of transformations keeps the invariant. -/
theorem threaded_after (threaded : Threaded g bench) (h : ∀ edit ∈ edits, edit.IsTransformation) :
    Threaded g (bench.after edits) := by
  induction edits generalizing bench with
  | nil => exact threaded
  | cons edit rest ih =>
    have ⟨hedit, hrest⟩ := List.forall_mem_cons.1 h
    exact ih (threaded_next threaded hedit) hrest

/-- A fresh supply starts the invariant at the current grammar. -/
theorem threaded_renewSupply (order : bench.grammar.InOrder) :
    Threaded bench.grammar bench.renewSupply where
  turnsInto := .refl order
  hasSupply := rfl
  names_subset := List.Subset.refl _
  issues := ⟨[], .nil _⟩

/-! ## Main result -/

/-- A run begins with a grammar that was read and a supply that has its names taken.  Wherever it gets
to, the grammar in hand is closed, with its names taken and the start symbol in front; it has no new
terminals and the same words but perhaps for the empty one; and all names that were given out are
new. -/
theorem accepts_after_and_issued {text : String} {last : Workbench}
    (read : Grammar.parse text = .ok bench.grammar)
    (h : ∀ edit ∈ edits, edit.IsTransformation) (run : bench.renewSupply.after edits = last) :
    (∀ p ∈ last.grammar.productions, ∀ name ∈ Rule.nonterminals p.right, name ∈ last.grammar.names) ∧
    last.grammar.names ⊆ last.supply.taken ∧
    last.grammar.position? last.grammar.start = some 0 ∧
    (∃ issued, (NameSupply.avoiding bench.grammar).Issues issued last.supply ∧
      last.supply.taken = issued.reverse ++ bench.grammar.names ∧
      issued.Nodup ∧ ∀ name ∈ issued, name ∉ bench.grammar.names) ∧
    (∀ c, last.grammar.Uses (.terminal c) → bench.grammar.Uses (.terminal c)) ∧
    (∀ word ≠ [], last.grammar.Accepts word ↔ bench.grammar.Accepts word) ∧
    (last.grammar.Accepts [] → bench.grammar.Accepts []) := by
  have threaded : Threaded bench.grammar last := by
    rw [← run]
    exact threaded_after (threaded_renewSupply (Grammar.inOrder_of_parse read)) h
  have turnsInto := threaded.turnsInto
  have ⟨issued, issues⟩ := threaded.issues
  have drawn := issues.drawn
  refine ⟨turnsInto.inOrder.defined, threaded.names_subset, turnsInto.inOrder.fronted.position?_start,
    ?_, turnsInto.uses_terminal, turnsInto.accepts_iff, turnsInto.accepts_nil⟩
  exact ⟨issued, issues, issues.taken_eq, drawn.nodup, drawn.notMem_taken⟩

/-- A left recursive start symbol with the empty word. -/
def repeating : Grammar :=
  ⟨[⟨'S', [[.nonterminal 'S', .terminal 'a'], []]⟩], 'S'⟩

/-- What is left after a repeater and a nonterminal for the terminal have come in. -/
def repeatingForward : Grammar :=
  ⟨[⟨'S', [[.terminal 'a', .nonterminal 'A'], [.terminal 'a']]⟩,
    ⟨'A', [[.terminal 'a', .nonterminal 'A'], [.terminal 'a']]⟩,
    ⟨'B', [[.terminal 'a']]⟩], 'S'⟩

theorem parse_repeating : Grammar.parse "S → Sa | ε" = .ok repeating := by
  cbv

theorem after_repeating :
    (Workbench.mk repeating none []).renewSupply.after
      [.dropLeftRecursion .emptyRule, .toChomsky .keepAtStart, .toGreibach] =
      ⟨repeatingForward, some ⟨['B', 'A', 'S']⟩, []⟩ := by
  cbv

/-- Three transformations share one supply, and no name is given out twice. -/
theorem accepts_after_and_issued_repeating :
    Grammar.parse "S → Sa | ε" = .ok repeating ∧
      (∀ word ≠ [], repeatingForward.Accepts word ↔ repeating.Accepts word) ∧
      ∃ issued, (NameSupply.avoiding repeating).Issues issued ⟨['B', 'A', 'S']⟩ ∧ issued.Nodup := by
  have h : ∀ edit ∈ [Edit.dropLeftRecursion .emptyRule, .toChomsky .keepAtStart, .toGreibach],
      edit.IsTransformation := by
    simp only [List.forall_mem_cons, List.not_mem_nil, false_implies, implies_true, and_true]
    exact ⟨.dropLeftRecursion _, .toChomsky _, .toGreibach⟩
  have ⟨_, _, _, ⟨issued, issues, _, nodup, _⟩, _, accepts, _⟩ :=
    @accepts_after_and_issued ⟨repeating, none, []⟩ _ _ _ parse_repeating h after_repeating
  exact ⟨parse_repeating, accepts, issued, issues, nodup⟩

end Workbench

end GrammarForms
