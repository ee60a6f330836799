import GrammarForms.Proofs.Indexing

/-!
# The Invariant of Indexed Grammars

The three copies of the positions agree after every run of operations, whatever supplies of names the
operations bring.  A run on an indexed grammar is the run on the plain grammar with the positions written down
at the end, and a plain grammar stays well-formed.  The start symbol keeps an entry unless it is assigned.
-/

namespace GrammarForms

open IndexedGrammar (Operation)

/-! ## Results and fallbacks -/

namespace Naming

variable {α β : Type} {naming : Naming α} {supply : NameSupply} {fallback : α}

theorem resultOr_eq (naming : Naming α) (supply : NameSupply) (fallback : α) :
    naming.resultOr supply fallback =
      match (naming.outcome supply).1 with
      | .ok result => result
      | .error _ => fallback :=
  rfl

theorem resultOr_map (f : α → β) :
    (f <$> naming).resultOr supply (f fallback) = f (naming.resultOr supply fallback) := by
  rw [resultOr_eq, resultOr_eq, ← bind_pure_comp, outcome_bind]
  cases naming.outcome supply with
  | mk result rest => cases result <;> rfl

/-- What holds of the fallback and of every result holds of either. -/
theorem resultOr_induction {P : α → Prop} (hfallback : P fallback)
    (hresult : ∀ result rest, naming.outcome supply = (.ok result, rest) → P result) :
    P (naming.resultOr supply fallback) := by
  rw [resultOr_eq]
  cases h : naming.outcome supply with
  | mk result rest =>
    cases result with
    | ok result => exact hresult result rest h
    | error _ => exact hfallback

end Naming

/-! ## Runs on plain grammars -/

namespace Grammar

variable {g h : Grammar} {operation : Operation} {operations : List Operation} {supply rest : NameSupply}

/-- What the operation does to a plain grammar. -/
def perform (g : Grammar) : Operation → Grammar
  | .clearRules => g.skeleton
  | .setStart start => { g with start }
  | .declare name => g.declare name
  | .addRule name rule => g.addRule name rule
  | .replaceRules name rules => g.replaceRules name rules
  | .keepEntries keep =>
    g.keepEntries fun entry ↦ keep (.placed entry ((g.position? entry.name).getD 0))
  | .dropEmptyRules policy => g.withoutEmptyRules policy
  | .dropUnitRules => g.withoutUnitRules
  | .dropUselessSymbols => g.withoutUselessSymbols
  | .dropLeftRecursion stop supply => (g.withoutLeftRecursion stop).resultOr supply g
  | .simplify policy => (g.simplify policy).grammar
  | .toChomsky policy supply => ((·.grammar) <$> g.toChomsky policy).resultOr supply g
  | .toGreibach supply => ((·.grammar) <$> g.toGreibach).resultOr supply g

/-- A well-formed grammar with an entry for its start symbol. -/
structure Rooted (g : Grammar) : Prop extends g.WellFormed where
  start_mem : g.start ∈ g.names

theorem rooted_of_fronted (wf : g.WellFormed) (fronted : g.Fronted) : g.Rooted :=
  ⟨wf, fronted.start_mem⟩

theorem rooted_ofEntries (start : Char) (entries : List Entry) : (ofEntries start entries).Rooted :=
  rooted_of_fronted (wellFormed_ofEntries start entries) (fronted_ofEntries start entries)

theorem rooted_rebuild (g : Grammar) (productions : List Production) : (g.rebuild productions).Rooted :=
  rooted_of_fronted (wellFormed_rebuild g productions) (fronted_rebuild g productions)

theorem Rooted.backSubstitute (rooted : g.Rooted) : g.backSubstitute.Rooted := by
  apply backSubstitutePasses_induction (P := Rooted) (fun h rooted ↦ ?_) rooted
  refine ⟨wellFormed_expandLeaders rooted.toWellFormed, ?_⟩
  rw [names_expandLeaders]
  exact rooted.start_mem

/-! The three conversions rebuild the grammar in the end, whatever names the supply gave them. -/

theorem rooted_of_withoutLeftRecursion {stop : RepetitionStop}
    (run : (g.withoutLeftRecursion stop).outcome supply = (.ok h, rest)) : h.Rooted := by
  have ⟨unwound, _, _, hpure⟩ := Naming.outcome_bind_eq_ok.1 run
  have ⟨hresult, _⟩ := Naming.outcome_pure_eq_ok.1 hpure
  rw [← hresult]
  exact rooted_ofEntries g.start _

/-- The Chomsky normal form has an entry for its start symbol. -/
theorem rooted_of_toChomsky {policy : EmptyWordPolicy}
    (run : ((·.grammar) <$> g.toChomsky policy).outcome supply = (.ok h, rest)) : h.Rooted := by
  have ⟨n, run, hgrammar⟩ := Naming.outcome_map_eq_ok.1 run
  have ⟨_, _, _, run⟩ := Naming.outcome_bind_eq_ok.1 run
  have ⟨isolated, _, _, run⟩ := Naming.outcome_bind_eq_ok.1 run
  have ⟨result, _, hsplit, run⟩ := Naming.outcome_bind_eq_ok.1 run
  have ⟨hn, _⟩ := Naming.outcome_pure_eq_ok.1 run
  have ⟨links, _, _, hresult⟩ := exists_links hsplit
  rw [← hgrammar, ← hn, hresult]
  exact rooted_rebuild isolated _

theorem rooted_of_toGreibach
    (run : ((·.grammar) <$> g.toGreibach).outcome supply = (.ok h, rest)) : h.Rooted := by
  have ⟨n, run, hgrammar⟩ := Naming.outcome_map_eq_ok.1 run
  have ⟨unwound, hunwound, hback, _⟩ := exists_unwound run
  rw [← hgrammar, hback]
  exact (rooted_of_withoutLeftRecursion hunwound).backSubstitute

/-- No operation repeats a name or a rule. -/
theorem wellFormed_perform (wf : g.WellFormed) (operation : Operation) :
    (g.perform operation).WellFormed := by
  cases operation with
  | clearRules => exact wellFormed_skeleton g
  | setStart start => exact ⟨wf.names_nodup, wf.rules_nodup⟩
  | declare name => exact wf.declare name
  | addRule name rule => exact wf.addRule name rule
  | replaceRules name rules => exact wf.replaceRules name rules
  | keepEntries keep => exact wf.keepEntries _
  | dropEmptyRules policy => exact wellFormed_withoutEmptyRules g policy
  | dropUnitRules => exact wellFormed_withoutUnitRules g
  | dropUselessSymbols => exact wellFormed_withoutUselessSymbols wf
  | dropLeftRecursion stop supply =>
    exact Naming.resultOr_induction wf fun _ _ run ↦ (rooted_of_withoutLeftRecursion run).toWellFormed
  | simplify policy => exact wellFormed_cleaned g policy
  | toChomsky policy supply =>
    exact Naming.resultOr_induction wf fun _ _ run ↦ (rooted_of_toChomsky run).toWellFormed
  | toGreibach supply =>
    exact Naming.resultOr_induction wf fun _ _ run ↦ (rooted_of_toGreibach run).toWellFormed

theorem Rooted.alter (rooted : g.Rooted) (name : Char) {change : List Rule → List Rule}
    (keep : ∀ rules, rules.Nodup → (change rules).Nodup) : (g.alter name change).Rooted := by
  refine ⟨rooted.toWellFormed.alter name keep, ?_⟩
  rw [start_alter, names_alter]
  exact mem_names_declare.2 (Or.inl rooted.start_mem)

theorem Rooted.keepEntries (rooted : g.Rooted) (keep : Entry → Bool) : (g.keepEntries keep).Rooted := by
  refine ⟨rooted.toWellFormed.keepEntries keep, ?_⟩
  have ⟨entry, mem, hname⟩ := List.mem_map.1 rooted.start_mem
  refine List.mem_map.2 ⟨entry, List.mem_filter.2 ⟨mem, ?_⟩, hname⟩
  rw [hname, beq_self_eq_true, Bool.true_or]

/-- Only an assignment can leave the start symbol without an entry. -/
theorem Rooted.perform (rooted : g.Rooted) (keeps : ∀ start, operation ≠ .setStart start) :
    (g.perform operation).Rooted := by
  have wf := wellFormed_perform rooted.toWellFormed operation
  cases operation with
  | clearRules => exact ⟨wf, (fronted_skeleton g).start_mem⟩
  | setStart start => exact absurd rfl (keeps start)
  | declare name =>
    refine ⟨wf, ?_⟩
    rw [Grammar.perform, start_declare]
    exact mem_names_declare.2 (Or.inl rooted.start_mem)
  | addRule name rule => exact rooted.alter name fun _ hrules ↦ nodup_appendNew hrules rule
  | replaceRules name rules => exact rooted.alter name fun _ _ ↦ nodup_distinct rules
  | keepEntries keep => exact rooted.keepEntries _
  | dropEmptyRules policy => exact ⟨wf, fronted_withoutEmptyRules.start_mem⟩
  | dropUnitRules => exact rooted_rebuild g _
  | dropUselessSymbols =>
    exact ⟨wf, (closed_withoutUselessSymbols rooted.names_nodup rooted.start_mem).start_mem⟩
  | dropLeftRecursion stop supply =>
    exact Naming.resultOr_induction (P := Rooted) rooted fun _ _ ↦ rooted_of_withoutLeftRecursion
  | simplify policy => exact ⟨wf, (closed_cleaned g policy).start_mem⟩
  | toChomsky policy supply =>
    exact Naming.resultOr_induction (P := Rooted) rooted fun _ _ ↦ rooted_of_toChomsky
  | toGreibach supply =>
    exact Naming.resultOr_induction (P := Rooted) rooted fun _ _ ↦ rooted_of_toGreibach

theorem wellFormed_after (wf : g.WellFormed) (operations : List Operation) :
    (operations.foldl perform g).WellFormed := by
  induction operations generalizing g with
  | nil => exact wf
  | cons operation later ih => exact ih (wellFormed_perform wf operation)

theorem Rooted.after (rooted : g.Rooted) (keeps : ∀ start, .setStart start ∉ operations) :
    (operations.foldl Grammar.perform g).Rooted := by
  induction operations generalizing g with
  | nil => exact rooted
  | cons operation later ih =>
    have hfirst (start : Char) : operation ≠ .setStart start := fun e ↦
      keeps start (e ▸ List.mem_cons_self)
    exact ih (rooted.perform hfirst) fun start mem ↦ keeps start (List.mem_cons_of_mem _ mem)

end Grammar

namespace IndexedGrammar

variable {g : Grammar} {stored : IndexedGrammar}

/-- One step: on a grammar with an index, an operation does what it does on the plain grammar, and
the index is the one that the result would be given afresh. -/
theorem perform_indexed (wf : g.WellFormed) (operation : Operation) :
    g.indexed.perform operation = (g.perform operation).indexed := by
  have nodup := wf.names_nodup
  cases operation with
  | clearRules => exact skeleton_indexed g
  | setStart start => rfl
  | declare name => exact declare_indexed g name
  | addRule name rule => exact addRule_indexed nodup name rule
  | replaceRules name rules => exact replaceRules_indexed nodup name rules
  | keepEntries keep =>
    -- The choice may read the index, which the plain grammar finds again as the position of the name.
    refine keepEntries_indexed_of_plain nodup fun entry mem ↦ ?_
    have ⟨position, plain, hplain, hentry⟩ := mem_entries_indexed.1 mem
    have hname : g.names[position]? = some plain.name := by
      rw [Grammar.names, List.getElem?_map, hplain]
      rfl
    have hposition := (Grammar.position?_eq_some_iff nodup).2 hname
    rw [hentry]
    change _ = keep (.placed plain ((g.position? plain.name).getD 0))
    rw [hposition, Option.getD_some]
  | dropEmptyRules policy => exact withoutEmptyRules_indexed g policy
  | dropUnitRules => exact withoutUnitRules_indexed nodup
  | dropUselessSymbols => exact withoutUselessSymbols_indexed wf
  | dropLeftRecursion stop supply =>
    rw [perform, withoutLeftRecursion_indexed, Naming.resultOr_map]
    rfl
  | simplify policy => exact cleaned_indexed g policy
  | toChomsky policy supply =>
    rw [perform, toChomsky_indexed, Naming.resultOr_map]
    rfl
  | toGreibach supply =>
    rw [perform, toGreibach_indexed, Naming.resultOr_map]
    rfl

/-- A run: after any number of operations the index is still the one of the plain result. -/
theorem after_indexed (wf : g.WellFormed) (operations : List Operation) :
    g.indexed.after operations = (operations.foldl Grammar.perform g).indexed := by
  induction operations generalizing g with
  | nil => rfl
  | cons operation later ih =>
    rw [after, List.foldl_cons, perform_indexed wf]
    exact ih (Grammar.wellFormed_perform wf operation)

/-! ## The invariant -/

/-- The names differ, the three copies of their positions agree, and no entry repeats a rule. -/
structure Consistent (g : IndexedGrammar) : Prop where
  names_nodup : g.names.Nodup
  table_nodup : (g.table.map (·.1)).Nodup
  position?_eq_some_iff : ∀ name position,
    g.position? name = some position ↔ g.names[position]? = some name
  index_eq : ∀ (position : Nat) (entry : IndexedEntry), g.entries[position]? = some entry →
    entry.index = position
  rules_nodup : ∀ entry ∈ g.entries, entry.rules.Nodup
  position_lt : ∀ name position, g.position? name = some position → position < g.entries.length

/-- An index made afresh is consistent. -/
theorem consistent_indexed (wf : g.WellFormed) : g.indexed.Consistent := by
  have hpositions (name : Char) (position : Nat) :
      g.indexed.position? name = some position ↔ g.indexed.names[position]? = some name := by
    rw [position?_indexed, names_indexed, Grammar.position?_eq_some_iff wf.names_nodup]
  exact {
    names_nodup := by
      rw [names_indexed]
      exact wf.names_nodup
    table_nodup := by
      rw [Grammar.indexed, Grammar.symbolTable, List.zipIdx_map_fst]
      exact wf.names_nodup
    position?_eq_some_iff := hpositions
    index_eq := by
      intro position entry h
      rw [Grammar.indexed, List.getElem?_mapIdx, Option.map_eq_some_iff] at h
      obtain ⟨_, _, rfl⟩ := h
      rfl
    rules_nodup := by
      intro entry mem
      obtain ⟨position, plain, hplain, rfl⟩ := mem_entries_indexed.1 mem
      exact wf.rules_nodup plain (List.mem_of_getElem? hplain)
    position_lt := by
      intro name position h
      obtain ⟨hlt, _⟩ := List.getElem?_eq_some_iff.1 ((hpositions name position).1 h)
      rwa [names, List.length_map] at hlt }

/-- In a consistent grammar a lookup gives the entry of the name. -/
theorem Consistent.get?_eq_some_iff (consistent : stored.Consistent) {name : Char}
    {entry : IndexedEntry} :
    stored.get? name = some entry ↔ entry ∈ stored.entries ∧ entry.name = name := by
  have hname (position : Nat) (h : stored.entries[position]? = some entry) :
      stored.names[position]? = some entry.name := by
    rw [names, List.getElem?_map, h]
    rfl
  rw [get?, Option.bind_eq_some_iff]
  constructor
  · rintro ⟨position, hposition, hentry⟩
    have hlookup := (consistent.position?_eq_some_iff name position).1 hposition
    refine ⟨List.mem_of_getElem? hentry, Option.some.inj ?_⟩
    rw [← hname position hentry, hlookup]
  · rintro ⟨mem, rfl⟩
    obtain ⟨position, hentry⟩ := List.mem_iff_getElem?.1 mem
    exact ⟨position, (consistent.position?_eq_some_iff _ _).2 (hname position hentry), hentry⟩

/-- Where a run begins: at a start symbol alone, or at a text that can be read. -/
inductive Origin : IndexedGrammar → Prop where
  | ofStart (start : Char) : Origin (ofStart start)
  | parse {text : String} {g : IndexedGrammar} (read : parse text = .ok g) : Origin g

/-- Both ways to begin give the indexed form of a grammar that has its start symbol. -/
theorem Origin.exists_rooted (origin : Origin stored) : ∃ g : Grammar, g.Rooted ∧ stored = g.indexed := by
  cases origin with
  | ofStart start =>
    have fronted := Grammar.fronted_ofStart start
    exact ⟨.ofStart start, Grammar.rooted_of_fronted (Grammar.wellFormed_ofStart start) fronted,
      ofStart_indexed start⟩
  | parse read =>
    have ⟨hplain, hindexed⟩ := parse_listed read
    have order := Grammar.inOrder_of_parse hplain
    exact ⟨stored.listed, ⟨order.toWellFormed, order.start_mem⟩, hindexed.symm⟩

/-! ## Main result -/

/-- Whatever is done to a grammar, the three copies of the positions agree, the start symbol has an entry unless
it was assigned, and the entries are those of the run on the plain grammar. -/
theorem consistent_after (origin : Origin stored) (operations : List Operation) :
    (stored.after operations).Consistent ∧
      ((∀ start, .setStart start ∉ operations) →
        (stored.after operations).start ∈ (stored.after operations).names) ∧
      (stored.after operations).listed = operations.foldl Grammar.perform stored.listed := by
  obtain ⟨g, rooted, rfl⟩ := origin.exists_rooted
  have wf := Grammar.wellFormed_after rooted.toWellFormed operations
  rw [after_indexed rooted.toWellFormed, listed_indexed, listed_indexed, names_indexed]
  exact ⟨consistent_indexed wf, fun keeps ↦ (rooted.after keeps).start_mem, rfl⟩

/-- An addition, a removal with a supply that gives out a name in use, and a choice by index. -/
def colliding : List Operation :=
  [.addRule 'D' [.terminal 'd'], .dropLeftRecursion .emptyRule ⟨[]⟩,
    .keepEntries fun entry ↦ entry.index != 3]

def beforeCollision : IndexedGrammar :=
  ⟨[⟨0, 'S', [[.nonterminal 'B', .terminal 'a'], []]⟩,
    ⟨1, 'A', [[.terminal 'a']]⟩,
    ⟨2, 'B', [[.nonterminal 'S', .nonterminal 'S', .terminal 'b']]⟩],
    [('S', 0), ('A', 1), ('B', 2)], 'S'⟩

def afterCollision : IndexedGrammar :=
  ⟨[⟨0, 'S', [[.nonterminal 'B', .terminal 'a'], []]⟩,
    ⟨1, 'A', [[.terminal 'a', .nonterminal 'S', .terminal 'b', .nonterminal 'A'], []]⟩,
    ⟨2, 'B', [[.nonterminal 'S', .terminal 'b', .nonterminal 'A']]⟩],
    [('S', 0), ('A', 1), ('B', 2)], 'S'⟩

/-- A stale supply hands out a name that is in use, and the index stays consistent. -/
theorem consistent_after_colliding :
    beforeCollision.after colliding = afterCollision ∧ afterCollision.Consistent ∧
      afterCollision.start ∈ afterCollision.names := by
  have read : parse "S → Ba | ε\nA → a\nB → SSb" = .ok beforeCollision := by cbv
  have run : beforeCollision.after colliding = afterCollision := by cbv
  have keeps (start : Char) : .setStart start ∉ colliding := by simp [colliding]
  obtain ⟨consistent, start_mem, -⟩ := consistent_after (.parse read) colliding
  rw [run] at consistent start_mem
  exact ⟨run, consistent, start_mem keeps⟩

end IndexedGrammar

end GrammarForms
