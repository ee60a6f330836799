import GrammarForms.Proofs.TidyGrammars

/-!
# Rules in Any Order

The order in which nonterminals and their rules are written is the order in which they are worked on, but
nothing else.  Grammars with the same rules have the same languages, so the analyses find the same
nonterminals in both, and the chains of unit rules lead from and to the same ones.  Each elimination
therefore leaves grammars with the same rules again.
-/

namespace GrammarForms

theorem contains_congr {names others : List Char} (h : ∀ name, name ∈ names ↔ name ∈ others)
    (name : Char) : names.contains name = others.contains name := by
  rw [Bool.eq_iff_iff, List.contains_iff_mem, List.contains_iff_mem]
  exact h name

namespace Grammar

variable {g h : Grammar} {policy : EmptyWordPolicy} {name other : Char}

namespace SameRules

variable (same : g.SameRules h)

include same

/-! ## Building -/

theorem symm : h.SameRules g where
  start_eq := same.start_eq.symm
  mem_names := fun name ↦ (same.mem_names name).symm
  mem_rules := fun name rule ↦ (same.mem_rules name rule).symm

/-- Grammars with the same rules list the same productions, possibly in another order. -/
theorem mem_productions_iff (nodup : g.names.Nodup) (nodup' : h.names.Nodup) (p : Production) :
    p ∈ g.productions ↔ p ∈ h.productions := by
  rw [mem_productions nodup, mem_productions nodup']
  exact same.mem_rules p.left p.right

/-- Grammars rebuilt from the same productions have the same rules, whatever order these came in. -/
theorem rebuild {productions others : List Production} (hsame : ∀ p, p ∈ productions ↔ p ∈ others) :
    (g.rebuild productions).SameRules (h.rebuild others) where
  start_eq := by
    rw [start_rebuild, start_rebuild]
    exact same.start_eq
  mem_names := by
    intro name
    simp only [mem_names_rebuild, same.start_eq, same.mem_names, hsame]
  mem_rules := by
    intro name rule
    rw [mem_rules_rebuild, mem_rules_rebuild]
    exact hsame _

theorem addRule (name : Char) (rule : Rule) : (g.addRule name rule).SameRules (h.addRule name rule) where
  start_eq := by
    rw [start_addRule, start_addRule]
    exact same.start_eq
  mem_names := by
    intro other
    rw [mem_names_addRule, mem_names_addRule, same.mem_names]
  mem_rules := by
    intro other added
    rw [mem_rules_addRule, mem_rules_addRule, same.mem_rules]

theorem keepRules (keep : Rule → Bool) : (g.keepRules keep).SameRules (h.keepRules keep) where
  start_eq := same.start_eq
  mem_names := by
    intro name
    rw [names_keepRules, names_keepRules]
    exact same.mem_names name
  mem_rules := by
    intro name rule
    rw [rules_keepRules, rules_keepRules, List.mem_filter, List.mem_filter, same.mem_rules]

theorem keepEntries (keep : Char → Bool) :
    (g.keepEntries (keep ·.name)).SameRules (h.keepEntries (keep ·.name)) where
  start_eq := same.start_eq
  mem_names := by
    intro name
    rw [mem_names_keepEntries, mem_names_keepEntries, same.mem_names, same.start_eq]
  mem_rules := by
    intro name rule
    rw [rules_keepEntries, rules_keepEntries, same.start_eq]
    split
    · exact same.mem_rules name rule
    · exact Iff.rfl

/-! ## Analyses -/

/-- The order of the rules does not matter to any language. -/
theorem language_eq : g.language = h.language := by
  apply le_antisymm
  · exact language_le_of_rules_subset fun name rule ↦ (same.mem_rules name rule).1
  · exact language_le_of_rules_subset fun name rule ↦ (same.mem_rules name rule).2

theorem mem_nullable_iff : name ∈ g.nullable ↔ name ∈ h.nullable := by
  rw [Grammar.mem_nullable_iff, Grammar.mem_nullable_iff, same.language_eq]

/-- The order of the rules does not matter to the fate of the empty word. -/
theorem isStartNullable_eq : g.isStartNullable = h.isStartNullable := by
  rw [isStartNullable, same.start_eq]
  exact contains_congr (fun _ ↦ same.mem_nullable_iff) h.start

/-- A nonterminal stays barren when the rules are reordered. -/
theorem barren_subset : g.barren ⊆ h.barren := by
  intro name hname
  refine mem_barren_of_mem_barren (fun _ ↦ True) ?_ ?_ ?_ name hname trivial
  · exact fun name _ ↦ (same.mem_names name).1
  · exact fun name _ rule ↦ (same.mem_rules name rule).2
  · exact fun _ _ _ _ _ _ ↦ trivial

/-- The unit rules are the same, so the chains of them are. -/
theorem unitStep_eq : g.UnitStep = h.UnitStep := by
  funext name other
  exact propext (same.mem_rules name _)

/-- The same cycles are found, although they may be found in another order. -/
theorem mem_unitCycles_iff (nodup : g.names.Nodup) (nodup' : h.names.Nodup) {cycle : UnitCycle} :
    cycle ∈ g.unitCycles ↔ cycle ∈ h.unitCycles := by
  rw [mem_unitCycles nodup, mem_unitCycles nodup', UnitChain, UnitChain, same.unitStep_eq]

/-! ## Eliminations -/

theorem mem_barren_iff : name ∈ g.barren ↔ name ∈ h.barren :=
  ⟨fun hname ↦ same.barren_subset hname, fun hname ↦ same.symm.barren_subset hname⟩

theorem withVariants (nodup : g.names.Nodup) (nodup' : h.names.Nodup) :
    g.withVariants.SameRules h.withVariants := by
  apply same.rebuild
  intro p
  have hvariants (rule : Rule) : Rule.variants g.nullable rule = Rule.variants h.nullable rule :=
    Rule.variants_congr fun _ _ ↦ same.mem_nullable_iff
  simp only [List.mem_flatMap, same.mem_productions_iff nodup nodup', hvariants]

theorem withoutBarren : g.withoutBarren.SameRules h.withoutBarren := by
  have hmentions : Rule.mentionsAny g.barren = Rule.mentionsAny h.barren :=
    funext fun _ ↦ Rule.mentionsAny_congr fun _ _ ↦ same.mem_barren_iff
  have hbarren : g.barren.contains = h.barren.contains :=
    funext (contains_congr fun _ ↦ same.mem_barren_iff)
  rw [Grammar.withoutBarren, Grammar.withoutBarren, hmentions, hbarren]
  exact (same.keepRules _).keepEntries (!h.barren.contains ·)

theorem withoutEmptyRules (nodup : g.names.Nodup) (nodup' : h.names.Nodup) (policy : EmptyWordPolicy) :
    (g.withoutEmptyRules policy).SameRules (h.withoutEmptyRules policy) := by
  have hpruned := (same.withVariants nodup nodup').withoutBarren
  simp only [Grammar.withoutEmptyRules, same.isStartNullable_eq]
  split
  · rw [same.start_eq]
    exact hpruned.addRule _ _
  · exact hpruned

theorem withoutUnitRules (nodup : g.names.Nodup) (nodup' : h.names.Nodup) :
    g.withoutUnitRules.SameRules h.withoutUnitRules := by
  apply same.rebuild
  rintro ⟨name, rule⟩
  have hrule := @mem_rules_withoutUnitRules g name nodup rule
  have hrule' := @mem_rules_withoutUnitRules h name nodup' rule
  rw [Grammar.withoutUnitRules, mem_rules_rebuild] at hrule hrule'
  rw [hrule, hrule', UnitChain, UnitChain, same.unitStep_eq]
  simp only [same.mem_rules]

/-- The elimination of useless symbols respects sets of rules. -/
theorem withoutUselessSymbols (wf : g.WellFormed) (wf' : h.WellFormed) (hstart : g.start ∈ g.names) :
    g.withoutUselessSymbols.SameRules h.withoutUselessSymbols := by
  have drops : h.DropsWordless g := by
    refine ⟨same.start_eq, fun name rule ↦ (same.mem_rules name rule).1, fun name rule mem _ ↦ ?_⟩
    exact (same.mem_rules name rule).2 mem
  have hstart' : h.start ∈ h.names := same.start_eq ▸ (same.mem_names g.start).1 hstart
  exact drops.sameRules wf' wf hstart' hstart

/-- Each elimination respects sets of rules, and so do the three of them one after another. -/
theorem cleaned (nodup : g.names.Nodup) (nodup' : h.names.Nodup) (policy : EmptyWordPolicy) :
    (g.cleaned policy).SameRules (h.cleaned policy) := by
  have hempty := same.withoutEmptyRules nodup nodup' policy
  have hunit := hempty.withoutUnitRules (wellFormed_withoutEmptyRules g policy).names_nodup
    (wellFormed_withoutEmptyRules h policy).names_nodup
  have fronted : (g.withoutEmptyRules policy).withoutUnitRules.Fronted := fronted_rebuild _ _
  exact hunit.withoutUselessSymbols (wellFormed_withoutUnitRules _) (wellFormed_withoutUnitRules _)
    fronted.start_mem

end SameRules

/-! ## Main result -/

/-- What a simplification gives depends on the rules alone, whatever the order of the nonterminals and of
their rules. -/
theorem canonicalRules_simplify_congr (wf : g.WellFormed) (wf' : h.WellFormed)
    (hstart : g.start = h.start) (hrules : g.canonicalRules = h.canonicalRules)
    (policy : EmptyWordPolicy) :
    (g.simplify policy).grammar.canonicalRules = (h.simplify policy).grammar.canonicalRules ∧
      (g.simplify policy).grammar.start = (h.simplify policy).grammar.start ∧
      (g.simplify policy).emptyWord = (h.simplify policy).emptyWord ∧
      ∀ cycle, cycle ∈ (g.simplify policy).unitCycles ↔ cycle ∈ (h.simplify policy).unitCycles := by
  have ⟨hnames, hmem⟩ := (canonicalRules_eq_iff wf wf').1 hrules
  have same : g.SameRules h := ⟨hstart, hnames, hmem⟩
  have hcleaned := same.cleaned wf.names_nodup wf'.names_nodup policy
  have hempty := same.withoutEmptyRules wf.names_nodup wf'.names_nodup policy
  refine ⟨?_, hcleaned.start_eq, ?_, fun cycle ↦ ?_⟩
  · exact hcleaned.canonicalRules_eq (wellFormed_cleaned g policy) (wellFormed_cleaned h policy)
  · simp only [simplify, same.isStartNullable_eq]
  · exact hempty.mem_unitCycles_iff (wellFormed_withoutEmptyRules g policy).names_nodup
      (wellFormed_withoutEmptyRules h policy).names_nodup

/-- The tangled grammar with its nonterminals and their rules in another order. -/
def retangled : Grammar :=
  ⟨[⟨'C', [[.terminal 'c'], [.terminal 'c', .nonterminal 'C']]⟩,
    ⟨'A', [[.terminal 'c'], [.nonterminal 'B', .nonterminal 'A'], [.nonterminal 'S']]⟩,
    ⟨'S', [[], [.nonterminal 'A'], [.terminal 'a', .nonterminal 'S', .terminal 'b']]⟩,
    ⟨'B', [[.nonterminal 'B', .terminal 'b']]⟩], 'S'⟩

/-- The same grammar with its entries and rules in another order. -/
theorem canonicalRules_simplify_congr_retangled :
    retangled.canonicalRules = tangled.canonicalRules ∧
      (retangled.simplify .drop).grammar.canonicalRules = untangled.canonicalRules ∧
      (retangled.simplify .drop).emptyWord = .dropped ∧
      ⟨'A', 'S'⟩ ∈ (retangled.simplify .drop).unitCycles := by
  have wf : retangled.WellFormed := ⟨by decide, by decide⟩
  have wf' : tangled.WellFormed := ⟨by decide, by decide⟩
  have hrules : retangled.canonicalRules = tangled.canonicalRules := by decide
  have ⟨hcanonical, _, hfate, hcycles⟩ := canonicalRules_simplify_congr wf wf' rfl hrules .drop
  rw [simplify_tangled] at hcanonical hfate hcycles
  exact ⟨hrules, hcanonical, hfate, (hcycles _).2 (by decide)⟩

end Grammar

end GrammarForms
