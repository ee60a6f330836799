import GrammarForms.Normalization
import GrammarForms.Proofs.EmptyRules
import GrammarForms.Proofs.Naming
import GrammarForms.Proofs.UnitRules
import GrammarForms.Proofs.UselessSymbols

/-!
# The Three Eliminations in a Row

Empty rules, unit rules and useless symbols are eliminated in this order.  The start symbol keeps its
words, the empty word only where the policy says so.  The result has no unit rule, and each rule is put
together from symbols of one rule of the source.  An empty rule comes from the start symbol; where no
rule mentions the start symbol it has not spread any further.
-/

namespace GrammarForms.Grammar

variable {g : Grammar} {policy : EmptyWordPolicy} {name : Char} {rule : Rule} {word : List Char}

theorem wellFormed_withoutBarren_withVariants (g : Grammar) : g.withVariants.withoutBarren.WellFormed :=
  ((wellFormed_rebuild g _).keepRules _).keepEntries _

theorem wellFormed_withoutEmptyRules (g : Grammar) (policy : EmptyWordPolicy) :
    (g.withoutEmptyRules policy).WellFormed := by
  have hpruned := wellFormed_withoutBarren_withVariants g
  unfold withoutEmptyRules
  split
  · exact hpruned.addRule _ _
  · exact hpruned

@[simp]
theorem start_cleaned (g : Grammar) (policy : EmptyWordPolicy) : (g.cleaned policy).start = g.start := by
  simp [cleaned]

/-- The cleaned grammar is well-formed whatever it was made from. -/
theorem wellFormed_cleaned (g : Grammar) (policy : EmptyWordPolicy) : (g.cleaned policy).WellFormed :=
  wellFormed_withoutUselessSymbols (wellFormed_withoutUnitRules _)

/-- Every nonterminal that the cleaned grammar mentions has an entry. -/
theorem closed_cleaned (g : Grammar) (policy : EmptyWordPolicy) : (g.cleaned policy).Closed := by
  apply closed_withoutUselessSymbols (wellFormed_withoutUnitRules _).names_nodup
  rw [start_withoutUnitRules, withoutUnitRules, mem_names_rebuild]
  exact Or.inl rfl

theorem names_cleaned_subset : (g.cleaned policy).names ⊆ g.start :: g.names := by
  intro name h
  have hunit := names_withoutUnitRules_subset (mem_names_withoutUselessSymbols.1 h).1
  rw [start_withoutEmptyRules] at hunit
  rcases List.mem_cons.1 hunit with rfl | hempty
  · exact List.mem_cons_self
  · exact names_withoutEmptyRules_subset hempty

/-- Cleaning loses the empty word when it is to be dropped, and no other word in any case. -/
theorem accepts_cleaned (nodup : g.names.Nodup) :
    (g.cleaned policy).Accepts word ↔ g.Accepts word ∧ (word ≠ [] ∨ policy = .keepAtStart) := by
  calc
    _ ↔ (g.withoutEmptyRules policy).withoutUnitRules.Accepts word :=
      accepts_withoutUselessSymbols (wellFormed_withoutUnitRules _).names_nodup
    _ ↔ (g.withoutEmptyRules policy).Accepts word := by
      rw [accepts_iff, start_withoutUnitRules,
        language_withoutUnitRules (wellFormed_withoutEmptyRules g policy).names_nodup, accepts_iff]
    _ ↔ g.Accepts word ∧ (word ≠ [] ∨ policy = .keepAtStart) := accepts_withoutEmptyRules nodup

/-! ## Rules of the result -/

/-- A rule that survives is no unit rule, and a chain of unit rules led to where it came from. -/
theorem exists_chain_of_mem_rules_cleaned (mem : rule ∈ (g.cleaned policy).rules name) :
    Rule.soleNonterminal? rule = none ∧ ∃ source,
      (g.withoutEmptyRules policy).UnitChain name source ∧
        rule ∈ (g.withoutEmptyRules policy).rules source :=
  (mem_rules_withoutUnitRules (wellFormed_withoutEmptyRules g policy).names_nodup).1
    (mem_rules_withoutUselessSymbols.1 mem).1

/-- No rule of the cleaned grammar mentions more than some rule of the original. -/
theorem exists_source_of_mem_rules_cleaned (nodup : g.names.Nodup) (hne : rule ≠ [])
    (mem : rule ∈ (g.cleaned policy).rules name) :
    ∃ left, ∃ source ∈ g.rules left, Rule.nonterminals rule ⊆ Rule.nonterminals source := by
  obtain ⟨-, left, -, mem⟩ := exists_chain_of_mem_rules_cleaned mem
  obtain ⟨source, hsource, hvariant⟩ := exists_variant_of_mem_rules_withoutEmptyRules nodup hne mem
  exact ⟨left, source, hsource, Rule.nonterminals_subset_of_mem_variants hvariant⟩

theorem notMem_nonterminals_cleaned (nodup : g.names.Nodup) {other : Char}
    (h : ∀ left, ∀ source ∈ g.rules left, other ∉ Rule.nonterminals source)
    (mem : rule ∈ (g.cleaned policy).rules name) : other ∉ Rule.nonterminals rule := by
  intro hother
  have hne : rule ≠ [] := by
    rintro rfl
    simp at hother
  obtain ⟨left, source, hsource, hsubset⟩ := exists_source_of_mem_rules_cleaned nodup hne mem
  exact h left source hsource (hsubset hother)

theorem covers_cleaned {supply : NameSupply} (nodup : g.names.Nodup) (covers : supply.Covers g)
    (policy : EmptyWordPolicy) : supply.Covers (g.cleaned policy) where
  start_mem := by
    rw [start_cleaned]
    exact covers.start_mem
  names_subset := by
    intro name hname
    rcases List.mem_cons.1 (names_cleaned_subset hname) with rfl | hname
    · exact covers.start_mem
    · exact covers.names_subset hname
  mentioned := by
    intro name rule mem other hother
    by_contra htaken
    refine notMem_nonterminals_cleaned nodup (fun left source hsource h ↦ htaken ?_) mem hother
    exact covers.mentioned left source hsource h

/-- The start symbol has the empty rule after cleaning exactly if the empty word is kept. -/
theorem nil_mem_rules_cleaned_start (nodup : g.names.Nodup) :
    [] ∈ (g.cleaned policy).rules g.start ↔ g.KeepsEmptyWord policy := by
  constructor
  · intro mem
    obtain ⟨-, source, -, mem⟩ := exists_chain_of_mem_rules_cleaned mem
    exact ((nil_mem_rules_withoutEmptyRules nodup).1 mem).2
  · intro hkeeps
    refine mem_rules_withoutUselessSymbols.2 ⟨?_, ?_, rfl⟩
    · apply (mem_rules_withoutUnitRules (wellFormed_withoutEmptyRules g policy).names_nodup).2
      exact ⟨rfl, g.start, .refl, (nil_mem_rules_withoutEmptyRules nodup).2 ⟨rfl, hkeeps⟩⟩
    · simpa using start_mem_reachable (g.withoutEmptyRules policy).withoutUnitRules.keepGenerating

/-- An empty rule spreads along unit rules only, so it stays where it is if no rule mentions the start
symbol. -/
theorem eq_start_of_nil_mem_rules_cleaned (nodup : g.names.Nodup)
    (h : ∀ left, ∀ source ∈ g.rules left, g.start ∉ Rule.nonterminals source)
    (mem : [] ∈ (g.cleaned policy).rules name) : name = g.start := by
  obtain ⟨-, source, chain, mem⟩ := exists_chain_of_mem_rules_cleaned mem
  obtain ⟨rfl, -⟩ := (nil_mem_rules_withoutEmptyRules nodup).1 mem
  rcases chain.cases_tail with e | ⟨last, -, step⟩
  · exact e.symm
  · obtain ⟨source, hsource, hvariant⟩ :=
      exists_variant_of_mem_rules_withoutEmptyRules nodup (List.cons_ne_nil _ _) step
    refine absurd ?_ (h last source hsource)
    exact Rule.nonterminals_subset_of_mem_variants hvariant
      (Rule.mem_nonterminals.2 (List.mem_singleton_self _))

end GrammarForms.Grammar
