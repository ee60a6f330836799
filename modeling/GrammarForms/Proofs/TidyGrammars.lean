import GrammarForms.Proofs.RuleSets
import GrammarForms.Proofs.Usefulness

/-!
# Tidy Grammars

A grammar without unit rules whose empty rules are where a policy puts them has nothing for the first
two eliminations to do: its nullable nonterminals are those with an empty rule, and no rule mentions
them.  The elimination of empty rules drops at most rules that mention a nonterminal without words.
These go with the useless symbols anyway, so the three eliminations together remove the useless
symbols and nothing else.
-/

namespace GrammarForms

/-! ## Rules without anything to erase -/

namespace Rule

variable {nullable : List Char} {rule erased : Rule}

/-- Where nothing can be erased the rule is its only erasure. -/
theorem mem_erasures_of_notMem (h : ∀ name ∈ nonterminals rule, name ∉ nullable) :
    erased ∈ erasures nullable rule ↔ erased = rule := by
  induction rule generalizing erased with
  | nil => simp [erasures]
  | cons symbol rest ih =>
    have hrest : ∀ name ∈ nonterminals rest, name ∉ nullable := fun name hname ↦
      h name (mem_nonterminals_cons_of_mem symbol hname)
    rw [mem_erasures_cons]
    constructor
    · rintro (⟨shorter, hshorter, rfl⟩ | ⟨name, hname, rfl, _⟩)
      · rw [(ih hrest).1 hshorter]
      · exact absurd hname (h name (mem_nonterminals_cons_self name rest))
    · rintro rfl
      exact Or.inl ⟨rest, (ih hrest).2 rfl, rfl⟩

theorem mem_variants_of_notMem (h : ∀ name ∈ nonterminals rule, name ∉ nullable) :
    erased ∈ variants nullable rule ↔ erased = rule ∧ rule ≠ [] := by
  rw [mem_variants, mem_erasures_of_notMem h]
  constructor
  · rintro ⟨rfl, hne⟩
    exact ⟨rfl, hne⟩
  · rintro ⟨rfl, hne⟩
    exact ⟨rfl, hne⟩

end Rule

namespace Grammar

variable {g h : Grammar} {policy : EmptyWordPolicy} {supply : NameSupply} {name : Char} {rule : Rule}

/-! ## Useless symbols -/

/-- Fewer rules reach no more. -/
theorem reachable_subset (nodup : h.names.Nodup) (hstart : g.start = h.start)
    (subset : ∀ name, g.rules name ⊆ h.rules name) : g.reachable ⊆ h.reachable := by
  intro name
  revert name
  apply reachable_induction
  · exact hstart ▸ h.start_mem_reachable
  · exact fun source hsource rule mem other ↦ mem_reachable_of_rule nodup hsource (subset source mem)

/-- The rules of `g`, apart from some that mention a nonterminal without words. -/
structure DropsWordless (g h : Grammar) : Prop where
  start_eq : h.start = g.start
  subset : ∀ name, h.rules name ⊆ g.rules name
  complete : ∀ name, ∀ rule ∈ g.rules name,
    Rule.isGenerating g.generating rule = true → rule ∈ h.rules name

namespace DropsWordless

variable (drops : g.DropsWordless h)

include drops

theorem language_eq : h.language = g.language := by
  apply language_eq_of_wordless drops.subset
  intro name rule mem
  by_cases hrule : Rule.isGenerating g.generating rule = true
  · exact Or.inl (drops.complete name rule mem hrule)
  · refine Or.inr fun word hword ↦ hrule (Rule.isGenerating_iff.2 fun other hother ↦ ?_)
    exact mem_generating_iff.2 (Rule.exists_mem_words.1 ⟨word, hword⟩ other hother)

/-- The nonterminals with a word are the same in both grammars. -/
theorem mem_generating : name ∈ h.generating ↔ name ∈ g.generating := by
  rw [mem_generating_iff, mem_generating_iff, drops.language_eq]

theorem isGenerating_iff :
    Rule.isGenerating h.generating rule = true ↔ Rule.isGenerating g.generating rule = true := by
  rw [Rule.isGenerating_iff, Rule.isGenerating_iff]
  simp only [drops.mem_generating]

theorem mem_rules_keepGenerating :
    rule ∈ h.keepGenerating.rules name ↔ rule ∈ g.keepGenerating.rules name := by
  rw [rules_keepGenerating, rules_keepGenerating, List.mem_filter, List.mem_filter,
    drops.isGenerating_iff]
  constructor
  · exact fun ⟨mem, hrule⟩ ↦ ⟨drops.subset name mem, hrule⟩
  · exact fun ⟨mem, hrule⟩ ↦ ⟨drops.complete name rule mem hrule, hrule⟩

/-- Among generating rules the same nonterminals are reached. -/
theorem mem_reachable (wf : g.WellFormed) (wf' : h.WellFormed) :
    name ∈ h.keepGenerating.reachable ↔ name ∈ g.keepGenerating.reachable := by
  have hstart : h.keepGenerating.start = g.keepGenerating.start := drops.start_eq
  constructor
  · apply reachable_subset (nodup_keepGenerating wf.names_nodup) hstart
    exact fun name rule ↦ drops.mem_rules_keepGenerating.1
  · apply reachable_subset (nodup_keepGenerating wf'.names_nodup) hstart.symm
    exact fun name rule ↦ drops.mem_rules_keepGenerating.2

/-- With the useless symbols all the difference goes. -/
theorem sameRules (wf : g.WellFormed) (wf' : h.WellFormed) (hmem : g.start ∈ g.names)
    (hmem' : h.start ∈ h.names) : h.withoutUselessSymbols.SameRules g.withoutUselessSymbols where
  start_eq := drops.start_eq
  mem_names := by
    intro name
    rw [mem_names_withoutUselessSymbols, mem_names_withoutUselessSymbols, drops.mem_reachable wf wf',
      drops.mem_generating, drops.start_eq]
    refine and_congr_left fun ⟨hkept, _⟩ ↦ ?_
    rcases hkept with e | hname
    · rw [e]
      exact iff_of_true (drops.start_eq ▸ hmem') hmem
    · exact iff_of_true (leastSet_subset_candidates (drops.mem_generating.2 hname))
        (leastSet_subset_candidates hname)
  mem_rules := by
    intro name rule
    have hkept := @mem_rules_keepGenerating g h name rule drops
    rw [rules_keepGenerating, rules_keepGenerating, List.mem_filter, List.mem_filter] at hkept
    rw [mem_rules_withoutUselessSymbols, mem_rules_withoutUselessSymbols, drops.mem_reachable wf wf',
      and_left_comm, hkept, and_left_comm]

end DropsWordless

section

variable (useful : g.Useful) (wf : g.WellFormed) (closed : g.Closed)

include useful wf closed

theorem Useful.isGenerating_of_mem_rules (mem : rule ∈ g.rules name) :
    Rule.isGenerating g.generating rule = true := by
  apply Rule.isGenerating_iff.2
  intro other hother
  have huses := uses_of_mem_rules wf.names_nodup mem (Rule.mem_nonterminals.1 hother)
  exact mem_generating_iff.2 (useful.generates other (closed.mem_names huses))

theorem Useful.mem_reachable_keepGenerating (hname : name ∈ g.names) :
    name ∈ g.keepGenerating.reachable := by
  have hstart : g.start = g.keepGenerating.start := rfl
  apply reachable_subset (nodup_keepGenerating wf.names_nodup) hstart _ (useful.reached name hname)
  intro name rule mem
  rw [rules_keepGenerating]
  exact List.mem_filter.2 ⟨mem, useful.isGenerating_of_mem_rules wf closed mem⟩

/-- Where every nonterminal is useful, nothing is useless. -/
theorem Useful.sameRules : g.withoutUselessSymbols.SameRules g where
  start_eq := rfl
  mem_names := by
    intro name
    rw [mem_names_withoutUselessSymbols]
    refine and_iff_left_of_imp fun hname ↦ ⟨Or.inr ?_, ?_⟩
    · exact mem_generating_iff.2 (useful.generates name hname)
    · exact useful.mem_reachable_keepGenerating wf closed hname
  mem_rules := by
    intro name rule
    rw [mem_rules_withoutUselessSymbols]
    refine and_iff_left_of_imp fun mem ↦ ⟨?_, useful.isGenerating_of_mem_rules wf closed mem⟩
    exact useful.mem_reachable_keepGenerating wf closed (mem_names_of_mem_rules mem)

end

/-- Without useless symbols there is nothing to eliminate. -/
theorem UsefulOrBare.sameRules (useful : g.UsefulOrBare) (wf : g.WellFormed) (closed : g.Closed) :
    g.withoutUselessSymbols.SameRules g := by
  rcases useful with useful | hbare
  · exact useful.sameRules wf closed
  · have hstart : g.start ∉ g.generating := by
      rw [hbare]
      exact start_notMem_generating_ofStart g.start
    rw [withoutUselessSymbols_eq_ofStart wf.names_nodup closed.start_mem hstart, ← hbare]
    exact ⟨rfl, fun _ ↦ Iff.rfl, fun _ _ ↦ Iff.rfl⟩

/-! ## Empty rules and unit rules -/

/-- There are no unit rules, and only a start symbol that no rule mentions may have the empty rule. -/
structure Tidy (g : Grammar) (policy : EmptyWordPolicy) : Prop extends g.WellFormed where
  start_mem : g.start ∈ g.names
  not_unit : ∀ name, ∀ rule ∈ g.rules name, Rule.soleNonterminal? rule = none
  eq_start : ∀ name, [] ∈ g.rules name → name = g.start
  keepAtStart : [] ∈ g.rules g.start → policy = .keepAtStart
  unmentioned : [] ∈ g.rules g.start →
    ∀ name, ∀ rule ∈ g.rules name, g.start ∉ Rule.nonterminals rule

namespace Tidy

variable (tidy : g.Tidy policy)

include tidy

/-- A nonterminal that a rule mentions has no empty rule. -/
theorem nil_notMem_of_mentioned (mem : rule ∈ g.rules name) {other : Char}
    (h : other ∈ Rule.nonterminals rule) : [] ∉ g.rules other := by
  intro hnil
  have hstart := tidy.eq_start other hnil
  subst hstart
  exact tidy.unmentioned hnil name rule mem h

/-- In a tidy grammar only the empty rule itself makes a nonterminal nullable. -/
theorem mem_nullable_iff_nil_mem : name ∈ g.nullable ↔ [] ∈ g.rules name := by
  rw [mem_nullable_iff]
  constructor
  · let direct : Meaning := fun name ↦ {word | word = [] → [] ∈ g.rules name}
    have model : g.IsModel direct := by
      rintro name rule mem word hword rfl
      cases rule with
      | nil => exact mem
      | cons symbol tail =>
        have ⟨other, hsymbol, hnil⟩ := Rule.nil_mem_words.1 hword symbol List.mem_cons_self
        subst hsymbol
        have hmentioned := Rule.mem_nonterminals_cons_self other tail
        exact absurd (hnil rfl) (tidy.nil_notMem_of_mentioned mem hmentioned)
    exact fun h ↦ model.language_le name h rfl
  · exact fun h ↦ g.isModel_language name [] h rfl

theorem notMem_nullable_of_mentioned (mem : rule ∈ g.rules name) :
    ∀ other ∈ Rule.nonterminals rule, other ∉ g.nullable := fun _ hother h ↦
  tidy.nil_notMem_of_mentioned mem hother (tidy.mem_nullable_iff_nil_mem.1 h)

/-- A tidy grammar keeps the empty word if it has the empty rule. -/
theorem keepsEmptyWord_iff : g.KeepsEmptyWord policy ↔ [] ∈ g.rules g.start := by
  rw [KeepsEmptyWord, isStartNullable, List.contains_iff_mem, tidy.mem_nullable_iff_nil_mem]
  exact and_iff_right_of_imp tidy.keepAtStart

/-- In a tidy grammar a rule is its only variant, and the empty rule has none. -/
theorem mem_rules_withVariants_iff :
    rule ∈ g.withVariants.rules name ↔ rule ∈ g.rules name ∧ rule ≠ [] := by
  rw [mem_rules_withVariants tidy.names_nodup]
  constructor
  · rintro ⟨source, mem, hvariant⟩
    have hkept := tidy.notMem_nullable_of_mentioned mem
    have ⟨e, hne⟩ := (Rule.mem_variants_of_notMem hkept).1 hvariant
    subst e
    exact ⟨mem, hne⟩
  · rintro ⟨mem, hne⟩
    have hkept := tidy.notMem_nullable_of_mentioned mem
    exact ⟨rule, mem, (Rule.mem_variants_of_notMem hkept).2 ⟨rfl, hne⟩⟩

theorem rules_withoutEmptyRules_subset (name : Char) :
    (g.withoutEmptyRules policy).rules name ⊆ g.rules name := by
  intro rule mem
  rcases mem_rules_withoutEmptyRules.1 mem with mem | ⟨e, hrule, hkeeps⟩
  · exact (tidy.mem_rules_withVariants_iff.1 (rules_withoutBarren_subset mem)).1
  · subst e hrule
    exact tidy.keepsEmptyWord_iff.1 hkeeps

/-- Rules all of whose nonterminals have words stay: none of these nonterminals is barren. -/
theorem mem_rules_withoutEmptyRules_of_isGenerating (mem : rule ∈ g.rules name)
    (hrule : Rule.isGenerating g.generating rule = true) :
    rule ∈ (g.withoutEmptyRules policy).rules name := by
  by_cases hne : rule = []
  · subst hne
    have hstart := tidy.eq_start name mem
    subst hstart
    exact mem_rules_withoutEmptyRules.2 (Or.inr ⟨rfl, rfl, tidy.keepsEmptyWord_iff.2 mem⟩)
  · have hvariant := tidy.mem_rules_withVariants_iff.2 ⟨mem, hne⟩
    -- What a rule mentions is not nullable, so its words are not lost with the empty one.
    have hwords : ∀ other ∈ Rule.nonterminals rule, ∃ word, word ∈ g.withVariants.language other := by
      intro other hother
      have ⟨word, hword⟩ := mem_generating_iff.1 (Rule.isGenerating_iff.1 hrule other hother)
      refine ⟨word, (mem_language_withVariants tidy.names_nodup).2 ⟨hword, ?_⟩⟩
      intro hnil
      exact tidy.notMem_nullable_of_mentioned mem other hother (mem_nullable_iff.2 (hnil ▸ hword))
    have ⟨word, hword⟩ := Rule.exists_mem_words.2 hwords
    refine mem_rules_withoutEmptyRules.2 (Or.inl ?_)
    rw [rules_withoutBarren]
    refine List.mem_filter.2 ⟨hvariant, ?_⟩
    rw [Bool.not_eq_true', ← Bool.not_eq_true]
    have hbarren : ∀ other ∈ g.withVariants.barren, ∀ word, word ∉ g.withVariants.language other :=
      fun _ hother _ ↦ notMem_language_of_mem_barren hother
    exact fun h ↦ notMem_words_of_mentionsAny hbarren h hword

theorem not_unit_withoutEmptyRules (mem : rule ∈ (g.withoutEmptyRules policy).rules name) :
    Rule.soleNonterminal? rule = none :=
  tidy.not_unit name rule (tidy.rules_withoutEmptyRules_subset name mem)

/-- In a tidy grammar there is no unit rule to follow. -/
theorem mem_rules_withoutUnitRules_iff :
    rule ∈ (g.withoutEmptyRules policy).withoutUnitRules.rules name ↔
      rule ∈ (g.withoutEmptyRules policy).rules name := by
  rw [mem_rules_withoutUnitRules (wellFormed_withoutEmptyRules g policy).names_nodup]
  constructor
  · rintro ⟨_, source, chain, mem⟩
    rcases chain.cases_head with e | ⟨other, step, _⟩
    · exact e ▸ mem
    · cases tidy.not_unit_withoutEmptyRules step
  · exact fun mem ↦ ⟨tidy.not_unit_withoutEmptyRules mem, name, .refl, mem⟩

/-- In a tidy grammar there is no unit cycle. -/
theorem cyclesMet_eq_nil : g.cyclesMet policy = [] := by
  have hnone (root : Char) : (g.withoutEmptyRules policy).unitCyclesAt root = [] :=
    unitCyclesAt_eq_nil (wellFormed_withoutEmptyRules g policy).names_nodup fun name step ↦ by
      cases tidy.not_unit_withoutEmptyRules step
  rw [cyclesMet, unitCycles, List.flatMap_eq_nil_iff.2 fun root _ ↦ hnone root]
  rfl

/-- All that is left for the eliminations are the useless symbols. -/
theorem sameRules_cleaned : (g.cleaned policy).SameRules g.withoutUselessSymbols := by
  have fronted : (g.withoutEmptyRules policy).withoutUnitRules.Fronted := fronted_rebuild _ _
  have drops : g.DropsWordless (g.withoutEmptyRules policy).withoutUnitRules := by
    constructor
    · rw [start_withoutUnitRules, start_withoutEmptyRules]
    · intro name rule mem
      exact tidy.rules_withoutEmptyRules_subset name (tidy.mem_rules_withoutUnitRules_iff.1 mem)
    · intro name rule mem hrule
      apply tidy.mem_rules_withoutUnitRules_iff.2
      exact tidy.mem_rules_withoutEmptyRules_of_isGenerating mem hrule
  have wf' := wellFormed_withoutUnitRules (g.withoutEmptyRules policy)
  exact drops.sameRules tidy.toWellFormed wf' tidy.start_mem fronted.start_mem

end Tidy

end Grammar

end GrammarForms
