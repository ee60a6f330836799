import GrammarForms.Proofs.Cleaning
import GrammarForms.Proofs.Reading
import Mathlib

/-!
# Simplification

A simplified grammar accepts the words of the grammar it was made from, the empty word only where the
policy keeps it.  It has no unit rule, and without a kept empty word no empty rule.  Every nonterminal
is useful, unless there is no word at all and the start symbol alone is left.

A kept empty word does not always stay with the start symbol.  The empty rule is one of the rules that
the elimination of unit rules copies, so a nonterminal whose chain of unit rules leads to the start
symbol gets it as well.
-/

namespace GrammarForms.Grammar

variable {g : Grammar} {policy : EmptyWordPolicy} {name : Char} {word : List Char} {text : String}

/-! ## The empty word and the empty rule -/

/-- Unless it is dropped the empty word is not lost. -/
theorem ne_nil_or_keeps_of_accepts (h : EmptyWordFate.of g.isStartNullable policy ≠ .dropped)
    (accepts : g.Accepts word) : word ≠ [] ∨ policy = .keepAtStart := by
  by_cases hword : word = []
  · right
    rw [hword, ← isStartNullable_iff] at accepts
    cases policy with
    | drop => exact absurd (EmptyWordFate.of_eq_dropped_iff.2 ⟨rfl, accepts⟩) h
    | keepAtStart => rfl
  · exact Or.inl hword

/-- The empty rule spreads along chains of unit rules, and in no other way. -/
theorem nil_mem_rules_cleaned (nodup : g.names.Nodup) :
    [] ∈ (g.cleaned policy).rules name ↔ g.KeepsEmptyWord policy ∧
      name ∈ (g.cleaned policy).names ∧ (g.withoutEmptyRules policy).UnitChain name g.start := by
  constructor
  · intro mem
    obtain ⟨_, source, chain, hsource⟩ := exists_chain_of_mem_rules_cleaned mem
    obtain ⟨hstart, keeps⟩ := (nil_mem_rules_withoutEmptyRules nodup).1 hsource
    exact ⟨keeps, mem_names_of_mem_rules mem, hstart ▸ chain⟩
  · rintro ⟨keeps, hname, chain⟩
    have hempty : [] ∈ (g.withoutEmptyRules policy).rules g.start :=
      (nil_mem_rules_withoutEmptyRules nodup).2 ⟨rfl, keeps⟩
    refine mem_rules_withoutUselessSymbols.2 ⟨?_, (mem_names_withoutUselessSymbols.1 hname).2.2, rfl⟩
    apply (mem_rules_withoutUnitRules (wellFormed_withoutEmptyRules g policy).names_nodup).2
    exact ⟨rfl, g.start, chain, hempty⟩

/-- Where the empty word is dropped, no empty rule is left. -/
theorem nil_notMem_rules_cleaned_drop (nodup : g.names.Nodup) :
    [] ∉ (g.cleaned .drop).rules name := by
  intro mem
  have ⟨⟨hpolicy, _⟩, _⟩ := (nil_mem_rules_cleaned nodup).1 mem
  cases hpolicy

/-- Cleaning leaves useful nonterminals only, or the bare start symbol where the language is empty.
-/
theorem useful_or_eq_ofStart_cleaned (g : Grammar) (policy : EmptyWordPolicy) :
    (∀ name ∈ (g.cleaned policy).names, (g.cleaned policy).Reaches name ∧
      ∃ word, (g.cleaned policy).Generates name word) ∨
    (∀ word, ¬(g.cleaned policy).Accepts word) ∧ g.cleaned policy = ofStart g.start := by
  have nodup := (wellFormed_withoutUnitRules (g.withoutEmptyRules policy)).names_nodup
  have hmem : (g.withoutEmptyRules policy).withoutUnitRules.start ∈
      (g.withoutEmptyRules policy).withoutUnitRules.names := by
    rw [withoutUnitRules, start_rebuild, mem_names_rebuild]
    exact Or.inl rfl
  rcases useful_or_eq_ofStart nodup hmem with useful | ⟨hempty, hbare⟩
  · exact Or.inl useful
  · right
    constructor
    · exact fun word accepts ↦ hempty word ((accepts_withoutUselessSymbols nodup).1 accepts)
    · rw [cleaned, hbare, start_withoutUnitRules, start_withoutEmptyRules]

/-! ## Main results -/

/-- Simplification keeps the language apart from a dropped empty word, and it leaves neither unit rules
nor useless nonterminals behind. -/
theorem accepts_simplify_and_useful (wf : g.WellFormed) (policy : EmptyWordPolicy) :
    ((g.simplify policy).emptyWord ≠ .dropped →
      ∀ word, (g.simplify policy).grammar.Accepts word ↔ g.Accepts word) ∧
    ((g.simplify policy).emptyWord = .dropped →
      ∀ word, (g.simplify policy).grammar.Accepts word ↔ g.Accepts word ∧ word ≠ []) ∧
    ((g.simplify policy).emptyWord = .dropped ↔ policy = .drop ∧ g.Accepts []) ∧
    (∀ p ∈ (g.simplify policy).grammar.productions, ∀ name, p.right ≠ [.nonterminal name]) ∧
    (policy = .drop → ∀ p ∈ (g.simplify policy).grammar.productions, p.right ≠ []) ∧
    ((∀ name ∈ (g.simplify policy).grammar.names, (g.simplify policy).grammar.Reaches name ∧
        ∃ word, (g.simplify policy).grammar.Generates name word) ∨
      (∀ word, ¬(g.simplify policy).grammar.Accepts word) ∧
        (g.simplify policy).grammar = ofStart g.start) := by
  have hgrammar : (g.simplify policy).grammar = g.cleaned policy := rfl
  have hfate : (g.simplify policy).emptyWord = .of g.isStartNullable policy := rfl
  have nodup := (wellFormed_cleaned g policy).names_nodup
  rw [hgrammar, hfate]
  refine ⟨fun h word ↦ ?_, fun h word ↦ ?_, ?_, fun p hp name hright ↦ ?_, ?_, ?_⟩
  · rw [accepts_cleaned wf.names_nodup]
    exact and_iff_left_of_imp (ne_nil_or_keeps_of_accepts h)
  · rw [accepts_cleaned wf.names_nodup, (EmptyWordFate.of_eq_dropped_iff.1 h).1]
    simp
  · rw [EmptyWordFate.of_eq_dropped_iff, isStartNullable_iff]
  · have hunit := (exists_chain_of_mem_rules_cleaned ((mem_productions nodup).1 hp)).1
    rw [hright] at hunit
    cases hunit
  · intro hpolicy p hp hright
    subst hpolicy
    have hrule := (mem_productions nodup).1 hp
    rw [hright] at hrule
    exact nil_notMem_rules_cleaned_drop wf.names_nodup hrule
  · exact useful_or_eq_ofStart_cleaned g policy

/-- A cycle of unit rules through a nullable start symbol, a nonterminal without words and one that
cannot be reached. -/
def tangled : Grammar :=
  ⟨[⟨'S', [[.nonterminal 'A'], [.terminal 'a', .nonterminal 'S', .terminal 'b'], []]⟩,
    ⟨'A', [[.nonterminal 'S'], [.nonterminal 'B', .nonterminal 'A'], [.terminal 'c']]⟩,
    ⟨'B', [[.nonterminal 'B', .terminal 'b']]⟩,
    ⟨'C', [[.terminal 'c', .nonterminal 'C'], [.terminal 'c']]⟩], 'S'⟩

def untangled : Grammar :=
  ⟨[⟨'S', [[.terminal 'c'], [.terminal 'a', .nonterminal 'S', .terminal 'b'],
      [.terminal 'a', .terminal 'b']]⟩], 'S'⟩

theorem simplify_tangled :
    tangled.simplify .drop = ⟨untangled, .dropped, [⟨'S', 'A'⟩, ⟨'A', 'S'⟩]⟩ := by
  cbv

/-- The cycle is gone, and with it no word but the empty one. -/
theorem accepts_simplify_and_useful_tangled :
    tangled.WellFormed ∧ (∀ word, untangled.Accepts word ↔ tangled.Accepts word ∧ word ≠ []) ∧
      ∃ word, untangled.Generates 'S' word := by
  have wf : tangled.WellFormed := ⟨by decide, by decide⟩
  have h := accepts_simplify_and_useful wf .drop
  rw [simplify_tangled] at h
  have ⟨_, hdropped, _, _, _, huseful⟩ := h
  refine ⟨wf, hdropped rfl, ?_⟩
  rcases huseful with huseful | ⟨_, hbare⟩
  · exact (huseful 'S' (by decide)).2
  · exact absurd hbare (by decide)

/-- The empty rule stays with the start symbol exactly where no chain of unit rules leads there from
another nonterminal that is left. -/
theorem nil_mem_rules_simplify_iff (read : Grammar.parse text = .ok g) :
    ([] ∈ (g.simplify .keepAtStart).grammar.rules (g.simplify .keepAtStart).grammar.start ↔
      g.start ∈ g.nullable) ∧
    (∀ name ≠ (g.simplify .keepAtStart).grammar.start,
      [] ∈ (g.simplify .keepAtStart).grammar.rules name ↔ g.start ∈ g.nullable ∧
        name ∈ (g.simplify .keepAtStart).grammar.names ∧
        (g.withoutEmptyRules .keepAtStart).UnitChain name g.start) := by
  have nodup := (wellFormed_of_parse read).names_nodup
  have hgrammar : (g.simplify .keepAtStart).grammar = g.cleaned .keepAtStart := rfl
  have hkeeps : g.KeepsEmptyWord .keepAtStart ↔ g.start ∈ g.nullable := by
    simp [KeepsEmptyWord, isStartNullable]
  rw [hgrammar, start_cleaned, nil_mem_rules_cleaned_start nodup, hkeeps]
  refine ⟨Iff.rfl, fun name _ ↦ ?_⟩
  rw [nil_mem_rules_cleaned nodup, hkeeps]

/-- A unit rule back to a nullable start symbol. -/
def returning : Grammar :=
  ⟨[⟨'S', [[.terminal 'a', .nonterminal 'A'], []]⟩, ⟨'A', [[.nonterminal 'S']]⟩], 'S'⟩

theorem parse_returning : Grammar.parse "S → aA | ε\nA → S" = .ok returning := by
  cbv

theorem simplify_returning :
    (returning.simplify .keepAtStart).grammar =
      ⟨[⟨'S', [[.terminal 'a', .nonterminal 'A'], [.terminal 'a'], []]⟩,
        ⟨'A', [[.terminal 'a', .nonterminal 'A'], [.terminal 'a'], []]⟩], 'S'⟩ := by
  cbv

/-- The unit rule back to the start symbol brings the restored empty rule along. -/
theorem nil_mem_rules_simplify_iff_returning :
    Grammar.parse "S → aA | ε\nA → S" = .ok returning ∧
      (returning.withoutEmptyRules .keepAtStart).UnitChain 'A' 'S' := by
  have ⟨_, hother⟩ := nil_mem_rules_simplify_iff parse_returning
  rw [simplify_returning] at hother
  exact ⟨parse_returning, ((hother 'A' (by decide)).1 (by decide)).2.2⟩

/-- The empty rule need not stay with the start symbol alone. -/
theorem nil_mem_rules_simplify_returning :
    ∃ g, Grammar.parse "S → aA | ε\nA → S" = .ok g ∧
      'A' ≠ (g.simplify .keepAtStart).grammar.start ∧
      [] ∈ (g.simplify .keepAtStart).grammar.rules 'A' := by
  refine ⟨returning, parse_returning, ?_⟩
  rw [simplify_returning]
  decide

end GrammarForms.Grammar
