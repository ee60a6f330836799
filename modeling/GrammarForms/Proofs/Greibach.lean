import GrammarForms.Proofs.BackSubstitution
import GrammarForms.Proofs.Cleaning
import GrammarForms.Proofs.Descent
import Mathlib

/-!
# Greibach Normal Form

A grammar in Greibach normal form accepts the nonempty words of the grammar it was made from, and every
rule begins with a terminal.

The eliminations leave neither empty rules nor unit rules, so the removal of left recursion leaves a
grounded grammar.  Back substitution ends there only when everything is settled, neither for want of
passes nor for want of a leader to replace.
-/

namespace GrammarForms.Grammar

variable {g : Grammar} {n : Normalization} {supply rest : NameSupply} {word : List Char}

/-- The conversion yields a grammar without left recursion and substitutes back in it. -/
theorem exists_unwound (run : g.toGreibach.outcome supply = (.ok n, rest)) :
    ∃ unwound, ((g.cleaned .drop).withoutLeftRecursion .withoutRepeater).outcome supply = (.ok unwound, rest) ∧
      n.grammar = unwound.backSubstitute ∧ n.emptyWord = .of g.isStartNullable .drop := by
  have ⟨unwound, middle, hunwound, hpure⟩ := Naming.outcome_bind_eq_ok.1 run
  have ⟨hn, hrest⟩ := Naming.outcome_pure_eq_ok.1 hpure
  subst hn hrest
  exact ⟨unwound, hunwound, rfl, rfl⟩

theorem keepsLed_cleaned (nodup : g.names.Nodup) {name : Char} {rule : Rule}
    (mem : rule ∈ (g.cleaned .drop).rules name) :
    Rule.KeepsLed (g.cleaned .drop).names rule := by
  have ⟨hunit, source, _, hsource⟩ := exists_chain_of_mem_rules_cleaned mem
  have hproduction : ⟨name, rule⟩ ∈ (g.cleaned .drop).productions :=
    (mem_productions (wellFormed_cleaned g .drop).names_nodup).2 mem
  refine Rule.keepsLed_of_subset ?_ hunit ((closed_cleaned g .drop).defined _ hproduction)
  intro hnil
  subst hnil
  have hkeeps := ((nil_mem_rules_withoutEmptyRules nodup).1 hsource).2
  cases hkeeps.1

/-! ## Main results -/

/-- The conversion keeps the language but for the empty word, and says whether the empty word was in it. -/
theorem language_toGreibach (wf : g.WellFormed) (closed : g.Closed)
    (taken : g.names ⊆ supply.taken) (run : g.toGreibach.outcome supply = (.ok n, rest)) :
    (∀ word, n.grammar.Accepts word ↔ g.Accepts word ∧ word ≠ []) ∧
      n.grammar.start = g.start ∧
      (g.Accepts [] → n.emptyWord = .dropped) ∧
      (¬g.Accepts [] → n.emptyWord = .absent) := by
  have covers := covers_cleaned wf.names_nodup
    (NameSupply.covers_of_closed wf.names_nodup closed taken) .drop
  have ⟨unwound, hunwound, hgrammar, hfate⟩ := exists_unwound run
  have hstart : unwound.start = g.start := by
    rw [start_withoutLeftRecursion hunwound, start_cleaned]
  rw [hgrammar, hfate, start_backSubstitute, hstart, ← isStartNullable_iff]
  refine ⟨fun word ↦ ?_, rfl, fun h ↦ ?_, fun h ↦ ?_⟩
  · have hlanguage := language_withoutLeftRecursion (wellFormed_cleaned g .drop).names_nodup covers
      hunwound covers.start_mem
    rw [start_cleaned] at hlanguage
    calc
      _ ↔ word ∈ (g.cleaned .drop).language (g.cleaned .drop).start := by
        rw [accepts_iff, language_backSubstitute, start_backSubstitute, hstart, hlanguage,
          start_cleaned]
      _ ↔ g.Accepts word ∧ (word ≠ [] ∨ EmptyWordPolicy.drop = .keepAtStart) :=
        accepts_cleaned wf.names_nodup
      _ ↔ g.Accepts word ∧ word ≠ [] := by simp
  · exact EmptyWordFate.of_eq_dropped_iff.2 ⟨rfl, h⟩
  · exact EmptyWordFate.of_eq_absent_iff.2 (Bool.not_eq_true _ ▸ h)

/-- Two nonterminals that lead each other, one of them nullable. -/
def crossed : Grammar :=
  ⟨[⟨'S', [[.nonterminal 'A', .terminal 'a'], []]⟩,
    ⟨'A', [[.nonterminal 'S', .terminal 'b'], [.terminal 'c']]⟩], 'S'⟩

def uncrossed : Grammar :=
  ⟨[⟨'S', [[.terminal 'b', .terminal 'a'], [.terminal 'b', .nonterminal 'B', .terminal 'a'],
      [.terminal 'c', .terminal 'a'], [.terminal 'c', .nonterminal 'B', .terminal 'a']]⟩,
    ⟨'A', [[.terminal 'b'], [.terminal 'b', .nonterminal 'B'], [.terminal 'c'],
      [.terminal 'c', .nonterminal 'B']]⟩,
    ⟨'B', [[.terminal 'a', .terminal 'b'], [.terminal 'a', .terminal 'b', .nonterminal 'B']]⟩], 'S'⟩

theorem toGreibach_crossed :
    crossed.toGreibach.outcome (.avoiding crossed) =
      (.ok ⟨uncrossed, .dropped, []⟩, ⟨['B', 'S', 'A']⟩) := by
  cbv

theorem wellFormed_crossed : crossed.WellFormed :=
  ⟨by decide, by decide⟩

theorem closed_crossed : crossed.Closed :=
  ⟨by decide, by simp [crossed, productions, Entry.productions, names, Rule.nonterminals,
    Symbol.nonterminal?]⟩

/-- Two nonterminals that lead each other keep their words, and the empty one is dropped. -/
theorem language_toGreibach_crossed :
    crossed.names ⊆ (NameSupply.avoiding crossed).taken ∧
      ∀ word, uncrossed.Accepts word ↔ crossed.Accepts word ∧ word ≠ [] := by
  have taken : crossed.names ⊆ (NameSupply.avoiding crossed).taken := List.Subset.refl _
  exact ⟨taken, (language_toGreibach wellFormed_crossed closed_crossed taken toGreibach_crossed).1⟩

/-- Every rule of the result begins with a terminal.  Before that is reached, back substitution has both
a pass left and a leader to replace. -/
theorem isGreibach_toGreibach (wf : g.WellFormed) (closed : g.Closed)
    (taken : g.names ⊆ supply.taken) (run : g.toGreibach.outcome supply = (.ok n, rest)) :
    (∀ p ∈ n.grammar.productions, ∃ c tail, p.right = .terminal c :: tail) ∧
      n.grammar.isGreibach = true ∧
      ∃ unwound,
        ((g.cleaned .drop).withoutLeftRecursion .withoutRepeater).outcome supply =
          (.ok unwound, rest) ∧
        n.grammar = unwound.backSubstitute ∧
        ∀ passes, (unwound.backSubstitutePasses passes).isGreibach = true ∨
          passes < unwound.entries.length ∧
            (unwound.backSubstitutePasses passes).canExpand
              (unwound.backSubstitutePasses passes).settled = true := by
  have covers := covers_cleaned wf.names_nodup
    (NameSupply.covers_of_closed wf.names_nodup closed taken) .drop
  have ⟨unwound, hunwound, hgrammar, _⟩ := exists_unwound run
  have grounded : unwound.Grounded :=
    grounded_withoutLeftRecursion (wellFormed_cleaned g .drop).names_nodup covers
      (fun _ _ mem ↦ keepsLed_cleaned wf.names_nodup mem) hunwound
  have hgreibach : n.grammar.isGreibach = true := by
    rw [hgrammar]
    exact grounded.isGreibach_backSubstitute
  refine ⟨fun p hp ↦ ?_, hgreibach, unwound, hunwound, hgrammar, fun passes ↦ ?_⟩
  · exact Rule.beginsWithTerminal_iff.1 (List.all_eq_true.1 hgreibach p hp)
  · by_cases h : (unwound.backSubstitutePasses passes).isGreibach = true
    · exact Or.inl h
    · right
      constructor
      · by_contra hpasses
        exact h (grounded.isGreibach_backSubstitutePasses (by omega))
      · apply (grounded.backSubstituted passes).canExpand
        intro hsettled
        exact h (isGreibach_iff_settled.2 hsettled)

/-- Two nonterminals that lead each other are unwound into rules led by terminals. -/
theorem isGreibach_toGreibach_crossed :
    crossed.names ⊆ (NameSupply.avoiding crossed).taken ∧ uncrossed.isGreibach = true := by
  have taken : crossed.names ⊆ (NameSupply.avoiding crossed).taken := List.Subset.refl _
  exact ⟨taken, (isGreibach_toGreibach wellFormed_crossed closed_crossed taken toGreibach_crossed).2.1⟩

end GrammarForms.Grammar
