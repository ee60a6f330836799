import GrammarForms.Proofs.UselessSymbols
import Mathlib.Data.List.Flatten
import Mathlib.Logic.Relation

/-!
# The Useful Part of a Grammar

Which part of a grammar is useful can be said without the analyses.  A nonterminal is productive if it
generates a word, a rule if all its nonterminals are, and a productive nonterminal is useful if productive
rules lead to it from the start symbol.  The elimination of useless symbols leaves exactly the useful part,
every nonterminal of it with its language, and all of the useful part is useful still.  So a second run
removes nothing.  A program that runs the elimination again until the numbers of nonterminals and rules stay
the same therefore leaves what one run leaves.
-/

namespace GrammarForms.Grammar

variable {g : Grammar} {name : Char} {rule : Rule}

/-! ## Useful nonterminals and rules -/

def Productive (g : Grammar) (name : Char) : Prop :=
  ∃ word, g.Generates name word

def ProductiveRule (g : Grammar) (rule : Rule) : Prop :=
  ∀ name ∈ Rule.nonterminals rule, g.Productive name

/-- A productive rule of the first nonterminal mentions the second. -/
def ProductiveStep (g : Grammar) (name other : Char) : Prop :=
  ∃ rule ∈ g.rules name, g.ProductiveRule rule ∧ other ∈ Rule.nonterminals rule

/-- The start symbol, and the productive nonterminals to which productive rules lead from it. -/
def IsLeft (g : Grammar) (name : Char) : Prop :=
  name = g.start ∨ g.Productive name ∧ Relation.ReflTransGen g.ProductiveStep g.start name

open Classical in
/-- The nonterminals that are left, each with its productive rules, in the order of the grammar. -/
noncomputable def usefulPart (g : Grammar) : Grammar where
  entries := (g.entries.filter fun entry ↦ decide (g.IsLeft entry.name)).map fun entry ↦
    ⟨entry.name, entry.rules.filter fun rule ↦ decide (g.ProductiveRule rule)⟩
  start := g.start

theorem isGenerating_iff_productiveRule :
    Rule.isGenerating g.generating rule = true ↔ g.ProductiveRule rule := by
  rw [Rule.isGenerating_iff]
  exact forall₂_congr fun _ _ ↦ mem_generating_iff

/-- Among generating rules, the reachable nonterminals are those that productive steps lead to. -/
theorem mem_reachable_keepGenerating_iff (nodup : g.names.Nodup) :
    name ∈ g.keepGenerating.reachable ↔ Relation.ReflTransGen g.ProductiveStep g.start name := by
  constructor
  · revert name
    apply reachable_induction
    · exact .refl
    · intro source chain rule mem other hother
      rw [rules_keepGenerating] at mem
      have ⟨hrule, hgenerating⟩ := List.mem_filter.1 mem
      exact chain.tail ⟨rule, hrule, isGenerating_iff_productiveRule.1 hgenerating, hother⟩
  · intro chain
    induction chain with
    | refl => exact g.keepGenerating.start_mem_reachable
    | tail _ step ih =>
      obtain ⟨rule, mem, hproductive, hother⟩ := step
      refine mem_reachable_of_rule (nodup_keepGenerating nodup) ih ?_ hother
      rw [rules_keepGenerating]
      exact List.mem_filter.2 ⟨mem, isGenerating_iff_productiveRule.2 hproductive⟩

/-- Both filters on the entries see names only, so the rules can as well be filtered last. -/
theorem entries_withoutUselessSymbols (g : Grammar) :
    g.withoutUselessSymbols.entries =
      (g.entries.filter fun entry ↦
          (entry.name == g.start || g.keepGenerating.reachable.contains entry.name) &&
            (entry.name == g.start || g.generating.contains entry.name)).map
        fun entry ↦ ⟨entry.name, entry.rules.filter (Rule.isGenerating g.generating)⟩ := by
  have hreachable : g.withoutUselessSymbols.entries = g.keepGenerating.entries.filter fun entry ↦
      entry.name == g.start || g.keepGenerating.reachable.contains entry.name := rfl
  have hgenerating : g.keepGenerating.entries =
      (g.entries.map fun entry ↦
          ⟨entry.name, entry.rules.filter (Rule.isGenerating g.generating)⟩).filter
        fun entry ↦ entry.name == g.start || g.generating.contains entry.name := rfl
  rw [hreachable, hgenerating, List.filter_filter, List.filter_map]
  rfl

/-- One run of both sweeps leaves exactly the useful part, in order. -/
theorem withoutUselessSymbols_eq_usefulPart (nodup : g.names.Nodup) :
    g.withoutUselessSymbols = g.usefulPart := by
  classical
  have hentries : g.withoutUselessSymbols.entries = g.usefulPart.entries := by
    rw [entries_withoutUselessSymbols, usefulPart]
    congr 1
    · funext entry
      congr 1
      apply List.filter_congr
      intro rule _
      rw [Bool.eq_iff_iff, isGenerating_iff_productiveRule, decide_eq_true_eq]
    · apply List.filter_congr
      intro entry _
      have hproductive : entry.name ∈ g.generating ↔ g.Productive entry.name := mem_generating_iff
      rw [Bool.eq_iff_iff, decide_eq_true_eq, IsLeft, ← mem_reachable_keepGenerating_iff nodup,
        ← hproductive]
      simp only [Bool.and_eq_true, Bool.or_eq_true, beq_iff_eq, List.contains_iff_mem]
      rw [← or_and_left, and_comm]
  calc
    g.withoutUselessSymbols = ⟨g.withoutUselessSymbols.entries, g.start⟩ := rfl
    _ = g.usefulPart := by rw [hentries]; rfl

/-! ## A second run -/

theorem keepGenerating_eq_self (names : ∀ name ∈ g.names, name ∈ g.generating)
    (rules : ∀ p ∈ g.productions, Rule.isGenerating g.generating p.right = true) :
    g.keepGenerating = g := by
  have hrules : g.keepRules (Rule.isGenerating g.generating) = g := keepRules_eq_self rules
  rw [keepGenerating, hrules]
  exact keepEntries_eq_self fun name hname ↦ List.contains_iff_mem.2 (names name hname)

theorem keepReachable_eq_self (h : ∀ name ∈ g.names, name ∈ g.reachable) : g.keepReachable = g :=
  keepEntries_eq_self fun name hname ↦ List.contains_iff_mem.2 (h name hname)

/-- A second run finds nothing to take out. -/
theorem withoutUselessSymbols_again (nodup : g.names.Nodup) (hmem : g.start ∈ g.names) :
    g.withoutUselessSymbols.withoutUselessSymbols = g.withoutUselessSymbols := by
  by_cases hstart : g.start ∈ g.generating
  · have closed := closed_withoutUselessSymbols nodup hmem
    have generates : ∀ name ∈ g.withoutUselessSymbols.names, name ∈ g.withoutUselessSymbols.generating :=
      fun name hname ↦
        mem_generating_iff.2 (exists_word_of_mem_names_withoutUselessSymbols nodup hstart hname)
    have reached : ∀ name ∈ g.withoutUselessSymbols.names, name ∈ g.withoutUselessSymbols.reachable :=
      fun name hname ↦ (mem_reachable_iff (nodup_withoutUselessSymbols nodup)).2
        (reaches_of_mem_names_withoutUselessSymbols nodup hname)
    have hkeep : g.withoutUselessSymbols.keepGenerating = g.withoutUselessSymbols :=
      keepGenerating_eq_self generates fun p hp ↦ Rule.isGenerating_iff.2 fun name hname ↦
        generates name (closed.defined p hp name hname)
    conv => lhs; rw [withoutUselessSymbols, hkeep]
    exact keepReachable_eq_self reached
  · rw [withoutUselessSymbols_eq_ofStart nodup hmem hstart]
    have wf := wellFormed_ofStart g.start
    exact withoutUselessSymbols_eq_ofStart wf.names_nodup (List.mem_singleton_self _)
      (start_notMem_generating_ofStart g.start)

/-! ## Rounds until nothing is removed -/

/-- The numbers of nonterminals and of rules. -/
def size (g : Grammar) : Nat × Nat :=
  (g.entries.length, g.ruleCount)

/-- A run never adds an entry. -/
theorem length_entries_withoutUselessSymbols_le (g : Grammar) :
    g.withoutUselessSymbols.entries.length ≤ g.entries.length := by
  rw [entries_withoutUselessSymbols, List.length_map]
  exact List.length_filter_le _ _

theorem sublist_productions_keepRules (g : Grammar) (keep : Rule → Bool) :
    (g.keepRules keep).productions.Sublist g.productions := by
  have hentry (entry : Entry) :
      (Entry.productions { entry with rules := entry.rules.filter keep }).Sublist entry.productions :=
    List.filter_sublist.map _
  rw [productions, productions, keepRules, List.flatMap_map]
  exact .flatMap_right g.entries fun entry _ ↦ hentry entry

/-- A run never adds a rule, so the size test of the loop can only see it shrink. -/
theorem ruleCount_withoutUselessSymbols_le (g : Grammar) :
    g.withoutUselessSymbols.ruleCount ≤ g.ruleCount := by
  have hentries (h : Grammar) (keep : Entry → Bool) :
      (h.keepEntries keep).productions.Sublist h.productions :=
    List.filter_sublist.flatMap _
  have hsublist : g.withoutUselessSymbols.productions.Sublist g.productions :=
    ((hentries _ _).trans (hentries _ _)).trans (sublist_productions_keepRules g _)
  exact hsublist.length_le

/-- A run that changes the size removes an entry or a rule. -/
theorem lt_of_size_withoutUselessSymbols_ne (h : g.withoutUselessSymbols.size ≠ g.size) :
    g.withoutUselessSymbols.entries.length + g.withoutUselessSymbols.ruleCount <
      g.entries.length + g.ruleCount := by
  have hentries := length_entries_withoutUselessSymbols_le g
  have hrules := ruleCount_withoutUselessSymbols_le g
  have hne : ¬(g.withoutUselessSymbols.entries.length = g.entries.length ∧
      g.withoutUselessSymbols.ruleCount = g.ruleCount) := fun e ↦ h (Prod.ext e.1 e.2)
  omega

/-- Runs the elimination again until a run leaves the numbers of nonterminals and rules as they were. -/
def withoutUselessInRounds (g : Grammar) : Grammar :=
  if _unchanged : g.withoutUselessSymbols.size = g.size then g.withoutUselessSymbols
  else g.withoutUselessSymbols.withoutUselessInRounds
termination_by g.entries.length + g.ruleCount
decreasing_by exact lt_of_size_withoutUselessSymbols_ne _unchanged

/-- The second round finds nothing to remove, so the rounds come to the same as one run. -/
theorem withoutUselessInRounds_eq (nodup : g.names.Nodup) (hmem : g.start ∈ g.names) :
    g.withoutUselessInRounds = g.withoutUselessSymbols := by
  rw [withoutUselessInRounds]
  split
  · rfl
  · rw [withoutUselessInRounds, withoutUselessSymbols_again nodup hmem, dif_pos rfl]

/-! ## Main result -/

/-- What is left is the useful part of the grammar, with the same languages, and the bare start symbol if it
generates nothing.  Another run leaves it as it is, and so rounds of the elimination leave the same. -/
theorem withoutUselessSymbols_eq_usefulPart_and_again (nodup : g.names.Nodup) (hmem : g.start ∈ g.names) :
    g.withoutUselessSymbols = g.usefulPart ∧
      (∀ name ∈ g.withoutUselessSymbols.names, ∀ word,
        g.withoutUselessSymbols.Generates name word ↔ g.Generates name word) ∧
      (¬g.Productive g.start → g.withoutUselessSymbols = ofStart g.start) ∧
      g.withoutUselessSymbols.withoutUselessSymbols = g.withoutUselessSymbols ∧
      g.withoutUselessInRounds = g.withoutUselessSymbols := by
  refine ⟨withoutUselessSymbols_eq_usefulPart nodup, fun name hname word ↦ ?_, fun hstart ↦ ?_,
    withoutUselessSymbols_again nodup hmem, withoutUselessInRounds_eq nodup hmem⟩
  · have ⟨_, _, hreach⟩ := mem_names_withoutUselessSymbols.1 hname
    exact Set.ext_iff.1 (language_withoutUselessSymbols nodup hreach) word
  · exact withoutUselessSymbols_eq_ofStart nodup hmem (mt mem_generating_iff.1 hstart)

/-- A nonterminal without words hides another one, one is not reached, one has no entry, and a rule is
repeated. -/
def cluttered : Grammar :=
  ⟨[⟨'A', [[.nonterminal 'S', .terminal 'a'], [.nonterminal 'Z'], [.terminal 'a']]⟩,
    ⟨'S', [[.nonterminal 'B', .nonterminal 'C'], [.nonterminal 'A'], [.nonterminal 'A']]⟩,
    ⟨'B', [[.terminal 'b', .nonterminal 'B']]⟩,
    ⟨'C', [[.terminal 'c']]⟩,
    ⟨'D', [[.nonterminal 'A', .nonterminal 'D'], []]⟩], 'S'⟩

def uncluttered : Grammar :=
  ⟨[⟨'A', [[.nonterminal 'S', .terminal 'a'], [.terminal 'a']]⟩,
    ⟨'S', [[.nonterminal 'A'], [.nonterminal 'A']]⟩], 'S'⟩

theorem withoutUselessSymbols_cluttered : cluttered.withoutUselessSymbols = uncluttered := by
  cbv

/-- The nonterminal without words, the one behind it and the one out of reach are taken out
together. -/
theorem withoutUselessSymbols_eq_usefulPart_and_again_cluttered :
    cluttered.names.Nodup ∧ cluttered.start ∈ cluttered.names ∧ uncluttered = cluttered.usefulPart ∧
      (∀ word, uncluttered.Generates 'A' word ↔ cluttered.Generates 'A' word) ∧
      uncluttered.withoutUselessSymbols = uncluttered ∧
      cluttered.withoutUselessInRounds = uncluttered := by
  have nodup : cluttered.names.Nodup := by decide
  have hmem : cluttered.start ∈ cluttered.names := by decide
  have ⟨hpart, hgenerates, _, hagain, hrounds⟩ := withoutUselessSymbols_eq_usefulPart_and_again nodup hmem
  rw [withoutUselessSymbols_cluttered] at hpart hgenerates hagain hrounds
  exact ⟨nodup, hmem, hpart, hgenerates 'A' (by decide), hagain, hrounds⟩

end GrammarForms.Grammar
