import GrammarForms.Proofs.FreshStart
import GrammarForms.Proofs.Reading
import GrammarForms.Proofs.Splitting
import Mathlib

/-!
# Chomsky Normal Form

A grammar in Chomsky normal form accepts the words of the grammar it was made from, the empty word only
where the policy keeps it, and every rule is a terminal, two nonterminals, or the kept empty rule.

The proofs go through the conversion step by step.  After the new start symbol and the eliminations
nothing but terminals and nonterminals of the source is in sight, so the stand-ins and the links that
come next are new.  The start symbol is none of them, which keeps its language and its empty rule.
-/

namespace GrammarForms.Grammar

variable {g : Grammar} {policy : EmptyWordPolicy} {n : Normalization} {supply rest : NameSupply}
  {word : List Char}

/-! ## The steps of the conversion -/

theorem excess_eq_sum (g : Grammar) : g.excess = (g.productions.map fun p ↦ p.right.length - 2).sum := by
  rw [excess, List.sum_eq_foldr, List.foldr_map]
  rfl

/-- The grammars that a conversion goes through, and the names it introduces. -/
structure ChomskyRun (g : Grammar) (policy : EmptyWordPolicy) (n : Normalization) where
  started : Grammar
  isStarted : g.Started policy started
  standIns : List Char
  length_standIns : standIns.length = (started.cleaned policy).misplacedTerminals.length
  before : NameSupply
  between : NameSupply
  after : NameSupply
  covers : before.Covers (started.cleaned policy)
  drawn_standIns : before.Drawn standIns between
  links : List Char
  length_links : links.length = ((started.cleaned policy).isolatedBy standIns).excess
  drawn_links : between.Drawn links after
  grammar_eq : n.grammar = ((started.cleaned policy).isolatedBy standIns).splitBy links

/-- A conversion that succeeds went through its stages, and it began with the grammar that got its
start symbol from the supply. -/
theorem exists_chomskyRun_startedWith (nodup : g.names.Nodup) (covers : supply.Covers g)
    (run : (g.toChomsky policy).outcome supply = (.ok n, rest)) :
    (∃ steps : g.ChomskyRun policy n, steps.started = g.startedWith policy supply ∧
      supply.taken ⊆ steps.before.taken) ∧ n.emptyWord = .of g.isStartNullable policy := by
  have ⟨started, before, hstart, run⟩ := Naming.outcome_bind_eq_ok.1 run
  have ⟨isolated, between, hisolate, run⟩ := Naming.outcome_bind_eq_ok.1 run
  have ⟨result, after, hsplit, run⟩ := Naming.outcome_bind_eq_ok.1 run
  have ⟨hn, _⟩ := Naming.outcome_pure_eq_ok.1 run
  have ⟨isStarted, hcovers⟩ := started_of_freshStart nodup covers hstart
  have ⟨standIns, hstandIns, hdrawn, hisolated⟩ := exists_standIns hisolate
  subst hisolated
  have ⟨links, hlinks, hdrawn', hresult⟩ := exists_links hsplit
  subst hn
  refine ⟨⟨?_, ?_, ?_⟩, rfl⟩
  · exact {
      started := started
      isStarted := isStarted
      standIns := standIns
      length_standIns := hstandIns
      before := before
      between := between
      after := after
      covers := covers_cleaned isStarted.nodup hcovers policy
      drawn_standIns := hdrawn
      links := links
      length_links := hlinks
      drawn_links := hdrawn'
      grammar_eq := hresult }
  · exact eq_startedWith_of_freshStart hstart
  · exact taken_subset_of_freshStart hstart

/-- Every conversion that succeeds can be taken apart into its stages.  What is proved about a run
below therefore holds of every result. -/
theorem exists_chomskyRun (nodup : g.names.Nodup) (covers : supply.Covers g)
    (run : (g.toChomsky policy).outcome supply = (.ok n, rest)) :
    Nonempty (g.ChomskyRun policy n) ∧ n.emptyWord = .of g.isStartNullable policy := by
  have ⟨⟨steps, _⟩, hfate⟩ := exists_chomskyRun_startedWith nodup covers run
  exact ⟨⟨steps⟩, hfate⟩

namespace ChomskyRun

variable (run : g.ChomskyRun policy n)

include run

/-- The grammar without empty rules, unit rules and useless symbols. -/
abbrev cleaned : Grammar := run.started.cleaned policy

/-- The grammar whose longer rules hold nonterminals only. -/
abbrev isolated : Grammar := run.cleaned.isolatedBy run.standIns

theorem nodup_cleaned : run.cleaned.names.Nodup := (wellFormed_cleaned _ _).names_nodup

theorem nodup_isolated : run.isolated.names.Nodup := (wellFormed_rebuild _ _).names_nodup

theorem covers_isolated : run.between.Covers run.isolated :=
  covers_isolatedBy run.nodup_cleaned run.covers run.drawn_standIns

theorem nodup_names : n.grammar.names.Nodup := by
  rw [run.grammar_eq]
  exact (wellFormed_rebuild _ _).names_nodup

theorem start_eq : n.grammar.start = run.started.start := by
  rw [run.grammar_eq, start_splitBy, start_isolatedBy, start_cleaned]

/-- No stand-in is called like the start symbol, which was taken before them. -/
theorem start_notMem_standIns : run.started.start ∉ run.standIns := by
  rw [← start_cleaned run.started policy]
  exact run.covers.start_notMem run.drawn_standIns

theorem start_notMem_links : run.started.start ∉ run.links := by
  have h := run.covers_isolated.start_notMem run.drawn_links
  rwa [start_isolatedBy, start_cleaned] at h

/-- The stages together keep every word except, where it is dropped, the empty one. -/
theorem accepts_iff : n.grammar.Accepts word ↔
    g.Accepts word ∧ (word ≠ [] ∨ policy = .keepAtStart) := by
  calc
    _ ↔ word ∈ (run.isolated.splitBy run.links).language run.started.start := by
      rw [Grammar.accepts_iff, run.start_eq, run.grammar_eq]
    _ ↔ word ∈ run.isolated.language run.started.start := by
      rw [language_splitBy run.nodup_isolated run.covers_isolated run.drawn_links
        run.start_notMem_links]
    _ ↔ word ∈ run.cleaned.language run.started.start := by
      rw [language_isolatedBy run.nodup_cleaned run.covers run.drawn_standIns run.length_standIns
        run.start_notMem_standIns]
    _ ↔ run.cleaned.Accepts word := by
      rw [Grammar.accepts_iff, start_cleaned]
    _ ↔ run.started.Accepts word ∧ (word ≠ [] ∨ policy = .keepAtStart) :=
      accepts_cleaned run.isStarted.nodup
    _ ↔ g.Accepts word ∧ (word ≠ [] ∨ policy = .keepAtStart) := by
      rw [run.isStarted.accepts]

/-- Introducing a start symbol does not change whether the empty word is kept. -/
theorem keepsEmptyWord_started : run.started.KeepsEmptyWord policy ↔ g.KeepsEmptyWord policy := by
  rw [KeepsEmptyWord, KeepsEmptyWord, isStartNullable_iff, isStartNullable_iff, run.isStarted.accepts]

theorem not_unit_cleaned (name : Char) (source : Rule) (mem : source ∈ run.cleaned.rules name) :
    Rule.soleNonterminal? source = none :=
  (exists_chain_of_mem_rules_cleaned mem).1

/-- Once terminals are isolated, a rule of two or more symbols has only nonterminals. -/
theorem form_of_mem_rules_isolated {name : Char} {source : Rule} (mem : source ∈ run.isolated.rules name) :
    source = [] ∨ (∃ c, source = [.terminal c]) ∨
      2 ≤ source.length ∧ ∀ symbol ∈ source, ∃ other, symbol = .nonterminal other :=
  isolated_of_mem_rules_isolatedBy run.nodup_cleaned run.length_standIns run.not_unit_cleaned mem

theorem nonterminals_of_mem_rules_isolated (name : Char) (source : Rule)
    (mem : source ∈ run.isolated.rules name) (hlength : 2 ≤ source.length) :
    ∀ symbol ∈ source, ∃ other, symbol = .nonterminal other := by
  rcases run.form_of_mem_rules_isolated mem with rfl | ⟨c, rfl⟩ | ⟨_, h⟩
  · simp at hlength
  · simp at hlength
  · exact h

/-- An empty rule comes through from the eliminations, and all other rules have the form. -/
theorem form_of_mem_productions {p : Production} (hp : p ∈ n.grammar.productions) :
    (∃ c, p.right = [.terminal c]) ∨ Rule.IsPair p.right ∨
      p.right = [] ∧ [] ∈ run.cleaned.rules p.left := by
  have hrule := (mem_productions run.nodup_names).1 hp
  rw [run.grammar_eq] at hrule
  rcases mem_rules_or_isPair_of_mem_rules_splitBy run.nodup_isolated run.length_links
    run.nonterminals_of_mem_rules_isolated hrule with ⟨hisolated, hlength⟩ | hpair
  · rcases run.form_of_mem_rules_isolated hisolated with hnil | hterminal | ⟨hlength', _⟩
    · refine Or.inr (Or.inr ⟨hnil, ?_⟩)
      rw [hnil] at hisolated
      exact (nil_mem_rules_isolatedBy run.nodup_cleaned).1 hisolated
    · exact Or.inl hterminal
    · omega
  · exact Or.inr (Or.inl hpair)

/-- The start symbol has the empty rule in the end exactly if the empty word is kept. -/
theorem nil_mem_productions_iff :
    ⟨n.grammar.start, []⟩ ∈ n.grammar.productions ↔ g.KeepsEmptyWord policy := by
  rw [← run.keepsEmptyWord_started, ← nil_mem_rules_cleaned_start run.isStarted.nodup, run.start_eq]
  constructor
  · intro h
    rcases run.form_of_mem_productions h with ⟨c, hc⟩ | ⟨one, other, hpair⟩ | ⟨_, hnil⟩
    · cases hc
    · cases hpair
    · exact hnil
  · intro h
    apply (mem_productions run.nodup_names).2
    rw [run.grammar_eq]
    apply mem_rules_splitBy_of_length_le run.nodup_isolated run.length_links
    · exact (nil_mem_rules_isolatedBy run.nodup_cleaned).2 h
    · exact Nat.zero_le 2

theorem eq_start_of_nil_mem (hkeeps : g.KeepsEmptyWord policy) {name : Char}
    (mem : [] ∈ run.cleaned.rules name) : name = n.grammar.start := by
  rw [run.start_eq]
  exact eq_start_of_nil_mem_rules_cleaned run.isStarted.nodup (run.isStarted.unmentioned hkeeps) mem

/-- An empty rule after the cleaning is there only because the empty word is kept. -/
theorem keepsEmptyWord_of_nil_mem {name : Char} (mem : [] ∈ run.cleaned.rules name) :
    g.KeepsEmptyWord policy := by
  have ⟨_, source, _, hsource⟩ := exists_chain_of_mem_rules_cleaned mem
  have hstarted := ((nil_mem_rules_withoutEmptyRules run.isStarted.nodup).1 hsource).2
  exact run.keepsEmptyWord_started.1 hstarted

/-- Where the empty word is kept, no rule brings the start symbol back. -/
theorem mentions_start_eq_false (hkeeps : g.KeepsEmptyWord policy) :
    n.grammar.mentions n.grammar.start = false := by
  by_contra h
  rw [Bool.not_eq_false, mentions_iff run.nodup_names, run.start_eq, run.grammar_eq] at h
  have ⟨left, rule, mem, hmentioned⟩ := h
  refine notMem_nonterminals_splitBy run.nodup_isolated run.start_notMem_links ?_ mem hmentioned
  intro left source hsource
  refine notMem_nonterminals_isolatedBy run.nodup_cleaned run.start_notMem_standIns ?_ hsource
  intro left source hsource
  exact notMem_nonterminals_cleaned run.isStarted.nodup (run.isStarted.unmentioned hkeeps) hsource

end ChomskyRun

/-! ## Main results -/

/-- The conversion keeps the language, apart from a dropped empty word, and says what became of the
empty word. -/
theorem language_toChomsky
    (source : g.WellFormed ∧ g.Closed ∨ ∃ text, Grammar.parse text = .ok g)
    (taken : g.names ⊆ supply.taken)
    (run : (g.toChomsky policy).outcome supply = (.ok n, rest)) :
    (n.emptyWord ≠ .dropped → ∀ word, n.grammar.Accepts word ↔ g.Accepts word) ∧
      (n.emptyWord = .dropped → ∀ word, n.grammar.Accepts word ↔ g.Accepts word ∧ word ≠ []) ∧
      (n.emptyWord = .absent ↔ ¬g.Accepts []) ∧
      (g.Accepts [] → n.emptyWord = if policy = .keepAtStart then .kept else .dropped) := by
  have ⟨wf, closed⟩ : g.WellFormed ∧ g.Closed := by
    rcases source with h | ⟨text, h⟩
    · exact h
    · exact ⟨wellFormed_of_parse h, closed_of_parse h⟩
  have covers := NameSupply.covers_of_closed wf.names_nodup closed taken
  have ⟨⟨steps⟩, hfate⟩ := exists_chomskyRun wf.names_nodup covers run
  rw [hfate, ← isStartNullable_iff]
  refine ⟨fun h word ↦ ?_, fun h word ↦ ?_, ?_, fun h ↦ ?_⟩
  · rw [steps.accepts_iff]
    apply and_iff_left_of_imp
    intro haccepts
    by_contra hdropped
    have ⟨hword, hpolicy⟩ := not_or.1 hdropped
    rw [not_not.1 hword, ← isStartNullable_iff] at haccepts
    cases policy with
    | drop => exact h (EmptyWordFate.of_eq_dropped_iff.2 ⟨rfl, haccepts⟩)
    | keepAtStart => exact hpolicy rfl
  · rw [steps.accepts_iff, (EmptyWordFate.of_eq_dropped_iff.1 h).1]
    simp
  · rw [EmptyWordFate.of_eq_absent_iff, Bool.not_eq_true]
  · cases policy with
    | drop => exact EmptyWordFate.of_eq_dropped_iff.2 ⟨rfl, h⟩
    | keepAtStart => exact EmptyWordFate.of_eq_kept_iff.2 ⟨rfl, h⟩

/-- Nested pairs of terminals, with the empty word inside. -/
def nested : Grammar :=
  ⟨[⟨'S', [[.terminal 'a', .nonterminal 'S', .terminal 'b'], []]⟩], 'S'⟩

def nestedPairs : Grammar :=
  ⟨[⟨'A', [[.nonterminal 'B', .nonterminal 'D'], [.nonterminal 'B', .nonterminal 'C'], []]⟩,
    ⟨'S', [[.nonterminal 'B', .nonterminal 'E'], [.nonterminal 'B', .nonterminal 'C']]⟩,
    ⟨'B', [[.terminal 'a']]⟩,
    ⟨'C', [[.terminal 'b']]⟩,
    ⟨'D', [[.nonterminal 'S', .nonterminal 'C']]⟩,
    ⟨'E', [[.nonterminal 'S', .nonterminal 'C']]⟩], 'A'⟩

theorem toChomsky_nested :
    (nested.toChomsky .keepAtStart).outcome (.avoiding nested) =
      (.ok ⟨nestedPairs, .kept, []⟩, ⟨['E', 'D', 'C', 'B', 'A', 'S']⟩) := by
  cbv

theorem wellFormed_nested : nested.WellFormed :=
  ⟨by decide, by decide⟩

theorem closed_nested : nested.Closed :=
  ⟨by decide, by simp [nested, productions, Entry.productions, names]⟩

/-- The empty word of the nested pairs survives at the new start symbol. -/
theorem language_toChomsky_nested :
    nested.names ⊆ (NameSupply.avoiding nested).taken ∧
      (∀ word, nestedPairs.Accepts word ↔ nested.Accepts word) ∧ nested.Accepts [] := by
  have taken : nested.names ⊆ (NameSupply.avoiding nested).taken := List.Subset.refl _
  have ⟨hkept, _, habsent, _⟩ :=
    language_toChomsky (Or.inl ⟨wellFormed_nested, closed_nested⟩) taken toChomsky_nested
  refine ⟨taken, hkept (by decide), ?_⟩
  by_contra h
  cases habsent.2 h

/-- The result is in normal form, with an empty rule exactly if the empty word is kept, and it has a new
start symbol exactly if the old one could not keep it. -/
theorem isChomsky_toChomsky (wf : g.WellFormed) (closed : g.Closed)
    (taken : g.names ⊆ supply.taken)
    (run : (g.toChomsky policy).outcome supply = (.ok n, rest)) :
    (∀ p ∈ n.grammar.productions,
      (∃ c, p.right = [.terminal c]) ∨
      (∃ one other, p.right = [.nonterminal one, .nonterminal other]) ∨
      p.right = [] ∧ p.left = n.grammar.start) ∧
    (⟨n.grammar.start, []⟩ ∈ n.grammar.productions ↔ n.emptyWord = .kept) ∧
    (n.emptyWord = .kept → n.grammar.mentions n.grammar.start = false) ∧
    n.grammar.isChomsky = true ∧
    (n.grammar.start ≠ g.start ↔ n.emptyWord = .kept ∧ g.mentions g.start = true) := by
  have covers := NameSupply.covers_of_closed wf.names_nodup closed taken
  have ⟨⟨steps⟩, hfate⟩ := exists_chomskyRun wf.names_nodup covers run
  have hkept : n.emptyWord = .kept ↔ g.KeepsEmptyWord policy := by
    rw [hfate, EmptyWordFate.of_eq_kept_iff]
    rfl
  have hempty (p : Production) (hnil : [] ∈ steps.cleaned.rules p.left) :
      p.left = n.grammar.start ∧ n.grammar.mentions n.grammar.start = false := by
    have hkeeps := steps.keepsEmptyWord_of_nil_mem hnil
    exact ⟨steps.eq_start_of_nil_mem hkeeps hnil, steps.mentions_start_eq_false hkeeps⟩
  refine ⟨fun p hp ↦ ?_, ?_, fun h ↦ ?_, ?_, ?_⟩
  · rcases steps.form_of_mem_productions hp with h | h | ⟨hnil, hrule⟩
    · exact Or.inl h
    · exact Or.inr (Or.inl h)
    · exact Or.inr (Or.inr ⟨hnil, (hempty p hrule).1⟩)
  · rw [hkept, steps.nil_mem_productions_iff]
  · exact steps.mentions_start_eq_false (hkept.1 h)
  · apply List.all_eq_true.2
    intro p hp
    rcases steps.form_of_mem_productions hp with ⟨c, hc⟩ | ⟨one, other, hpair⟩ | ⟨hnil, hrule⟩
    · rw [hc]
    · rw [hpair]
    · have ⟨hleft, hmentions⟩ := hempty p hrule
      rw [hnil, hleft, hmentions]
      simp
  · rw [steps.start_eq, steps.isStarted.start_ne_iff, needsFreshStart_iff, hkept]

/-- The nested pairs keep their empty word, and nothing mentions the new start symbol. -/
theorem isChomsky_toChomsky_nested :
    nested.names ⊆ (NameSupply.avoiding nested).taken ∧ nestedPairs.isChomsky = true ∧
      ⟨nestedPairs.start, []⟩ ∈ nestedPairs.productions ∧
      nestedPairs.mentions nestedPairs.start = false ∧ nestedPairs.start ≠ nested.start := by
  have taken : nested.names ⊆ (NameSupply.avoiding nested).taken := List.Subset.refl _
  have ⟨_, hempty, hmentions, hform, hstart⟩ :=
    isChomsky_toChomsky wellFormed_nested closed_nested taken toChomsky_nested
  exact ⟨taken, hform, hempty.2 rfl, hmentions rfl, hstart.2 ⟨rfl, by decide⟩⟩

end GrammarForms.Grammar
