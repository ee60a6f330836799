import GrammarForms.Analysis.Nullable
import GrammarForms.Analysis.Useful
import GrammarForms.Proofs.Meaning

/-!
# What the Analyses Compute

A nonterminal is found nullable exactly if its language has the empty word, and generating exactly if
its language has a word at all.  In each case the languages that the answer promises are a model, so
the answer misses nothing.  The reachable nonterminals contain the start symbol and everything that
their rules mention, so they are those that occur in a sentential form of the start symbol.
-/

namespace GrammarForms

namespace Rule

theorem isNullable_iff {nullable : List Char} {rule : Rule} :
    isNullable nullable rule = true ↔
      ∀ symbol ∈ rule, ∃ name, symbol = .nonterminal name ∧ name ∈ nullable := by
  rw [isNullable, List.all_eq_true]
  apply forall₂_congr
  intro symbol _
  cases symbol with
  | terminal c => simp
  | nonterminal name => simp

theorem isGenerating_iff {generating : List Char} {rule : Rule} :
    isGenerating generating rule = true ↔ ∀ name ∈ nonterminals rule, name ∈ generating := by
  simp [isGenerating]

end Rule

namespace Grammar

variable {g : Grammar} {name : Char}

theorem mem_nullable_of_rule {rule : Rule} (mem : rule ∈ g.rules name)
    (h : Rule.isNullable g.nullable rule = true) : name ∈ g.nullable :=
  mem_leastSet_iff.2 ⟨mem_names_of_mem_rules mem, Or.inr (List.any_eq_true.2 ⟨rule, mem, h⟩)⟩

/-- The nullable nonterminals are those whose language has the empty word. -/
theorem mem_nullable_iff : name ∈ g.nullable ↔ [] ∈ g.language name := by
  constructor
  · refine leastSet_induction (P := fun name ↦ [] ∈ g.language name) ?_ name
    intro members name hmembers _ hadmits
    obtain ⟨rule, mem, hrule⟩ := List.any_eq_true.1 hadmits
    refine g.isModel_language name rule mem (Rule.nil_mem_words.2 fun symbol hsymbol ↦ ?_)
    obtain ⟨other, rfl, hother⟩ := Rule.isNullable_iff.1 hrule symbol hsymbol
    exact ⟨other, rfl, hmembers other hother⟩
  · let found : Meaning := fun name ↦ {word | word = [] → name ∈ g.nullable}
    have model : g.IsModel found := by
      rintro name rule mem word hword rfl
      refine mem_nullable_of_rule mem (Rule.isNullable_iff.2 fun symbol hsymbol ↦ ?_)
      obtain ⟨other, rfl, hother⟩ := Rule.nil_mem_words.1 hword symbol hsymbol
      exact ⟨other, rfl, hother rfl⟩
    exact fun h ↦ model.language_le name h rfl

/-- The start symbol is nullable exactly if the grammar accepts the empty word. -/
theorem isStartNullable_iff : g.isStartNullable = true ↔ g.Accepts [] := by
  rw [isStartNullable, List.contains_iff_mem, mem_nullable_iff, accepts_iff]

theorem mem_generating_of_rule {rule : Rule} (mem : rule ∈ g.rules name)
    (h : Rule.isGenerating g.generating rule = true) : name ∈ g.generating :=
  mem_leastSet_iff.2 ⟨mem_names_of_mem_rules mem, Or.inr (List.any_eq_true.2 ⟨rule, mem, h⟩)⟩

/-- The generating nonterminals are those with a word in their language. -/
theorem mem_generating_iff : name ∈ g.generating ↔ ∃ word, word ∈ g.language name := by
  constructor
  · refine leastSet_induction (P := fun name ↦ ∃ word, word ∈ g.language name) ?_ name
    intro members name hmembers _ hadmits
    obtain ⟨rule, mem, hrule⟩ := List.any_eq_true.1 hadmits
    obtain ⟨word, hword⟩ := Rule.exists_mem_words.2 fun other hother ↦
      hmembers other (Rule.isGenerating_iff.1 hrule other hother)
    exact ⟨word, g.isModel_language name rule mem hword⟩
  · let found : Meaning := fun name ↦ {_word | name ∈ g.generating}
    have model : g.IsModel found := by
      intro name rule mem word hword
      refine mem_generating_of_rule mem (Rule.isGenerating_iff.2 fun other hother ↦ ?_)
      obtain ⟨_, hother⟩ := Rule.exists_mem_words.1 ⟨word, hword⟩ other hother
      exact hother
    exact fun ⟨word, h⟩ ↦ model.language_le name h

theorem mem_vocabulary_of_rule (nodup : g.names.Nodup) {rule : Rule} (mem : rule ∈ g.rules name)
    {other : Char} (h : other ∈ Rule.nonterminals rule) : other ∈ g.vocabulary := by
  refine mem_distinct.2 (List.mem_append.2 (Or.inr ?_))
  exact List.mem_flatMap.2 ⟨⟨name, rule⟩, (mem_productions nodup).2 mem, h⟩

theorem start_mem_reachable (g : Grammar) : g.start ∈ g.reachable :=
  mem_leastSet_iff.2 ⟨mem_distinct.2 List.mem_cons_self, Or.inr (by simp)⟩

/-- Everything a reachable nonterminal mentions is reachable. -/
theorem mem_reachable_of_rule (nodup : g.names.Nodup) (hname : name ∈ g.reachable) {rule : Rule}
    (mem : rule ∈ g.rules name) {other : Char} (h : other ∈ Rule.nonterminals rule) :
    other ∈ g.reachable := by
  refine mem_leastSet_iff.2 ⟨mem_vocabulary_of_rule nodup mem h, Or.inr ?_⟩
  have hleads : g.leadsTo name other = true :=
    List.any_eq_true.2 ⟨rule, mem, List.contains_iff_mem.2 h⟩
  exact Bool.or_eq_true_iff.2 (Or.inr (List.any_eq_true.2 ⟨name, hname, hleads⟩))

/-- What the start symbol has and what passes from a nonterminal to those that its rules mention, every
reachable nonterminal has. -/
theorem reachable_induction {P : Char → Prop} (start : P g.start)
    (step : ∀ name, P name → ∀ rule ∈ g.rules name, ∀ other ∈ Rule.nonterminals rule, P other) :
    ∀ name ∈ g.reachable, P name := by
  apply leastSet_induction
  intro members name hmembers _ hadmits
  rcases Bool.or_eq_true_iff.1 hadmits with hstart | hleads
  · exact beq_iff_eq.1 hstart ▸ start
  · obtain ⟨source, hsource, hleads⟩ := List.any_eq_true.1 hleads
    obtain ⟨rule, mem, hname⟩ := List.any_eq_true.1 hleads
    exact step source (hmembers source hsource) rule mem name (List.contains_iff_mem.1 hname)

/-- The nonterminal occurs in a sentential form that the start symbol derives. -/
def Reaches (g : Grammar) (name : Char) : Prop :=
  ∃ form, g.Derives [.nonterminal g.start] form ∧ .nonterminal name ∈ form

theorem Reaches.of_rule (reaches : g.Reaches name) {rule : Rule} (mem : rule ∈ g.rules name)
    {other : Char} (h : other ∈ Rule.nonterminals rule) : g.Reaches other := by
  have ⟨form, run, hname⟩ := reaches
  have ⟨before, after, hform⟩ := List.append_of_mem hname
  subst hform
  refine ⟨before ++ rule ++ after, run.tail (.replace before after mem), ?_⟩
  exact List.mem_append_left after (List.mem_append_right before (Rule.mem_nonterminals.1 h))

/-- The reachable nonterminals are those in some sentential form of the start symbol. -/
theorem mem_reachable_iff (nodup : g.names.Nodup) : name ∈ g.reachable ↔ g.Reaches name := by
  constructor
  · apply reachable_induction
    · exact ⟨_, .refl _, List.mem_singleton_self _⟩
    · exact fun source reaches rule mem other h ↦ reaches.of_rule mem h
  · rintro ⟨form, run, hname⟩
    induction run generalizing name with
    | refl =>
      have e : name = g.start := Symbol.nonterminal.inj (List.mem_singleton.1 hname)
      exact e ▸ g.start_mem_reachable
    | tail _ step ih =>
      obtain ⟨before, after, mem⟩ := step
      rcases List.mem_append.1 hname with hname | hafter
      · rcases List.mem_append.1 hname with hbefore | hrule
        · exact ih (List.mem_append_left _ hbefore)
        · refine mem_reachable_of_rule nodup (ih ?_) mem (Rule.mem_nonterminals.2 hrule)
          exact List.mem_append_right before List.mem_cons_self
      · exact ih (List.mem_append_right before (List.mem_cons_of_mem _ hafter))

end Grammar

end GrammarForms
