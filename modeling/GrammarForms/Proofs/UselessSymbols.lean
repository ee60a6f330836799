import GrammarForms.Elimination.UselessSymbols
import GrammarForms.Proofs.Analyses

/-!
# Languages without Useless Symbols

A rule that mentions a nonterminal without words has no words itself, so the rules that leave with the
nonterminals that generate nothing do not count for any language.  The rules of a reachable nonterminal
mention only reachable ones, so what cannot be reached leaves without a trace on what can.  In the
result every nonterminal of a rule has an entry, and every nonterminal is useful: it is reached and
generates a word.  Only a start symbol without words stays all the same, alone and without rules.
-/

namespace GrammarForms.Grammar

variable {g : Grammar} {name : Char} {word : List Char}

/-! ## Nonterminals that generate nothing -/

@[simp]
theorem start_keepGenerating (g : Grammar) : g.keepGenerating.start = g.start := rfl

theorem rules_keepGenerating (g : Grammar) (name : Char) :
    g.keepGenerating.rules name = (g.rules name).filter (Rule.isGenerating g.generating) := by
  rw [keepGenerating, rules_keepEntries _ (g.generating.contains ·), rules_keepRules]
  split
  · rfl
  · rename_i h
    rw [eq_comm, List.filter_eq_nil_iff]
    intro rule mem hrule
    exact h (Or.inr (List.contains_iff_mem.2 (mem_generating_of_rule mem hrule)))

theorem mem_names_keepGenerating :
    name ∈ g.keepGenerating.names ↔ name ∈ g.names ∧ (name = g.start ∨ name ∈ g.generating) := by
  rw [keepGenerating, mem_names_keepEntries (g.generating.contains ·), names_keepRules,
    List.contains_iff_mem]
  rfl

theorem wellFormed_keepGenerating (wf : g.WellFormed) : g.keepGenerating.WellFormed :=
  (wf.keepRules _).keepEntries _

theorem nodup_keepGenerating (nodup : g.names.Nodup) : g.keepGenerating.names.Nodup := by
  rw [← names_keepRules g (Rule.isGenerating g.generating)] at nodup
  exact nodup.sublist (List.filter_sublist.map _)

/-- The rules that go have no words, so every language stays. -/
theorem language_keepGenerating (g : Grammar) : g.keepGenerating.language = g.language := by
  refine language_eq_of_wordless (fun name ↦ ?_) fun name rule mem ↦ ?_
  · rw [rules_keepGenerating]
    exact List.filter_sublist.subset
  · by_cases hrule : Rule.isGenerating g.generating rule = true
    · left
      rw [rules_keepGenerating]
      exact List.mem_filter.2 ⟨mem, hrule⟩
    · refine Or.inr fun word hword ↦ hrule (Rule.isGenerating_iff.2 fun other hother ↦ ?_)
      exact mem_generating_iff.2 (Rule.exists_mem_words.1 ⟨word, hword⟩ other hother)

/-! ## Nonterminals that cannot be reached -/

@[simp]
theorem start_keepReachable (g : Grammar) : g.keepReachable.start = g.start := rfl

theorem rules_keepReachable (g : Grammar) (name : Char) :
    g.keepReachable.rules name = if name ∈ g.reachable then g.rules name else [] := by
  rw [keepReachable, rules_keepEntries _ (g.reachable.contains ·)]
  by_cases hname : name ∈ g.reachable
  · simp [hname]
  · have hstart : name ≠ g.start := fun e ↦ hname (e ▸ g.start_mem_reachable)
    simp [hname, hstart]

theorem mem_names_keepReachable :
    name ∈ g.keepReachable.names ↔ name ∈ g.names ∧ name ∈ g.reachable := by
  rw [keepReachable, mem_names_keepEntries (g.reachable.contains ·),
    List.contains_iff_mem]
  refine and_congr_right fun _ ↦ or_iff_right_of_imp ?_
  rintro rfl
  exact g.start_mem_reachable

theorem wellFormed_keepReachable (wf : g.WellFormed) : g.keepReachable.WellFormed :=
  wf.keepEntries _

theorem nodup_keepReachable (nodup : g.names.Nodup) : g.keepReachable.names.Nodup :=
  nodup.sublist (List.filter_sublist.map _)

/-- What is out of reach can be left out. -/
theorem language_keepReachable (nodup : g.names.Nodup) (h : name ∈ g.reachable) :
    g.keepReachable.language name = g.language name := by
  apply le_antisymm
  · refine language_le_of_rules_subset (fun name ↦ ?_) name
    rw [rules_keepReachable]
    split
    · exact List.Subset.refl _
    · exact List.nil_subset _
  · -- What cannot be reached may have all words: no rule in question mentions it.
    let reached : Meaning := fun name ↦
      {word | name ∈ g.reachable → word ∈ g.keepReachable.language name}
    have model : g.IsModel reached := by
      intro name rule mem word hword hname
      refine g.keepReachable.isModel_language name rule ?_ ?_
      · rwa [rules_keepReachable, if_pos hname]
      · refine Rule.words_mono (fun other hother word hword ↦ ?_) hword
        exact hword (mem_reachable_of_rule nodup hname mem hother)
    exact fun word hword ↦ model.language_le name hword h

/-! ## The elimination as a whole -/

@[simp]
theorem start_withoutUselessSymbols (g : Grammar) : g.withoutUselessSymbols.start = g.start := rfl

/-- A rule stays if its nonterminals have words and its left side is reached through such rules. -/
theorem mem_rules_withoutUselessSymbols {rule : Rule} :
    rule ∈ g.withoutUselessSymbols.rules name ↔ rule ∈ g.rules name ∧
      name ∈ g.keepGenerating.reachable ∧ Rule.isGenerating g.generating rule = true := by
  rw [withoutUselessSymbols, rules_keepReachable, rules_keepGenerating]
  by_cases hname : name ∈ g.keepGenerating.reachable <;> simp [hname]

/-- A nonterminal stays if it has a word and is reached, and the start symbol stays in any case. -/
theorem mem_names_withoutUselessSymbols :
    name ∈ g.withoutUselessSymbols.names ↔ name ∈ g.names ∧
      (name = g.start ∨ name ∈ g.generating) ∧ name ∈ g.keepGenerating.reachable := by
  rw [withoutUselessSymbols, mem_names_keepReachable, mem_names_keepGenerating, and_assoc]

theorem wellFormed_withoutUselessSymbols (wf : g.WellFormed) :
    g.withoutUselessSymbols.WellFormed :=
  wellFormed_keepReachable (wellFormed_keepGenerating wf)

theorem nodup_withoutUselessSymbols (nodup : g.names.Nodup) : g.withoutUselessSymbols.names.Nodup :=
  nodup_keepReachable (nodup_keepGenerating nodup)

/-- A rule that stays mentions only nonterminals that stay. -/
theorem closed_withoutUselessSymbols (nodup : g.names.Nodup) (hstart : g.start ∈ g.names) :
    g.withoutUselessSymbols.Closed where
  start_mem := mem_names_withoutUselessSymbols.2
    ⟨hstart, Or.inl rfl, g.keepGenerating.start_mem_reachable⟩
  defined := by
    intro p hp name hname
    have hrule := (mem_productions (nodup_withoutUselessSymbols nodup)).1 hp
    obtain ⟨mem, hreach, hgenerating⟩ := mem_rules_withoutUselessSymbols.1 hrule
    have hname' : name ∈ g.generating := Rule.isGenerating_iff.1 hgenerating name hname
    have hkept : p.right ∈ g.keepGenerating.rules p.left := by
      rw [rules_keepGenerating]
      exact List.mem_filter.2 ⟨mem, hgenerating⟩
    refine mem_names_withoutUselessSymbols.2 ⟨leastSet_subset_candidates hname', Or.inr hname', ?_⟩
    exact mem_reachable_of_rule (nodup_keepGenerating nodup) hreach hkept hname

/-- The nonterminals that stay keep their languages. -/
theorem language_withoutUselessSymbols (nodup : g.names.Nodup) (h : name ∈ g.keepGenerating.reachable) :
    g.withoutUselessSymbols.language name = g.language name := by
  calc
    _ = g.keepGenerating.language name :=
      language_keepReachable (nodup_keepGenerating nodup) h
    _ = g.language name := by rw [language_keepGenerating]

/-- The elimination of useless symbols keeps the accepted words. -/
theorem accepts_withoutUselessSymbols (nodup : g.names.Nodup) :
    g.withoutUselessSymbols.Accepts word ↔ g.Accepts word := by
  have hstart : g.start ∈ g.keepGenerating.reachable := start_mem_reachable g.keepGenerating
  rw [accepts_iff, accepts_iff, start_withoutUselessSymbols, language_withoutUselessSymbols nodup hstart]

/-! ## What is left is useful -/

/-- What can be reached still can be when the rest has left. -/
theorem mem_reachable_keepReachable (nodup : g.names.Nodup) (h : name ∈ g.reachable) :
    name ∈ g.keepReachable.reachable := by
  have nodup' := nodup_keepReachable nodup
  suffices ∀ name ∈ g.reachable, name ∈ g.reachable ∧ name ∈ g.keepReachable.reachable from
    (this name h).2
  apply reachable_induction
  · exact ⟨g.start_mem_reachable, g.keepReachable.start_mem_reachable⟩
  · intro source ⟨hreach, hkept⟩ rule mem other hother
    refine ⟨mem_reachable_of_rule nodup hreach mem hother, ?_⟩
    apply mem_reachable_of_rule nodup' hkept _ hother
    rwa [rules_keepReachable, if_pos hreach]

/-- Every nonterminal that stays is reached. -/
theorem reaches_of_mem_names_withoutUselessSymbols (nodup : g.names.Nodup)
    (h : name ∈ g.withoutUselessSymbols.names) : g.withoutUselessSymbols.Reaches name := by
  apply (mem_reachable_iff (nodup_withoutUselessSymbols nodup)).1
  exact mem_reachable_keepReachable (nodup_keepGenerating nodup) (mem_names_withoutUselessSymbols.1 h).2.2

/-- Where the start symbol has a word, every nonterminal that stays has one. -/
theorem exists_word_of_mem_names_withoutUselessSymbols (nodup : g.names.Nodup)
    (hstart : g.start ∈ g.generating) (h : name ∈ g.withoutUselessSymbols.names) :
    ∃ word, word ∈ g.withoutUselessSymbols.language name := by
  have ⟨_, hgenerating, hreach⟩ := mem_names_withoutUselessSymbols.1 h
  rw [language_withoutUselessSymbols nodup hreach]
  apply mem_generating_iff.1
  rcases hgenerating with e | hgenerating
  · exact e ▸ hstart
  · exact hgenerating

theorem rules_withoutUselessSymbols_start (hstart : g.start ∉ g.generating) :
    g.withoutUselessSymbols.rules g.start = [] := by
  rw [List.eq_nil_iff_forall_not_mem]
  intro rule mem
  have ⟨mem, _, hrule⟩ := mem_rules_withoutUselessSymbols.1 mem
  exact hstart (mem_generating_of_rule mem hrule)

theorem start_notMem_generating_ofStart (start : Char) : start ∉ (ofStart start).generating := by
  intro h
  have ⟨word, hword⟩ := mem_generating_iff.1 h
  have ⟨rule, mem, _⟩ := mem_language_iff.1 hword
  rw [rules_ofStart] at mem
  cases mem

/-- A start symbol without rules reaches nothing else. -/
theorem eq_start_of_reaches (hrules : g.rules g.start = []) (reaches : g.Reaches name) :
    name = g.start := by
  have ⟨form, run, hname⟩ := reaches
  suffices form = [.nonterminal g.start] by
    rw [this, List.mem_singleton] at hname
    exact Symbol.nonterminal.inj hname
  clear hname
  induction run with
  | refl => rfl
  | tail _ step ih =>
    obtain @⟨before, after, source, rule, mem⟩ := step
    have hsource : Symbol.nonterminal source ∈ [Symbol.nonterminal g.start] :=
      ih ▸ List.mem_append_right before List.mem_cons_self
    rw [Symbol.nonterminal.inj (List.mem_singleton.1 hsource), hrules] at mem
    cases mem

/-- Where the language is empty, only the bare start symbol is left. -/
theorem withoutUselessSymbols_eq_ofStart (nodup : g.names.Nodup) (hmem : g.start ∈ g.names)
    (hstart : g.start ∉ g.generating) : g.withoutUselessSymbols = ofStart g.start := by
  have hrules := rules_withoutUselessSymbols_start hstart
  have nodup' := nodup_withoutUselessSymbols nodup
  have hmem' : g.start ∈ g.withoutUselessSymbols.names :=
    (closed_withoutUselessSymbols nodup hmem).start_mem
  -- The start symbol has no rule left, so nothing but itself is reached.
  have hnames : g.withoutUselessSymbols.names = [g.start] := by
    apply List.perm_singleton.1
    apply (List.perm_ext_iff_of_nodup nodup' (List.nodup_singleton _)).2
    intro name
    rw [List.mem_singleton]
    constructor
    · intro h
      exact eq_start_of_reaches (g := g.withoutUselessSymbols) hrules
        (reaches_of_mem_names_withoutUselessSymbols nodup h)
    · exact fun e ↦ e ▸ hmem'
  have ⟨entry, hentries, hname⟩ := List.map_eq_singleton_iff.1 hnames
  have hentry : entry.rules = [] := by
    rw [← rules_of_mem nodup' (hentries ▸ List.mem_singleton_self entry), hname]
    exact hrules
  calc
    g.withoutUselessSymbols = ⟨g.withoutUselessSymbols.entries, g.start⟩ := rfl
    _ = ⟨[⟨g.start, []⟩], g.start⟩ := by rw [hentries, ← hname, ← hentry]
    _ = ofStart g.start := rfl

/-- Every nonterminal that is left is useful, unless there is no word at all. -/
theorem useful_or_eq_ofStart (nodup : g.names.Nodup) (hmem : g.start ∈ g.names) :
    (∀ name ∈ g.withoutUselessSymbols.names, g.withoutUselessSymbols.Reaches name ∧
      ∃ word, word ∈ g.withoutUselessSymbols.language name) ∨
    (∀ word, ¬g.Accepts word) ∧ g.withoutUselessSymbols = ofStart g.start := by
  by_cases hstart : g.start ∈ g.generating
  · left
    intro name h
    constructor
    · exact reaches_of_mem_names_withoutUselessSymbols nodup h
    · exact exists_word_of_mem_names_withoutUselessSymbols nodup hstart h
  · right
    constructor
    · exact fun word h ↦ hstart (mem_generating_iff.2 ⟨word, h⟩)
    · exact withoutUselessSymbols_eq_ofStart nodup hmem hstart

end GrammarForms.Grammar
