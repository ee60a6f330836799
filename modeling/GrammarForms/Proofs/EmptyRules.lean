import GrammarForms.Elimination.EmptyRules
import GrammarForms.Proofs.Analyses

/-!
# Languages without Empty Rules

A variant of a rule has only words of the rule, and a word of a rule in which some nullable
nonterminals stand for the empty word is a word of the variant without them.  So the variants keep
every nonempty word of every nonterminal and lose the empty word.  Barren nonterminals have no words
left, and they leave without any effect on the languages.  A kept empty rule gives the start symbol
the empty word back, and adds no other word to any language.
-/

namespace GrammarForms

theorem EmptyWordFate.of_eq_kept_iff {nullable : Bool} {policy : EmptyWordPolicy} :
    EmptyWordFate.of nullable policy = .kept ↔ policy = .keepAtStart ∧ nullable = true := by
  cases nullable <;> cases policy <;> simp [EmptyWordFate.of]

theorem EmptyWordFate.of_eq_absent_iff {nullable : Bool} {policy : EmptyWordPolicy} :
    EmptyWordFate.of nullable policy = .absent ↔ nullable = false := by
  cases nullable <;> cases policy <;> simp [EmptyWordFate.of]

theorem EmptyWordFate.of_eq_dropped_iff {nullable : Bool} {policy : EmptyWordPolicy} :
    EmptyWordFate.of nullable policy = .dropped ↔ policy = .drop ∧ nullable = true := by
  cases nullable <;> cases policy <;> simp [EmptyWordFate.of]

/-! ## Variants of a rule -/

namespace Rule

variable {nullable : List Char} {meaning larger : Meaning}

theorem mem_erasures_cons {symbol : Symbol} {rest erased : Rule} :
    erased ∈ erasures nullable (symbol :: rest) ↔
      (∃ shorter ∈ erasures nullable rest, symbol :: shorter = erased) ∨
        ∃ name ∈ nullable, symbol = .nonterminal name ∧ erased ∈ erasures nullable rest := by
  cases symbol with
  | terminal c => simp [erasures]
  | nonterminal name => by_cases hname : name ∈ nullable <;> simp [erasures, hname]

theorem sublist_of_mem_erasures {rule erased : Rule} (h : erased ∈ erasures nullable rule) :
    erased.Sublist rule := by
  induction rule generalizing erased with
  | nil => exact List.mem_singleton.1 h ▸ .slnil
  | cons symbol rest ih =>
    rcases mem_erasures_cons.1 h with ⟨shorter, hshorter, rfl⟩ | ⟨_, -, -, hshorter⟩
    · exact (ih hshorter).cons_cons symbol
    · exact (ih hshorter).cons symbol

/-- A variant is an erasure that is not empty. -/
theorem mem_variants {rule variant : Rule} :
    variant ∈ variants nullable rule ↔ variant ∈ erasures nullable rule ∧ variant ≠ [] := by
  simp [variants]

theorem nonterminals_subset_of_mem_variants {rule variant : Rule}
    (h : variant ∈ variants nullable rule) : nonterminals variant ⊆ nonterminals rule :=
  ((sublist_of_mem_erasures (mem_variants.1 h).1).filterMap _).subset

/-- Only the nonterminals of the rule matter. -/
theorem erasures_congr {others : List Char} {rule : Rule}
    (h : ∀ name ∈ nonterminals rule, name ∈ nullable ↔ name ∈ others) :
    erasures nullable rule = erasures others rule := by
  induction rule with
  | nil => rfl
  | cons symbol rest ih =>
    have hrest := ih fun name hname ↦ h name (mem_nonterminals_cons_of_mem symbol hname)
    cases symbol with
    | terminal c => simp only [erasures, hrest]
    | nonterminal name =>
      have hname : nullable.contains name = others.contains name := by
        rw [Bool.eq_iff_iff, List.contains_iff_mem, List.contains_iff_mem]
        exact h name (mem_nonterminals_cons_self name rest)
      simp only [erasures, hrest, hname]

theorem variants_congr {others : List Char} {rule : Rule}
    (h : ∀ name ∈ nonterminals rule, name ∈ nullable ↔ name ∈ others) :
    variants nullable rule = variants others rule := by
  rw [variants, erasures_congr h, variants]

theorem mentionsAny_iff {names : List Char} {rule : Rule} :
    mentionsAny names rule = true ↔ ∃ name ∈ nonterminals rule, name ∈ names := by
  simp [mentionsAny]

theorem mentionsAny_eq_false_iff {names : List Char} {rule : Rule} :
    mentionsAny names rule = false ↔ ∀ name ∈ nonterminals rule, name ∉ names := by
  rw [← Bool.not_eq_true, mentionsAny_iff]
  push Not
  rfl

theorem mentionsAny_congr {names others : List Char} {rule : Rule}
    (h : ∀ name ∈ nonterminals rule, name ∈ names ↔ name ∈ others) :
    mentionsAny names rule = mentionsAny others rule := by
  rw [Bool.eq_iff_iff, mentionsAny_iff, mentionsAny_iff]
  exact exists_congr fun name ↦ and_congr_right (h name)

/-- Erasing a nonterminal that has the empty word adds no word to a rule. -/
theorem words_le_of_mem_erasures (hnullable : ∀ name ∈ nullable, [] ∈ meaning name)
    {rule erased : Rule} (h : erased ∈ erasures nullable rule) :
    words meaning erased ≤ words meaning rule := by
  induction rule generalizing erased with
  | nil => exact List.mem_singleton.1 h ▸ le_rfl
  | cons symbol rest ih =>
    rw [words_cons]
    rcases mem_erasures_cons.1 h with ⟨shorter, hshorter, rfl⟩ | ⟨name, hname, rfl, hshorter⟩
    · rw [words_cons]
      exact mul_le_mul' le_rfl (ih hshorter)
    · exact fun word hword ↦ ⟨[], hnullable name hname, word, ih hshorter hword, rfl⟩

/-- Nonterminals that stand for the empty word only where they are nullable can be erased there. -/
theorem exists_mem_erasures
    (h : ∀ name, ∀ word ∈ larger name, word ∈ meaning name ∨ word = [] ∧ name ∈ nullable)
    {rule : Rule} {word : List Char} (hword : word ∈ words larger rule) :
    ∃ erased ∈ erasures nullable rule, word ∈ words meaning erased := by
  induction rule generalizing word with
  | nil => exact ⟨[], List.mem_singleton_self _, hword⟩
  | cons symbol rest ih =>
    rw [words_cons] at hword
    obtain ⟨left, hleft, right, hright, rfl⟩ := hword
    obtain ⟨erased, herased, hright⟩ := ih hright
    have keep (hleft : left ∈ symbol.words meaning) :
        ∃ erased ∈ erasures nullable (symbol :: rest), left ++ right ∈ words meaning erased := by
      refine ⟨symbol :: erased, mem_erasures_cons.2 (Or.inl ⟨erased, herased, rfl⟩), ?_⟩
      rw [words_cons]
      exact Language.append_mem_mul hleft hright
    cases symbol with
    | terminal c => exact keep hleft
    | nonterminal name =>
      rcases h name left hleft with hleft | ⟨rfl, hname⟩
      · exact keep hleft
      · exact ⟨erased, mem_erasures_cons.2 (Or.inr ⟨name, hname, rfl, herased⟩), hright⟩

end Rule

namespace Grammar

variable {g : Grammar} {policy : EmptyWordPolicy} {name : Char} {word : List Char}

/-! ## Variants of a grammar -/

/-- Without empty rules, a nonterminal has the variants of its rules and nothing else. -/
theorem mem_rules_withVariants (nodup : g.names.Nodup) {variant : Rule} :
    variant ∈ g.withVariants.rules name ↔
      ∃ rule ∈ g.rules name, variant ∈ Rule.variants g.nullable rule := by
  rw [withVariants, mem_rules_rebuild, List.mem_flatMap]
  constructor
  · rintro ⟨p, hp, hvariant⟩
    obtain ⟨_, hvariant, e⟩ := List.mem_map.1 hvariant
    cases e
    exact ⟨p.right, (mem_productions nodup).1 hp, hvariant⟩
  · rintro ⟨rule, mem, hvariant⟩
    exact ⟨⟨name, rule⟩, (mem_productions nodup).2 mem, List.mem_map_of_mem hvariant⟩

theorem mem_names_withVariants :
    name ∈ g.withVariants.names ↔ name = g.start ∨ name ∈ g.names := by
  rw [withVariants, mem_names_rebuild]
  refine or_congr_right (or_iff_left_of_imp ?_)
  rintro ⟨p, hp, rfl⟩
  obtain ⟨source, hsource, hp⟩ := List.mem_flatMap.1 hp
  obtain ⟨_, _, rfl⟩ := List.mem_map.1 hp
  have hname : source.left ∈ g.names := left_mem_names hsource
  exact hname

/-- The old languages satisfy the rules of the variants. -/
theorem isModel_withVariants (nodup : g.names.Nodup) : g.withVariants.IsModel g.language := by
  intro name variant mem
  obtain ⟨rule, mem, hvariant⟩ := (mem_rules_withVariants nodup).1 mem
  refine le_trans ?_ (g.isModel_language name rule mem)
  exact Rule.words_le_of_mem_erasures (fun _ ↦ mem_nullable_iff.1) (Rule.mem_variants.1 hvariant).1

/-- Where no rule is empty, no language has the empty word. -/
theorem nil_notMem_language_of_nonempty_rules (h : ∀ name, [] ∉ g.rules name) :
    [] ∉ g.language name := by
  let nonempty : Meaning := fun _ ↦ {word | word ≠ []}
  have model : g.IsModel nonempty := by
    rintro name rule mem word hword rfl
    cases rule with
    | nil => exact h name mem
    | cons symbol rest =>
      obtain ⟨_, -, hnil⟩ := Rule.nil_mem_words.1 hword symbol List.mem_cons_self
      exact hnil rfl
  exact fun hnil ↦ model.language_le name hnil rfl

theorem nil_notMem_rules_withVariants (nodup : g.names.Nodup) : [] ∉ g.withVariants.rules name := by
  intro mem
  obtain ⟨rule, -, hvariant⟩ := (mem_rules_withVariants nodup).1 mem
  exact (Rule.mem_variants.1 hvariant).2 rfl

/-- Variants keep every word of every nonterminal but the empty one. -/
theorem mem_language_withVariants (nodup : g.names.Nodup) :
    word ∈ g.withVariants.language name ↔ word ∈ g.language name ∧ word ≠ [] := by
  have hnil : ∀ name, [] ∉ g.withVariants.language name := fun name ↦
    nil_notMem_language_of_nonempty_rules fun _ ↦ nil_notMem_rules_withVariants nodup
  constructor
  · intro h
    exact ⟨(isModel_withVariants nodup).language_le name h, fun e ↦ hnil name (e ▸ h)⟩
  -- Give nullable nonterminals their empty word back: this satisfies the old rules, hence covers them.
  · let restored : Meaning := fun name ↦
      {word | word ∈ g.withVariants.language name ∨ word = [] ∧ name ∈ g.nullable}
    have model : g.IsModel restored := by
      intro name rule mem word hword
      obtain ⟨erased, herased, hword⟩ := Rule.exists_mem_erasures (fun _ _ h ↦ h) hword
      by_cases hempty : erased = []
      · subst hempty
        have hword : word = [] := hword
        subst hword
        refine Or.inr ⟨rfl, mem_nullable_iff.2 (g.isModel_language name rule mem ?_)⟩
        exact Rule.words_le_of_mem_erasures (fun _ ↦ mem_nullable_iff.1) herased rfl
      · refine Or.inl (g.withVariants.isModel_language name erased ?_ hword)
        exact (mem_rules_withVariants nodup).2 ⟨rule, mem, Rule.mem_variants.2 ⟨herased, hempty⟩⟩
    rintro ⟨h, hne⟩
    exact (model.language_le name h).resolve_right fun e ↦ hne e.1

/-! ## Barren nonterminals -/

theorem notMem_words_of_mentionsAny {names : List Char} {meaning : Meaning}
    (h : ∀ name ∈ names, ∀ word, word ∉ meaning name) {rule : Rule}
    (hrule : Rule.mentionsAny names rule = true) : word ∉ Rule.words meaning rule := by
  intro hword
  obtain ⟨name, hname, hmem⟩ := Rule.mentionsAny_iff.1 hrule
  obtain ⟨other, hother⟩ := Rule.exists_mem_words.1 ⟨word, hword⟩ name hname
  exact h name hmem other hother

/-- A barren nonterminal has no word at all, so leaving out the rules that mention it is safe. -/
theorem notMem_language_of_mem_barren (h : name ∈ g.barren) : word ∉ g.language name := by
  suffices ∀ name ∈ g.barren, ∀ word, word ∉ g.language name from this name h word
  refine leastSet_induction (P := fun name ↦ ∀ word, word ∉ g.language name) ?_
  intro members name hmembers _ hall word hword
  obtain ⟨rule, mem, hword⟩ := mem_language_iff.1 hword
  exact notMem_words_of_mentionsAny hmembers (List.all_eq_true.1 hall rule mem) hword

@[simp]
theorem start_withoutBarren (g : Grammar) : g.withoutBarren.start = g.start := rfl

/-- Each rule of a barren nonterminal mentions a barren one. -/
theorem mentionsAny_barren (h : name ∈ g.barren) {rule : Rule} (mem : rule ∈ g.rules name) :
    Rule.mentionsAny g.barren rule = true := by
  suffices ∀ name ∈ g.barren, name ∈ g.barren ∧
      (g.rules name).all (Rule.mentionsAny g.barren) = true from
    List.all_eq_true.1 (this name h).2 rule mem
  apply leastSet_induction
  intro members name hmembers hname hall
  have hmentions : ∀ rule ∈ g.rules name, Rule.mentionsAny g.barren rule = true := by
    intro rule mem
    have ⟨other, hother, hmember⟩ := Rule.mentionsAny_iff.1 (List.all_eq_true.1 hall rule mem)
    exact Rule.mentionsAny_iff.2 ⟨other, hother, (hmembers other hmember).1⟩
  have hadmits := List.all_eq_true.2 hmentions
  exact ⟨mem_leastSet_iff.2 ⟨hname, Or.inr hadmits⟩, hadmits⟩

/-- Fewer rules leave the barren nonterminals barren.  It is enough to look at nonterminals whose rules
mention only such nonterminals. -/
theorem mem_barren_of_mem_barren {h : Grammar} (inside : Char → Prop)
    (names : ∀ name, inside name → name ∈ g.names → name ∈ h.names)
    (rules : ∀ name, inside name → h.rules name ⊆ g.rules name)
    (closed : ∀ name, inside name → ∀ rule ∈ h.rules name, ∀ other ∈ Rule.nonterminals rule, inside other) :
    ∀ name ∈ g.barren, inside name → name ∈ h.barren := by
  apply leastSet_induction
  intro members name hmembers hname hall hinside
  refine mem_leastSet_iff.2 ⟨names name hinside hname, Or.inr (List.all_eq_true.2 ?_)⟩
  intro rule mem
  have hmentions := List.all_eq_true.1 hall rule (rules name hinside mem)
  have ⟨other, hother, hmember⟩ := Rule.mentionsAny_iff.1 hmentions
  have hother' := closed name hinside rule mem other hother
  exact Rule.mentionsAny_iff.2 ⟨other, hother, hmembers other hmember hother'⟩

/-- A barren nonterminal has no rule left, whether it keeps its entry or not. -/
theorem rules_withoutBarren (g : Grammar) (name : Char) :
    g.withoutBarren.rules name = (g.rules name).filter (!Rule.mentionsAny g.barren ·) := by
  rw [withoutBarren, rules_keepEntries _ (!g.barren.contains ·), rules_keepRules]
  split
  · rfl
  · rename_i h
    have hname : name ∈ g.barren := by simpa using (not_or.1 h).2
    rw [eq_comm, List.filter_eq_nil_iff]
    intro rule mem
    simp [mentionsAny_barren hname mem]

theorem rules_withoutBarren_subset : g.withoutBarren.rules name ⊆ g.rules name := by
  rw [rules_withoutBarren]
  exact List.filter_sublist.subset

theorem mem_rules_withoutBarren {rule : Rule} : rule ∈ g.withoutBarren.rules name ↔
    rule ∈ g.rules name ∧ ∀ other ∈ Rule.nonterminals rule, other ∉ g.barren := by
  rw [rules_withoutBarren, List.mem_filter, Bool.not_eq_true', Rule.mentionsAny_eq_false_iff]

theorem mem_names_withoutBarren :
    name ∈ g.withoutBarren.names ↔ name ∈ g.names ∧ (name = g.start ∨ name ∉ g.barren) := by
  rw [withoutBarren, mem_names_keepEntries (!g.barren.contains ·), names_keepRules]
  simp [keepRules]

/-- Leaving out barren nonterminals keeps every language. -/
theorem language_withoutBarren (g : Grammar) : g.withoutBarren.language = g.language := by
  apply language_eq_of_wordless (fun _ ↦ rules_withoutBarren_subset)
  intro name rule mem
  by_cases hrule : Rule.mentionsAny g.barren rule = true
  · refine Or.inr fun word ↦ notMem_words_of_mentionsAny ?_ hrule
    exact fun _ hbarren _ ↦ notMem_language_of_mem_barren hbarren
  · left
    rw [rules_withoutBarren]
    exact List.mem_filter.2 ⟨mem, by simpa using hrule⟩

/-! ## The elimination as a whole -/

/-- Whether the start symbol gets its empty rule back. -/
def KeepsEmptyWord (g : Grammar) (policy : EmptyWordPolicy) : Prop :=
  policy = .keepAtStart ∧ g.isStartNullable = true

/-- The result has the variants without barren nonterminals, and the empty rule of the start symbol
where it is kept. -/
theorem mem_rules_withoutEmptyRules {rule : Rule} :
    rule ∈ (g.withoutEmptyRules policy).rules name ↔
      rule ∈ g.withVariants.withoutBarren.rules name ∨
        name = g.start ∧ rule = [] ∧ g.KeepsEmptyWord policy := by
  unfold withoutEmptyRules
  split
  · rename_i h
    have hkeeps : g.KeepsEmptyWord policy := h
    rw [mem_rules_addRule]
    simp [hkeeps]
  · rename_i h
    have hdrops : ¬g.KeepsEmptyWord policy := h
    simp [hdrops]

@[simp]
theorem start_withoutEmptyRules (g : Grammar) (policy : EmptyWordPolicy) :
    (g.withoutEmptyRules policy).start = g.start := by
  unfold withoutEmptyRules
  split <;> simp [withVariants]

theorem mem_names_withoutEmptyRules :
    name ∈ (g.withoutEmptyRules policy).names ↔
      name = g.start ∨ name ∈ g.names ∧ name ∉ g.withVariants.barren := by
  have hpruned : name ∈ g.withVariants.withoutBarren.names ↔
      name = g.start ∨ name ∈ g.names ∧ name ∉ g.withVariants.barren := by
    have hstart : g.withVariants.start = g.start := start_rebuild g _
    rw [mem_names_withoutBarren, mem_names_withVariants, hstart, ← or_and_left]
  unfold withoutEmptyRules
  split
  · rw [mem_names_addRule, hpruned]
    exact or_iff_left_of_imp Or.inl
  · exact hpruned

theorem names_withoutEmptyRules_subset :
    (g.withoutEmptyRules policy).names ⊆ g.start :: g.names := by
  intro name hname
  exact List.mem_cons.2 ((mem_names_withoutEmptyRules.1 hname).imp_right And.left)

/-- The only empty rule left is the one that the start symbol gets back. -/
theorem nil_mem_rules_withoutEmptyRules (nodup : g.names.Nodup) :
    [] ∈ (g.withoutEmptyRules policy).rules name ↔ name = g.start ∧ g.KeepsEmptyWord policy := by
  rw [mem_rules_withoutEmptyRules]
  have hnil : [] ∉ g.withVariants.withoutBarren.rules name := fun h ↦
    nil_notMem_rules_withVariants nodup (rules_withoutBarren_subset h)
  simp [hnil]

/-- A rule that is not empty is a variant. -/
theorem exists_variant_of_mem_rules_withoutEmptyRules (nodup : g.names.Nodup) {rule : Rule}
    (hne : rule ≠ []) (mem : rule ∈ (g.withoutEmptyRules policy).rules name) :
    ∃ source ∈ g.rules name, rule ∈ Rule.variants g.nullable source := by
  rcases mem_rules_withoutEmptyRules.1 mem with mem | ⟨-, rfl, -⟩
  · exact (mem_rules_withVariants nodup).1 (rules_withoutBarren_subset mem)
  · exact absurd rfl hne

/-- The elimination adds no word to any language. -/
theorem language_withoutEmptyRules_le (nodup : g.names.Nodup) :
    (g.withoutEmptyRules policy).language ≤ g.language := by
  apply IsModel.language_le
  intro name rule mem
  rcases mem_rules_withoutEmptyRules.1 mem with mem | ⟨rfl, rfl, hkeeps⟩
  · exact isModel_withVariants nodup name rule (rules_withoutBarren_subset mem)
  · rintro word (rfl : word = [])
    exact isStartNullable_iff.1 hkeeps.2

/-- The elimination loses no word but the empty one. -/
theorem mem_language_withoutEmptyRules_of_ne_nil (nodup : g.names.Nodup) (hne : word ≠ [])
    (h : word ∈ g.language name) : word ∈ (g.withoutEmptyRules policy).language name := by
  have hpruned : word ∈ g.withVariants.withoutBarren.language name := by
    rw [language_withoutBarren]
    exact (mem_language_withVariants nodup).2 ⟨h, hne⟩
  exact language_le_of_rules_subset (fun _ _ mem ↦ mem_rules_withoutEmptyRules.2 (Or.inl mem))
    name hpruned

/-- The start symbol keeps the empty word exactly if its empty rule was restored. -/
theorem nil_mem_language_withoutEmptyRules (nodup : g.names.Nodup) :
    [] ∈ (g.withoutEmptyRules policy).language g.start ↔ g.KeepsEmptyWord policy := by
  constructor
  · intro h
    by_contra hdrops
    refine nil_notMem_language_of_nonempty_rules (fun name mem ↦ hdrops ?_) h
    exact ((nil_mem_rules_withoutEmptyRules nodup).1 mem).2
  · intro hkeeps
    refine (g.withoutEmptyRules policy).isModel_language g.start [] ?_ rfl
    exact (nil_mem_rules_withoutEmptyRules nodup).2 ⟨rfl, hkeeps⟩

/-- The grammar accepts what it did, up to the empty word where it is dropped. -/
theorem accepts_withoutEmptyRules (nodup : g.names.Nodup) :
    (g.withoutEmptyRules policy).Accepts word ↔
      g.Accepts word ∧ (word ≠ [] ∨ policy = .keepAtStart) := by
  rw [accepts_iff, accepts_iff, start_withoutEmptyRules]
  by_cases hword : word = []
  · subst hword
    rw [nil_mem_language_withoutEmptyRules nodup, KeepsEmptyWord, isStartNullable_iff, accepts_iff]
    simp [and_comm]
  · constructor
    · exact fun h ↦ ⟨language_withoutEmptyRules_le nodup _ h, Or.inl hword⟩
    · exact fun h ↦ mem_language_withoutEmptyRules_of_ne_nil nodup hword h.1

theorem mem_language_withoutEmptyRules_iff_of_ne_nil (nodup : g.names.Nodup) (hne : word ≠ []) :
    word ∈ (g.withoutEmptyRules policy).language name ↔ word ∈ g.language name :=
  ⟨fun h ↦ language_withoutEmptyRules_le nodup name h,
    mem_language_withoutEmptyRules_of_ne_nil nodup hne⟩

theorem nil_notMem_language_withoutEmptyRules_drop (nodup : g.names.Nodup) :
    [] ∉ (g.withoutEmptyRules .drop).language name := by
  apply nil_notMem_language_of_nonempty_rules
  intro other mem
  have ⟨_, hpolicy, _⟩ := (nil_mem_rules_withoutEmptyRules nodup).1 mem
  cases hpolicy

/-- A nonterminal that leaves had no word but the empty one. -/
theorem eq_nil_of_notMem_names_withoutEmptyRules (nodup : g.names.Nodup)
    (hname : name ∉ (g.withoutEmptyRules policy).names) (h : word ∈ g.language name) : word = [] := by
  by_contra hne
  have hkept : word ∈ (g.withoutEmptyRules policy).language name :=
    mem_language_withoutEmptyRules_of_ne_nil nodup hne h
  have ⟨_, mem, _⟩ := mem_language_iff.1 hkept
  exact hname (mem_names_of_mem_rules mem)

/-! ## Main result -/

/-- The nonterminals that stay keep their nonempty words, and those that leave had none.  The empty word
stays with a nullable start symbol alone, if at all. -/
theorem generates_withoutEmptyRules_iff (wf : g.WellFormed) :
    (∀ name ∈ (g.withoutEmptyRules .drop).names, ∀ word,
      (g.withoutEmptyRules .drop).Generates name word ↔ g.Generates name word ∧ word ≠ []) ∧
    (∀ policy, ∀ name ∈ g.names, name ∉ (g.withoutEmptyRules policy).names →
      ∀ word, g.Generates name word → word = []) ∧
    (g.Accepts [] →
      (∀ word, (g.withoutEmptyRules .keepAtStart).Accepts word ↔ g.Accepts word) ∧
      ∀ name ∈ (g.withoutEmptyRules .keepAtStart).names, name ≠ g.start → ∀ word, word ≠ [] →
        ((g.withoutEmptyRules .keepAtStart).Generates name word ↔ g.Generates name word)) ∧
    ∀ policy name, [] ∈ (g.withoutEmptyRules policy).rules name → name = g.start := by
  have nodup := wf.names_nodup
  refine ⟨fun name _ word ↦ ?_, fun policy name _ hname word ↦ ?_, fun _ ↦ ⟨fun word ↦ ?_, ?_⟩, ?_⟩
  · constructor
    · intro h
      refine ⟨language_withoutEmptyRules_le nodup name h, fun e ↦ ?_⟩
      exact nil_notMem_language_withoutEmptyRules_drop nodup (e ▸ h)
    · exact fun ⟨h, hne⟩ ↦ mem_language_withoutEmptyRules_of_ne_nil nodup hne h
  · exact eq_nil_of_notMem_names_withoutEmptyRules nodup hname
  · rw [accepts_withoutEmptyRules nodup]
    exact and_iff_left (Or.inr rfl)
  · exact fun name _ _ word hne ↦ mem_language_withoutEmptyRules_iff_of_ne_nil nodup hne
  · exact fun policy name h ↦ ((nil_mem_rules_withoutEmptyRules nodup).1 h).1

/-- The start symbol is nullable and is mentioned, and two nonterminals have the empty word alone. -/
def fading : Grammar :=
  ⟨[⟨'S', [[.nonterminal 'S', .nonterminal 'E', .nonterminal 'S'], [.terminal 'a'], [.nonterminal 'F']]⟩,
    ⟨'E', [[], [.nonterminal 'F', .nonterminal 'F']]⟩,
    ⟨'F', [[]]⟩,
    ⟨'B', [[.terminal 'b', .nonterminal 'S', .nonterminal 'E']]⟩], 'S'⟩

/-- The start symbol keeps the empty word, `B` keeps its words, and `E` had nothing else to lose. -/
theorem generates_withoutEmptyRules_iff_fading :
    fading.WellFormed ∧ fading.Accepts [] ∧
      (∀ word, (fading.withoutEmptyRules .keepAtStart).Accepts word ↔ fading.Accepts word) ∧
      (∀ word, word ≠ [] →
        ((fading.withoutEmptyRules .keepAtStart).Generates 'B' word ↔ fading.Generates 'B' word)) ∧
      ∀ word, fading.Generates 'E' word → word = [] := by
  have wf : fading.WellFormed := ⟨by decide, by decide⟩
  have haccepts : fading.Accepts [] := isStartNullable_iff.1 (by decide)
  have ⟨_, hremoved, hkept, _⟩ := generates_withoutEmptyRules_iff wf
  have ⟨hstart, hother⟩ := hkept haccepts
  exact ⟨wf, haccepts, hstart, hother 'B' (by decide) (by decide),
    hremoved .drop 'E' (by decide) (by decide)⟩

end Grammar

end GrammarForms
