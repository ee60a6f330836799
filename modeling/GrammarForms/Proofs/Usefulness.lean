import GrammarForms.Proofs.Conversions
import GrammarForms.Proofs.Simplification

/-!
# Nonterminals That Stay Useful

A nonterminal is useful if it is reached from the start symbol and generates a word.  Where all of
them are useful they stay so when terminals get stand-ins and long rules are split, and the new
nonterminals are useful as well.  A stand-in is reached through the rule in which it stands for its
terminal, and a link through the links before it in its chain.
-/

namespace GrammarForms

namespace Rule

variable {meaning : Meaning} {standIn : List (Char × Char)} {rule : Rule} {name : Char}

/-- The chain of a rule whose nonterminals have words has words throughout. -/
theorem exists_mem_words_splitChain {links : List Char}
    (hrule : ∀ name ∈ nonterminals rule, ∃ word, word ∈ meaning name)
    (hchain : ∀ p ∈ (splitChain rule links).2, ∀ word ∈ words meaning p.right, word ∈ meaning p.left) :
    (∃ word, word ∈ words meaning (splitChain rule links).1) ∧
      ∀ p ∈ (splitChain rule links).2, ∃ word, word ∈ words meaning p.right := by
  induction rule generalizing links with
  | nil => exact ⟨exists_mem_words.2 hrule, by simp [splitChain]⟩
  | cons first rest ih =>
    cases links with
    | nil =>
      rw [splitChain_of_nil]
      exact ⟨exists_mem_words.2 hrule, by simp⟩
    | cons link links =>
      rw [splitChain_cons] at hchain ⊢
      obtain ⟨hlink, hlater⟩ := List.forall_mem_cons.1 hchain
      have hrest : ∀ name ∈ nonterminals rest, ∃ word, word ∈ meaning name := fun name hname ↦
        hrule name (mem_nonterminals_cons_of_mem first hname)
      obtain ⟨⟨tail, htail⟩, hwords⟩ := ih hrest hlater
      refine ⟨exists_mem_words.2 fun name hname ↦ ?_, List.forall_mem_cons.2 ⟨⟨tail, htail⟩, hwords⟩⟩
      rcases List.mem_cons.1 (mem_nonterminals.1 hname) with hfirst | hsecond
      · exact hrule name (mem_nonterminals.2 (hfirst ▸ List.mem_cons_self))
      · have e := Symbol.nonterminal.inj (List.mem_singleton.1 hsecond)
        exact ⟨tail, e ▸ hlink tail htail⟩

/-- A rule keeps its nonterminals when its terminals are replaced. -/
theorem mem_nonterminals_replaceTerminals_of_mem (h : name ∈ nonterminals rule) :
    name ∈ nonterminals (replaceTerminals standIn rule) := by
  by_cases hlength : rule.length < 2
  · rwa [replaceTerminals_of_length_lt hlength]
  · rw [mem_nonterminals, replaceTerminals_eq_map hlength]
    exact List.mem_map.2 ⟨_, mem_nonterminals.1 h, rfl⟩

theorem mem_replaceTerminals_of_misplaced {c : Char} (h : c ∈ misplacedTerminals rule)
    (hlookup : standIn.lookup c = some name) : .nonterminal name ∈ replaceTerminals standIn rule := by
  have hmem := mem_of_mem_misplacedTerminals h
  by_cases hlength : rule.length < 2
  · rw [misplacedTerminals, if_pos hlength] at h
    cases h
  · rw [replaceTerminals_eq_map hlength]
    refine List.mem_map.2 ⟨_, hmem, ?_⟩
    rw [replaceTerminal, hlookup]
    rfl

end Rule

namespace Grammar

variable {g h : Grammar} {standIns links : List Char} {name : Char} {rule : Rule}
  {supply rest : NameSupply}

/-- Every nonterminal is reached and generates a word. -/
structure Useful (g : Grammar) : Prop where
  reached : ∀ name ∈ g.names, name ∈ g.reachable
  generates : ∀ name ∈ g.names, ∃ word, word ∈ g.language name

/-- Every nonterminal is useful, or the start symbol stands alone and has no rule. -/
def UsefulOrBare (g : Grammar) : Prop :=
  g.Useful ∨ g = ofStart g.start

/-- Cleaning ends with useless symbols, so only useful ones are left. -/
theorem usefulOrBare_cleaned (g : Grammar) (policy : EmptyWordPolicy) :
    (g.cleaned policy).UsefulOrBare := by
  rcases useful_or_eq_ofStart_cleaned g policy with useful | ⟨_, hbare⟩
  · left
    constructor
    · intro name hname
      exact (mem_reachable_iff (wellFormed_cleaned g policy).names_nodup).2 (useful name hname).1
    · exact fun name hname ↦ (useful name hname).2
  · right
    rw [start_cleaned]
    exact hbare

/-! ## Stand-ins -/

theorem mem_names_isolatedBy (h : name ∈ (g.isolatedBy standIns).names) (hstart : g.start ∈ g.names) :
    name ∈ g.names ∨ ∃ c, (c, name) ∈ g.misplacedTerminals.zip standIns := by
  rcases mem_names_rebuild.1 h with e | hname | ⟨p, hp, e⟩
  · exact Or.inl (e ▸ hstart)
  · exact Or.inl hname
  · subst e
    rcases List.mem_append.1 hp with hp | hp
    · have ⟨source, hsource, e⟩ := List.mem_map.1 hp
      have hleft : source.left ∈ g.names := left_mem_names hsource
      rw [← e]
      exact Or.inl hleft
    · have ⟨pair, hpair, e⟩ := List.mem_map.1 hp
      exact Or.inr ⟨pair.2, e ▸ mem_zip_swap.2 hpair⟩

/-- A nonterminal is reached through the replaced rules as it was through the old ones. -/
theorem mem_reachable_isolatedBy (nodup : g.names.Nodup) (h : name ∈ g.reachable) :
    name ∈ (g.isolatedBy standIns).reachable := by
  revert name
  apply reachable_induction
  · rw [← start_isolatedBy g standIns]
    exact start_mem_reachable _
  · intro source hsource rule mem other hother
    apply mem_reachable_of_rule (wellFormed_rebuild g _).names_nodup hsource
      ((mem_rules_isolatedBy nodup).2 (Or.inl ⟨rule, mem, rfl⟩))
    exact Rule.mem_nonterminals_replaceTerminals_of_mem hother

/-- Stand-ins are useful, since each replaces a terminal of some useful rule. -/
theorem Useful.isolatedBy (useful : g.Useful) (nodup : g.names.Nodup) (covers : supply.Covers g)
    (hstart : g.start ∈ g.names) (drawn : supply.Drawn standIns rest)
    (hlength : standIns.length = g.misplacedTerminals.length) : (g.isolatedBy standIns).Useful where
  reached := by
    intro name hname
    rcases mem_names_isolatedBy hname hstart with hold | ⟨c, hc⟩
    · exact mem_reachable_isolatedBy nodup (useful.reached name hold)
    · -- The terminal stands in a rule of a nonterminal that is reached.
      have ⟨p, hp, hmisplaced⟩ := List.mem_flatMap.1 (mem_distinct.1 (List.of_mem_zip hc).1)
      have hleft : p.left ∈ (g.isolatedBy standIns).reachable :=
        mem_reachable_isolatedBy nodup (useful.reached p.left (left_mem_names hp))
      have hkeys := nodup_fst_misplacedTerminals_zip hlength
      apply mem_reachable_of_rule (wellFormed_rebuild g _).names_nodup hleft
        ((mem_rules_isolatedBy nodup).2 (Or.inl ⟨p.right, (mem_productions nodup).1 hp, rfl⟩))
      apply Rule.mem_nonterminals.2
      exact Rule.mem_replaceTerminals_of_misplaced hmisplaced (lookup_eq_some_of_mem hkeys hc)
  generates := by
    intro name hname
    rcases mem_names_isolatedBy hname hstart with hold | ⟨c, hc⟩
    · have hnew := covers.notMem_of_mem_names drawn hold
      rw [language_isolatedBy nodup covers drawn hlength hnew]
      exact useful.generates name hold
    · have hrule : [.terminal c] ∈ (g.isolatedBy standIns).rules name :=
        (mem_rules_isolatedBy nodup).2 (Or.inr ⟨c, hc, rfl⟩)
      exact ⟨[c], (g.isolatedBy standIns).isModel_language name _ hrule (Rule.mem_words_terminal.2 rfl)⟩

/-! ## Links -/

/-- From the head of a chain all its links are reached, and so are the nonterminals of the long rule. -/
theorem mem_reachable_of_splitChain (nodup : h.names.Nodup) {links : List Char}
    (hname : name ∈ h.reachable) (hhead : (Rule.splitChain rule links).1 ∈ h.rules name)
    (hchain : ∀ p ∈ (Rule.splitChain rule links).2, p.right ∈ h.rules p.left) :
    (∀ other ∈ Rule.nonterminals rule, other ∈ h.reachable) ∧
      ∀ p ∈ (Rule.splitChain rule links).2, p.left ∈ h.reachable := by
  induction rule generalizing name links with
  | nil => exact ⟨by simp, by simp [Rule.splitChain]⟩
  | cons first rest ih =>
    cases links with
    | nil =>
      rw [Rule.splitChain_of_nil] at hhead ⊢
      exact ⟨fun other ↦ mem_reachable_of_rule nodup hname hhead, by simp⟩
    | cons link links =>
      rw [Rule.splitChain_cons] at hhead hchain ⊢
      obtain ⟨hlink, hlater⟩ := List.forall_mem_cons.1 hchain
      have hreached : link ∈ h.reachable := by
        apply mem_reachable_of_rule nodup hname hhead
        exact Rule.mem_nonterminals_cons_of_mem first (Rule.mem_nonterminals_cons_self link [])
      obtain ⟨hrest, hlinks⟩ := ih hreached hlink hlater
      refine ⟨fun other hother ↦ ?_, List.forall_mem_cons.2 ⟨hreached, hlinks⟩⟩
      rcases List.mem_cons.1 (Rule.mem_nonterminals.1 hother) with hfirst | hother
      · apply mem_reachable_of_rule nodup hname hhead
        exact Rule.mem_nonterminals.2 (hfirst ▸ List.mem_cons_self)
      · exact hrest other (Rule.mem_nonterminals.2 hother)

theorem mem_names_splitBy (h : name ∈ (g.splitBy links).names) (hstart : g.start ∈ g.names) :
    name ∈ g.names ∨ ∃ dealt ∈ dealLinks g.productions links,
      ∃ p ∈ (Rule.splitChain dealt.1.right dealt.2).2, p.left = name := by
  rcases mem_names_rebuild.1 h with e | hname | ⟨p, hp, e⟩
  · exact Or.inl (e ▸ hstart)
  · exact Or.inl hname
  · subst e
    rw [splitAll_eq, List.mem_append, List.mem_map, List.mem_flatMap] at hp
    rcases hp with ⟨dealt, hdealt, e⟩ | ⟨dealt, hdealt, hp⟩
    · have hleft : dealt.1.left ∈ g.names := left_mem_names (mem_of_mem_dealLinks hdealt).1
      rw [← e]
      exact Or.inl hleft
    · exact Or.inr ⟨dealt, hdealt, p, hp, rfl⟩

/-- The head of a chain is a rule of the old left side, and the links have the other rules of the
chain. -/
theorem rules_of_mem_dealLinks {dealt : Production × List Char}
    (hdealt : dealt ∈ dealLinks g.productions links) :
    (Rule.splitChain dealt.1.right dealt.2).1 ∈ (g.splitBy links).rules dealt.1.left ∧
      ∀ p ∈ (Rule.splitChain dealt.1.right dealt.2).2, p.right ∈ (g.splitBy links).rules p.left :=
  ⟨mem_rules_splitBy.2 ⟨dealt, hdealt, Or.inl ⟨rfl, rfl⟩⟩,
    fun _ hp ↦ mem_rules_splitBy.2 ⟨dealt, hdealt, Or.inr hp⟩⟩

/-- A nonterminal is reached through a chain as it was through the rule that was split. -/
theorem mem_reachable_splitBy (nodup : g.names.Nodup) (h : name ∈ g.reachable) :
    name ∈ (g.splitBy links).reachable := by
  revert name
  apply reachable_induction
  · rw [← start_splitBy g links]
    exact start_mem_reachable _
  · intro source hsource rule mem other hother
    have ⟨dealt, hdealt, e⟩ := exists_dealt nodup mem links
    have ⟨hhead, hchain⟩ := rules_of_mem_dealLinks hdealt
    rw [e] at hhead hchain
    have nodup' : (g.splitBy links).names.Nodup := (wellFormed_rebuild g _).names_nodup
    exact (mem_reachable_of_splitChain nodup' hsource hhead hchain).1 other hother

/-- Links are useful, since each carries the rest of some useful rule. -/
theorem Useful.splitBy (useful : g.Useful) (nodup : g.names.Nodup) (closed : g.Closed)
    (covers : supply.Covers g) (drawn : supply.Drawn links rest) : (g.splitBy links).Useful where
  reached := by
    intro name hname
    rcases mem_names_splitBy hname closed.start_mem with hold | ⟨dealt, hdealt, p, hp, e⟩
    · exact mem_reachable_splitBy nodup (useful.reached name hold)
    · have hleft := left_mem_names (mem_of_mem_dealLinks hdealt).1
      have hreached : dealt.1.left ∈ (g.splitBy links).reachable :=
        mem_reachable_splitBy nodup (useful.reached _ hleft)
      have ⟨hhead, hchain⟩ := rules_of_mem_dealLinks hdealt
      have nodup' : (g.splitBy links).names.Nodup := (wellFormed_rebuild g _).names_nodup
      have hlinks := mem_reachable_of_splitChain nodup' hreached hhead hchain
      exact e ▸ hlinks.2 p hp
  generates := by
    -- A link gets its word from the tail it stands for, which has old nonterminals only.
    have hold (name : Char) (hname : name ∈ g.names) :
        ∃ word, word ∈ (g.splitBy links).language name := by
      have hnew := covers.notMem_of_mem_names drawn hname
      rw [language_splitBy nodup covers drawn hnew]
      exact useful.generates name hname
    intro name hname
    rcases mem_names_splitBy hname closed.start_mem with hname | ⟨dealt, hdealt, p, hp, e⟩
    · exact hold name hname
    · have hmodel := (g.splitBy links).isModel_language
      have ⟨_, hchain⟩ := rules_of_mem_dealLinks hdealt
      have hwords := Rule.exists_mem_words_splitChain
        (fun other hother ↦ hold other (closed.defined _ (mem_of_mem_dealLinks hdealt).1 other hother))
        (fun p hp word hword ↦ hmodel p.left p.right (hchain p hp) hword)
      have ⟨word, hword⟩ := hwords.2 p hp
      exact ⟨word, e ▸ hmodel p.left p.right (hchain p hp) hword⟩

/-! ## The start symbol alone -/

@[simp]
theorem skeleton_ofStart (start : Char) : (ofStart start).skeleton = ofStart start := by
  simp [skeleton, names, ofStart, Grammar.declare]

@[simp]
theorem isolatedBy_ofStart (start : Char) : (ofStart start).isolatedBy standIns = ofStart start := by
  have hterminals : (ofStart start).misplacedTerminals = [] := rfl
  rw [Grammar.isolatedBy, hterminals, List.zip_nil_right]
  exact skeleton_ofStart start

@[simp]
theorem splitBy_ofStart (start : Char) : (ofStart start).splitBy links = ofStart start :=
  skeleton_ofStart start

/-! ## Results in Chomsky normal form -/

namespace ChomskyRun

variable {policy : EmptyWordPolicy} {n : Normalization} (run : g.ChomskyRun policy n)

include run

theorem closed_isolated : run.isolated.Closed :=
  (extends_isolatedBy run.nodup_cleaned).closed (closed_cleaned _ _) (fronted_rebuild _ _).start_mem

theorem closed : n.grammar.Closed := by
  rw [run.grammar_eq]
  exact (extends_splitBy run.nodup_isolated).closed run.closed_isolated (fronted_rebuild _ _).start_mem

/-- The Chomsky normal form has no useless nonterminal. -/
theorem usefulOrBare : n.grammar.UsefulOrBare := by
  rw [run.grammar_eq]
  rcases usefulOrBare_cleaned run.started policy with useful | hbare
  · left
    have hisolated : run.isolated.Useful := useful.isolatedBy run.nodup_cleaned run.covers
      (closed_cleaned _ _).start_mem run.drawn_standIns run.length_standIns
    exact hisolated.splitBy run.nodup_isolated run.closed_isolated run.covers_isolated run.drawn_links
  · right
    rw [hbare, isolatedBy_ofStart, splitBy_ofStart]
    rfl

end ChomskyRun

end Grammar

end GrammarForms
