import GrammarForms.Proofs.StandIns
import GrammarForms.Proofs.Unfolding
import Mathlib.Data.List.Zip

/-!
# Isolating Terminals

Each misplaced terminal has a stand-in of its own, a nonterminal whose only rule is that terminal.
Unfolding the stand-ins gives the old rules back, so no language changes.  Afterwards a rule of two or
more symbols holds no terminal, and shorter rules are as they were.
-/

namespace GrammarForms

/-! ## Rules with stand-ins -/

namespace Rule

variable {standIn : List (Char × Char)} {meaning : Meaning}

theorem replaceTerminals_of_length_lt {rule : Rule} (h : rule.length < 2) :
    replaceTerminals standIn rule = rule := by
  rw [replaceTerminals, if_pos h]

theorem replaceTerminals_eq_map {rule : Rule} (h : ¬rule.length < 2) :
    replaceTerminals standIn rule = rule.map (replaceTerminal standIn) := by
  rw [replaceTerminals, if_neg h]

@[simp]
theorem length_replaceTerminals (standIn : List (Char × Char)) (rule : Rule) :
    (replaceTerminals standIn rule).length = rule.length := by
  by_cases h : rule.length < 2
  · rw [replaceTerminals_of_length_lt h]
  · rw [replaceTerminals_eq_map h, List.length_map]

/-- Stand-ins are the only symbols that come in. -/
theorem mem_replaceTerminals {rule : Rule} {symbol : Symbol} (h : symbol ∈ replaceTerminals standIn rule) :
    symbol ∈ rule ∨ ∃ c name, (c, name) ∈ standIn ∧ symbol = .nonterminal name := by
  by_cases hlength : rule.length < 2
  · rw [replaceTerminals_of_length_lt hlength] at h
    exact Or.inl h
  · rw [replaceTerminals_eq_map hlength, List.mem_map] at h
    have ⟨source, hsource, himage⟩ := h
    cases source with
    | nonterminal other => exact Or.inl (himage ▸ hsource)
    | terminal c =>
      rw [replaceTerminal] at himage
      cases hlookup : standIn.lookup c with
      | none =>
        rw [hlookup] at himage
        exact Or.inl (himage ▸ hsource)
      | some other =>
        rw [hlookup] at himage
        exact Or.inr ⟨c, other, mem_of_lookup_eq_some hlookup, himage.symm⟩

theorem mem_nonterminals_replaceTerminals {rule : Rule} {name : Char}
    (h : name ∈ nonterminals (replaceTerminals standIn rule)) :
    name ∈ nonterminals rule ∨ ∃ c, (c, name) ∈ standIn := by
  rcases mem_replaceTerminals (mem_nonterminals.1 h) with hold | ⟨c, other, hstandIn, hsymbol⟩
  · exact Or.inl (mem_nonterminals.2 hold)
  · exact Or.inr ⟨c, Symbol.nonterminal.inj hsymbol ▸ hstandIn⟩

/-- In a rule of two or more symbols every terminal is misplaced. -/
theorem mem_misplacedTerminals {rule : Rule} (h : ¬rule.length < 2) {c : Char} :
    c ∈ misplacedTerminals rule ↔ .terminal c ∈ rule := by
  rw [misplacedTerminals, if_neg h, terminals, List.mem_filterMap]
  constructor
  · rintro ⟨symbol, hsymbol, hc⟩
    cases symbol with
    | terminal other => exact Option.some.inj hc ▸ hsymbol
    | nonterminal name => cases hc
  · exact fun hc ↦ ⟨_, hc, rfl⟩

theorem mem_of_mem_misplacedTerminals {rule : Rule} {c : Char} (h : c ∈ misplacedTerminals rule) :
    .terminal c ∈ rule := by
  by_cases hlength : rule.length < 2
  · rw [misplacedTerminals, if_pos hlength] at h
    cases h
  · exact (mem_misplacedTerminals hlength).1 h

/-- A longer rule whose terminals all have a stand-in keeps none of them. -/
theorem exists_nonterminal_of_mem_replaceTerminals {rule : Rule} (hlength : ¬rule.length < 2)
    (h : ∀ c ∈ misplacedTerminals rule, ∃ name, standIn.lookup c = some name) {symbol : Symbol}
    (hsymbol : symbol ∈ replaceTerminals standIn rule) : ∃ name, symbol = .nonterminal name := by
  rw [replaceTerminals_eq_map hlength, List.mem_map] at hsymbol
  have ⟨source, hsource, himage⟩ := hsymbol
  cases source with
  | nonterminal name => exact ⟨name, himage.symm⟩
  | terminal c =>
    have ⟨name, hname⟩ := h c ((mem_misplacedTerminals hlength).2 hsource)
    refine ⟨name, ?_⟩
    rw [← himage, replaceTerminal, hname]
    rfl

/-- Where each stand-in has its terminal as a word, a rule loses nothing by the replacement. -/
theorem words_le_words_replaceTerminals (h : ∀ c name, (c, name) ∈ standIn → [c] ∈ meaning name)
    (rule : Rule) : words meaning rule ≤ words meaning (replaceTerminals standIn rule) := by
  by_cases hlength : rule.length < 2
  · rw [replaceTerminals_of_length_lt hlength]
  · rw [replaceTerminals_eq_map hlength]
    clear hlength
    induction rule with
    | nil => exact le_rfl
    | cons symbol rest ih =>
      rw [List.map_cons, words_cons, words_cons]
      refine mul_le_mul' ?_ ih
      cases symbol with
      | nonterminal name => exact le_rfl
      | terminal c =>
        cases hlookup : standIn.lookup c with
        | none => simp [replaceTerminal, hlookup]
        | some name =>
          have hword : [c] ∈ meaning name := h c name (mem_of_lookup_eq_some hlookup)
          intro word hc
          have e : word = [c] := hc
          rw [e, replaceTerminal, hlookup]
          exact hword

/-- Reading each stand-in as its terminal undoes the replacement. -/
theorem unfold_replaceTerminals {image : Char → Rule} {rule : Rule}
    (hold : ∀ name ∈ nonterminals rule, image name = [.nonterminal name])
    (hstandIn : ∀ c name, (c, name) ∈ standIn → image name = [.terminal c]) :
    unfold image (replaceTerminals standIn rule) = rule := by
  by_cases hlength : rule.length < 2
  · rw [replaceTerminals_of_length_lt hlength, unfold_eq_self hold]
  · rw [replaceTerminals_eq_map hlength]
    clear hlength
    induction rule with
    | nil => rfl
    | cons symbol rest ih =>
      have hrest := ih fun name hname ↦ hold name (mem_nonterminals_cons_of_mem symbol hname)
      rw [List.map_cons]
      cases symbol with
      | nonterminal name =>
        rw [replaceTerminal, unfold_nonterminal_cons, hrest,
          hold name (mem_nonterminals_cons_self name rest)]
        rfl
      | terminal c =>
        cases hlookup : standIn.lookup c with
        | none => simp [replaceTerminal, hlookup, hrest]
        | some name =>
          have himage := hstandIn c name (mem_of_lookup_eq_some hlookup)
          simp [replaceTerminal, hlookup, hrest, himage]

end Rule

/-! ## The grammar with stand-ins -/

namespace Grammar

variable {g result : Grammar} {standIns : List Char} {name : Char} {rule : Rule}
  {supply rest : NameSupply}

/-- A walk that succeeds has drawn one new name for each misplaced terminal. -/
theorem exists_standIns (h : g.isolateTerminals.outcome supply = (.ok result, rest)) :
    ∃ standIns, standIns.length = g.misplacedTerminals.length ∧ supply.Drawn standIns rest ∧
      result = g.isolatedBy standIns := by
  rw [isolateTerminals_eq] at h
  have ⟨standIns, hdraw, hresult⟩ := Naming.outcome_map_eq_ok.1 h
  have ⟨hlength, hdrawn⟩ := NameSupply.drawn_of_freshMany hdraw
  exact ⟨standIns, hlength, hdrawn, hresult.symm⟩

theorem mem_zip_swap {c : Char} :
    (c, name) ∈ g.misplacedTerminals.zip standIns ↔ (name, c) ∈ standIns.zip g.misplacedTerminals := by
  rw [← List.zip_swap standIns, List.mem_map]
  simp

theorem nodup_fst_misplacedTerminals_zip (hlength : standIns.length = g.misplacedTerminals.length) :
    ((g.misplacedTerminals.zip standIns).map Prod.fst).Nodup := by
  rw [List.map_fst_zip hlength.ge]
  exact nodup_distinct _

theorem exists_standIn (hlength : standIns.length = g.misplacedTerminals.length) {c : Char}
    (hc : c ∈ g.misplacedTerminals) : ∃ standIn, (c, standIn) ∈ g.misplacedTerminals.zip standIns := by
  rw [← List.map_fst_zip hlength.ge, List.mem_map] at hc
  have ⟨pair, hpair, e⟩ := hc
  exact ⟨pair.2, e ▸ hpair⟩

/-- The rules are the old ones after the replacement, and one terminal for each stand-in. -/
theorem mem_rules_isolatedBy (nodup : g.names.Nodup) :
    rule ∈ (g.isolatedBy standIns).rules name ↔
      (∃ source ∈ g.rules name,
        Rule.replaceTerminals (g.misplacedTerminals.zip standIns) source = rule) ∨
      ∃ c, (c, name) ∈ g.misplacedTerminals.zip standIns ∧ rule = [.terminal c] := by
  rw [isolatedBy, mem_rules_rebuild, List.mem_append]
  apply or_congr
  · constructor
    · intro h
      have ⟨p, hp, e⟩ := List.mem_map.1 h
      cases e
      exact ⟨p.right, (mem_productions nodup).1 hp, rfl⟩
    · intro ⟨source, mem, hrule⟩
      exact List.mem_map.2 ⟨⟨name, source⟩, (mem_productions nodup).2 mem, by rw [hrule]⟩
  · simp [mem_zip_swap, eq_comm]

/-- What a stand-in stands for. -/
def standInImage (g : Grammar) (standIns : List Char) (name : Char) : Rule :=
  (((standIns.zip g.misplacedTerminals).lookup name).map fun c ↦ [.terminal c]).getD
    [.nonterminal name]

theorem standInImage_of_notMem (h : name ∉ standIns) :
    g.standInImage standIns name = [.nonterminal name] := by
  have hlookup : (standIns.zip g.misplacedTerminals).lookup name = none := by
    rw [List.lookup_eq_none_iff]
    intro pair hpair
    have hne : name ≠ pair.1 := fun e ↦ h (e ▸ (List.of_mem_zip hpair).1)
    simpa using hne
  rw [standInImage, hlookup]
  rfl

theorem standInImage_of_mem (hlength : standIns.length = g.misplacedTerminals.length)
    (nodup : standIns.Nodup) {c : Char}
    (h : (c, name) ∈ g.misplacedTerminals.zip standIns) :
    g.standInImage standIns name = [.terminal c] := by
  have hkeys : ((standIns.zip g.misplacedTerminals).map Prod.fst).Nodup := by
    rwa [List.map_fst_zip hlength.le]
  rw [standInImage, lookup_eq_some_of_mem hkeys (mem_zip_swap.1 h)]
  rfl

theorem unfold_standInImage (covers : supply.Covers g) (drawn : supply.Drawn standIns rest)
    (hlength : standIns.length = g.misplacedTerminals.length) (mem : rule ∈ g.rules name) :
    Rule.unfold (g.standInImage standIns)
      (Rule.replaceTerminals (g.misplacedTerminals.zip standIns) rule) = rule := by
  apply Rule.unfold_replaceTerminals
  · intro other hother
    exact standInImage_of_notMem (covers.notMem_of_mem_nonterminals drawn mem hother)
  · exact fun c other ↦ standInImage_of_mem hlength drawn.nodup

/-- Reading the stand-ins as their terminals gives the grammar back. -/
theorem unfoldsTo_isolatedBy (nodup : g.names.Nodup) (covers : supply.Covers g)
    (drawn : supply.Drawn standIns rest) (hlength : standIns.length = g.misplacedTerminals.length) :
    (g.isolatedBy standIns).UnfoldsTo (g.standInImage standIns) g := by
  intro name rule mem
  rcases (mem_rules_isolatedBy nodup).1 mem with ⟨source, hsource, hrule⟩ | ⟨c, hc, hrule⟩
  · right
    have hname := covers.notMem_of_mem_names drawn (mem_names_of_mem_rules hsource)
    have hunfold := unfold_standInImage covers drawn hlength hsource
    rw [hrule] at hunfold
    exact ⟨standInImage_of_notMem hname, hunfold ▸ hsource⟩
  · left
    rw [hrule, standInImage_of_mem hlength drawn.nodup hc]
    rfl

/-- Isolating terminals keeps the language of every old nonterminal. -/
theorem language_isolatedBy (nodup : g.names.Nodup) (covers : supply.Covers g)
    (drawn : supply.Drawn standIns rest) (hlength : standIns.length = g.misplacedTerminals.length)
    (h : name ∉ standIns) : (g.isolatedBy standIns).language name = g.language name := by
  apply (unfoldsTo_isolatedBy nodup covers drawn hlength).language_eq
  · intro name rule mem
    have hnew : Rule.replaceTerminals (g.misplacedTerminals.zip standIns) rule ∈
        (g.isolatedBy standIns).rules name :=
      (mem_rules_isolatedBy nodup).2 (Or.inl ⟨rule, mem, rfl⟩)
    refine le_trans ?_ ((g.isolatedBy standIns).isModel_language name _ hnew)
    apply Rule.words_le_words_replaceTerminals
    intro c standIn hc
    have hrule : [.terminal c] ∈ (g.isolatedBy standIns).rules standIn :=
      (mem_rules_isolatedBy nodup).2 (Or.inr ⟨c, hc, rfl⟩)
    exact (g.isolatedBy standIns).isModel_language standIn _ hrule (Rule.mem_words_terminal.2 rfl)
  · exact standInImage_of_notMem h

/-! ## The form of the result -/

theorem nil_mem_rules_isolatedBy (nodup : g.names.Nodup) :
    [] ∈ (g.isolatedBy standIns).rules name ↔ [] ∈ g.rules name := by
  rw [mem_rules_isolatedBy nodup]
  constructor
  · intro h
    rcases h with ⟨source, hsource, hrule⟩ | ⟨c, -, hrule⟩
    · have hlength := congrArg List.length hrule
      rw [Rule.length_replaceTerminals, List.length_nil, List.length_eq_zero_iff] at hlength
      exact hlength ▸ hsource
    · cases hrule
  · exact fun h ↦ Or.inl ⟨[], h, rfl⟩

/-- Without unit rules before there are none after, and a rule of two or more symbols has lost all its
terminals. -/
theorem isolated_of_mem_rules_isolatedBy (nodup : g.names.Nodup)
    (hlength : standIns.length = g.misplacedTerminals.length)
    (hunit : ∀ name, ∀ source ∈ g.rules name, Rule.soleNonterminal? source = none)
    (mem : rule ∈ (g.isolatedBy standIns).rules name) :
    rule = [] ∨ (∃ c, rule = [.terminal c]) ∨
      2 ≤ rule.length ∧ ∀ symbol ∈ rule, ∃ other, symbol = .nonterminal other := by
  rcases (mem_rules_isolatedBy nodup).1 mem with ⟨source, hsource, hrule⟩ | ⟨c, -, hrule⟩
  · by_cases hshort : source.length < 2
    · rw [Rule.replaceTerminals_of_length_lt hshort] at hrule
      subst hrule
      rcases Rule.eq_nil_or_terminal_of_length_lt hshort (hunit name source hsource) with h | h
      · exact Or.inl h
      · exact Or.inr (Or.inl h)
    · right
      right
      subst hrule
      refine ⟨by rw [Rule.length_replaceTerminals]; omega, fun symbol hsymbol ↦ ?_⟩
      apply Rule.exists_nonterminal_of_mem_replaceTerminals hshort _ hsymbol
      intro c hc
      have hmem : c ∈ g.misplacedTerminals := by
        apply mem_distinct.2
        exact List.mem_flatMap.2 ⟨⟨name, source⟩, (mem_productions nodup).2 hsource, hc⟩
      have ⟨standIn, hstandIn⟩ := exists_standIn hlength hmem
      exact ⟨standIn, lookup_eq_some_of_mem (nodup_fst_misplacedTerminals_zip hlength) hstandIn⟩
  · exact Or.inr (Or.inl ⟨c, hrule⟩)

@[simp]
theorem start_isolatedBy (g : Grammar) (standIns : List Char) :
    (g.isolatedBy standIns).start = g.start :=
  start_rebuild g _

theorem notMem_nonterminals_isolatedBy (nodup : g.names.Nodup) {other : Char}
    (hstandIns : other ∉ standIns)
    (h : ∀ left, ∀ source ∈ g.rules left, other ∉ Rule.nonterminals source)
    (mem : rule ∈ (g.isolatedBy standIns).rules name) : other ∉ Rule.nonterminals rule := by
  rcases (mem_rules_isolatedBy nodup).1 mem with ⟨source, hsource, hrule⟩ | ⟨c, -, hrule⟩
  · subst hrule
    intro hother
    rcases Rule.mem_nonterminals_replaceTerminals hother with hother | ⟨c, hc⟩
    · exact h name source hsource hother
    · exact hstandIns (List.of_mem_zip hc).2
  · rw [hrule]
    simp

/-- The supply that is left covers the grammar with its stand-ins. -/
theorem covers_isolatedBy (nodup : g.names.Nodup) (covers : supply.Covers g)
    (drawn : supply.Drawn standIns rest) : rest.Covers (g.isolatedBy standIns) := by
  have hcovers := covers.of_drawn drawn
  refine ⟨?_, ?_, fun name rule mem other hother ↦ ?_⟩
  · rw [start_isolatedBy]
    exact hcovers.start_mem
  · apply names_rebuild_subset hcovers.start_mem hcovers.names_subset
    intro p hp
    rcases List.mem_append.1 hp with hp | hp
    · have ⟨source, hsource, hp⟩ := List.mem_map.1 hp
      have hname : source.left ∈ g.names := left_mem_names hsource
      rw [← hp]
      exact hcovers.names_subset hname
    · have ⟨pair, hpair, hp⟩ := List.mem_map.1 hp
      rw [← hp]
      exact (drawn.mem_taken _).2 (Or.inl (List.of_mem_zip hpair).1)
  · by_contra htaken
    have hstandIns : other ∉ standIns := fun h ↦ htaken ((drawn.mem_taken other).2 (Or.inl h))
    refine notMem_nonterminals_isolatedBy nodup hstandIns (fun left source hsource h ↦ ?_) mem hother
    exact htaken (hcovers.mentioned left source hsource h)

end Grammar

end GrammarForms
