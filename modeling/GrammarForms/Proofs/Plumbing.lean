import GrammarForms.Proofs.Chomsky
import GrammarForms.Proofs.Rebuilding

/-!
# Reversible Plumbing

What a conversion to Chomsky normal form does after the eliminations can be undone.  Its fresh nonterminals
come after all others and have one rule each.  The stand-ins match the terminals of longer rules one to one,
and each link is mentioned in one place only.  Whoever replaces the fresh nonterminals by the bodies of
their rules, again and again, gets the rules back that the eliminations left.

Both steps supplement their source, so the rules of each nonterminal are recovered from the last step
backwards.  Replacing one body after the other leads to the same end, since the rules that the links stand
for become shorter along a chain.
-/

namespace GrammarForms

namespace Grammar

variable {g : Grammar} {policy : EmptyWordPolicy} {name : Char} {rule : Rule}
  {supply rest : NameSupply}

/-! ## Stand-ins for terminals -/

/-- The terminals that stand in a rule of two or more symbols. -/
def buriedTerminals (g : Grammar) : Set Char :=
  {c | ∃ p ∈ g.productions, 2 ≤ p.right.length ∧ .terminal c ∈ p.right}

/-- The terminals that are met on the way are those that stand in a rule of two or more symbols. -/
theorem mem_misplacedTerminals_iff {c : Char} : c ∈ g.misplacedTerminals ↔ c ∈ g.buriedTerminals := by
  rw [misplacedTerminals, mem_distinct, List.mem_flatMap]
  constructor
  · rintro ⟨p, hp, hc⟩
    by_cases hlength : p.right.length < 2
    · rw [Rule.misplacedTerminals, if_pos hlength] at hc
      cases hc
    · exact ⟨p, hp, Nat.le_of_not_lt hlength, (Rule.mem_misplacedTerminals hlength).1 hc⟩
  · rintro ⟨p, hp, hlength, hc⟩
    exact ⟨p, hp, (Rule.mem_misplacedTerminals (Nat.not_lt.2 hlength)).2 hc⟩

section StandIns

variable {standIns : List Char}

def standInRules (g : Grammar) (standIns : List Char) : List Production :=
  (standIns.zip g.misplacedTerminals).map fun (name, c) ↦ ⟨name, [.terminal c]⟩

theorem map_left_standInRules (hlength : standIns.length = g.misplacedTerminals.length) :
    (g.standInRules standIns).map (·.left) = standIns := by
  rw [standInRules, List.map_map]
  exact List.map_fst_zip hlength.le

theorem mem_standInRules {c : Char} (h : (c, name) ∈ g.misplacedTerminals.zip standIns) :
    ⟨name, [.terminal c]⟩ ∈ g.standInRules standIns :=
  List.mem_map.2 ⟨(name, c), mem_zip_swap.1 h, rfl⟩

/-- The grammar with its stand-ins is rebuilt from the replaced rules and, after them, the rules of
the stand-ins. -/
theorem isolatedBy_eq_rebuild (g : Grammar) (standIns : List Char) : g.isolatedBy standIns =
    g.rebuild (g.productions.map (fun p ↦
      ⟨p.left, Rule.replaceTerminals (g.misplacedTerminals.zip standIns) p.right⟩) ++
        g.standInRules standIns) := rfl

/-- Unfolding the stand-ins recovers the old rules, and each stand-in has one rule of its own. -/
theorem supplemented_isolatedBy (nodup : g.names.Nodup) (covers : supply.Covers g)
    (drawn : supply.Drawn standIns rest) (hlength : standIns.length = g.misplacedTerminals.length) :
    g.Supplemented (g.standInImage standIns)
      (g.productions.map fun p ↦
        ⟨p.left, Rule.replaceTerminals (g.misplacedTerminals.zip standIns) p.right⟩)
      (g.standInRules standIns) where
  unfold_heads := by
    rw [List.map_map]
    conv => rhs; rw [← List.map_id g.productions]
    apply List.map_congr_left
    intro p hp
    have hunfold := unfold_standInImage covers drawn hlength ((mem_productions nodup).1 hp)
    exact congrArg (Production.mk p.left) hunfold
  nodup := by
    rw [map_left_standInRules hlength]
    refine List.nodup_append.2 ⟨nodup, drawn.nodup, fun name hname other hother e ↦ ?_⟩
    exact covers.notMem_of_mem_names drawn hname (e ▸ hother)

end StandIns

/-! ## Links of chains -/

section Links

variable {links : List Char}

theorem length_le_of_mem_dealLinks (hlength : links.length = g.excess) {dealt : Production × List Char}
    (hdealt : dealt ∈ dealLinks g.productions links) : dealt.2.length ≤ dealt.1.right.length := by
  rw [length_of_mem_dealLinks hlength.ge hdealt, Rule.excess]
  exact Nat.sub_le _ 2

theorem map_left_chains (hlength : links.length = g.excess) :
    (splitAll g.productions links).2.map (·.left) = links := by
  rw [splitAll_eq, List.map_flatMap]
  calc
    _ = (dealLinks g.productions links).flatMap Prod.snd := List.flatMap_congr fun dealt hdealt ↦
      Rule.map_left_splitChain (length_le_of_mem_dealLinks hlength hdealt)
    _ = links := flatMap_snd_dealLinks hlength

/-- Unfolding the links recovers the old rules, and each link has one rule of its own. -/
theorem supplemented_splitBy (nodup : g.names.Nodup) (covers : supply.Covers g)
    (drawn : supply.Drawn links rest) (hlength : links.length = g.excess) :
    g.Supplemented (g.linkImage links) (splitAll g.productions links).1
      (splitAll g.productions links).2 where
  unfold_heads := by
    rw [splitAll_eq, List.map_map]
    calc
      _ = (dealLinks g.productions links).map Prod.fst := by
        apply List.map_congr_left
        intro dealt hdealt
        exact congrArg (Production.mk dealt.1.left) (unfold_linkImage nodup covers drawn hdealt).1
      _ = g.productions := map_fst_dealLinks _ _
  nodup := by
    rw [map_left_chains hlength]
    refine List.nodup_append.2 ⟨nodup, drawn.nodup, fun name hname other hother e ↦ ?_⟩
    exact covers.notMem_of_mem_names drawn hname (e ▸ hother)

/-- The nonterminals that a grammar mentions, as often as it mentions them. -/
def mentioned (g : Grammar) : List Char :=
  g.productions.flatMap fun p ↦ Rule.nonterminals p.right

/-- Splitting keeps every mention of a nonterminal and adds one of each link. -/
theorem mentioned_splitBy_perm (wf : g.WellFormed) (covers : supply.Covers g)
    (drawn : supply.Drawn links rest) (hlength : links.length = g.excess) :
    (g.splitBy links).mentioned.Perm (g.mentioned ++ links) := by
  have hperm := (supplemented_splitBy wf.names_nodup covers drawn hlength).productions_rebuild_perm wf
  refine (hperm.flatMap_right _).trans ?_
  rw [splitAll_eq, List.flatMap_append, List.flatMap_map, List.flatMap_assoc]
  refine (List.flatMap_append_perm _ _ _).trans ?_
  have hdealt : ∀ dealt ∈ dealLinks g.productions links,
      (Rule.nonterminals (Rule.splitChain dealt.1.right dealt.2).1 ++
        (Rule.splitChain dealt.1.right dealt.2).2.flatMap fun p ↦ Rule.nonterminals p.right).Perm
      (Rule.nonterminals dealt.1.right ++ dealt.2) := fun dealt hdealt ↦
    Rule.perm_nonterminals_splitChain (length_le_of_mem_dealLinks hlength hdealt)
  refine (List.Perm.flatMap_left _ hdealt).trans ?_
  refine (List.flatMap_append_perm _ _ _).symm.trans ?_
  rw [flatMap_snd_dealLinks hlength, mentioned]
  conv => rhs; rw [← map_fst_dealLinks g.productions links, List.flatMap_map]

/-- A link is mentioned once, in the pair it was cut off from. -/
theorem count_mentioned_splitBy (wf : g.WellFormed) (covers : supply.Covers g)
    (drawn : supply.Drawn links rest) (hlength : links.length = g.excess) (hname : name ∈ links) :
    (g.splitBy links).mentioned.count name = 1 := by
  have hold : name ∉ g.mentioned := by
    intro hmentioned
    have ⟨p, hp, hright⟩ := List.mem_flatMap.1 hmentioned
    have hrule := (mem_productions wf.names_nodup).1 hp
    exact covers.notMem_of_mem_nonterminals drawn hrule hright hname
  rw [(mentioned_splitBy_perm wf covers drawn hlength).count_eq, List.count_append,
    List.count_eq_zero_of_not_mem hold, List.count_eq_one_of_mem drawn.nodup hname]

end Links

/-! ## The conversion as a whole -/

theorem fronted_cleaned (g : Grammar) (policy : EmptyWordPolicy) : (g.cleaned policy).Fronted :=
  (((fronted_rebuild _ _).keepRules _).keepEntries _).keepEntries _

/-- The body of the first rule of an auxiliary nonterminal; the others stay. -/
def bodyOf (g : Grammar) (auxiliaries : List Char) (name : Char) : Rule :=
  if name ∈ auxiliaries then (g.rules name).headD [.nonterminal name] else [.nonterminal name]

theorem bodyOf_of_rules {auxiliaries : List Char} (hname : name ∈ auxiliaries)
    (hrules : g.rules name = [rule]) : g.bodyOf auxiliaries name = rule := by
  rw [bodyOf, if_pos hname, hrules]
  rfl

namespace ChomskyRun

variable {n : Normalization} (run : g.ChomskyRun policy n)

/-- The fresh nonterminals in the order in which they were introduced. -/
def auxiliaries : List Char :=
  run.standIns ++ run.links

/-- What is left of a nonterminal after both steps are undone. -/
def image (name : Char) : Rule :=
  Rule.unfold (run.cleaned.standInImage run.standIns) (run.isolated.linkImage run.links name)

include run

theorem supplemented_cleaned : run.cleaned.Supplemented (run.cleaned.standInImage run.standIns)
    (run.cleaned.productions.map fun p ↦
      ⟨p.left, Rule.replaceTerminals (run.cleaned.misplacedTerminals.zip run.standIns) p.right⟩)
    (run.cleaned.standInRules run.standIns) :=
  supplemented_isolatedBy run.nodup_cleaned run.covers run.drawn_standIns run.length_standIns

theorem supplemented_isolated : run.isolated.Supplemented (run.isolated.linkImage run.links)
    (splitAll run.isolated.productions run.links).1 (splitAll run.isolated.productions run.links).2 :=
  supplemented_splitBy run.nodup_isolated run.covers_isolated run.drawn_links run.length_links

theorem wf_cleaned : run.cleaned.WellFormed := wellFormed_cleaned _ _

theorem wf_isolated : run.isolated.WellFormed := wellFormed_rebuild _ _

theorem names_isolated : run.isolated.names = run.cleaned.names ++ run.standIns := by
  have hnames := run.supplemented_cleaned.names_rebuild run.nodup_cleaned (fronted_cleaned _ _)
  rwa [map_left_standInRules run.length_standIns] at hnames

/-- The result has the nonterminals of the cleaned grammar, then the stand-ins, then the links. -/
theorem names_eq : n.grammar.names = run.cleaned.names ++ run.auxiliaries := by
  have hnames := run.supplemented_isolated.names_rebuild run.nodup_isolated (fronted_rebuild _ _)
  rw [map_left_chains run.length_links, run.names_isolated, List.append_assoc] at hnames
  rw [run.grammar_eq]
  exact hnames

/-- Reading the links as what they stand for gives the grammar with isolated terminals back. -/
theorem map_linkImage_rules (hname : name ∈ run.isolated.names) :
    (n.grammar.rules name).map (Rule.unfold (run.isolated.linkImage run.links)) =
      run.isolated.rules name := by
  rw [run.grammar_eq]
  exact run.supplemented_isolated.map_unfold_rules_rebuild run.wf_isolated hname

theorem unfold_image (rule : Rule) : Rule.unfold run.image rule =
    Rule.unfold (run.cleaned.standInImage run.standIns)
      (Rule.unfold (run.isolated.linkImage run.links) rule) :=
  (Rule.unfold_unfold _ rule).symm

/-- Reading every auxiliary nonterminal as what it stands for gives the cleaned grammar back. -/
theorem map_image_rules (hname : name ∈ run.cleaned.names) :
    (n.grammar.rules name).map (Rule.unfold run.image) = run.cleaned.rules name := by
  have hname' : name ∈ run.isolated.names := by
    rw [run.names_isolated]
    exact List.mem_append_left _ hname
  calc
    _ = ((n.grammar.rules name).map (Rule.unfold (run.isolated.linkImage run.links))).map
        (Rule.unfold (run.cleaned.standInImage run.standIns)) := by
      rw [List.map_map]
      exact List.map_congr_left fun rule _ ↦ run.unfold_image rule
    _ = (run.isolated.rules name).map (Rule.unfold (run.cleaned.standInImage run.standIns)) := by
      rw [run.map_linkImage_rules hname']
    _ = run.cleaned.rules name :=
      run.supplemented_cleaned.map_unfold_rules_rebuild run.wf_cleaned hname

/-! ### The rules of the fresh nonterminals -/

theorem rules_isolated_standIn {c : Char}
    (h : (c, name) ∈ run.cleaned.misplacedTerminals.zip run.standIns) :
    run.isolated.rules name = [[.terminal c]] := by
  have hrule : ⟨name, [.terminal c]⟩ ∈ run.cleaned.standInRules run.standIns := mem_standInRules h
  have hrules := run.supplemented_cleaned.rules_rebuild_of_mem_extras hrule
  rw [← isolatedBy_eq_rebuild] at hrules
  exact hrules

/-- A stand-in keeps its rule through the splitting, which has nothing to split there. -/
theorem rules_standIn {c : Char} (h : (c, name) ∈ run.cleaned.misplacedTerminals.zip run.standIns) :
    n.grammar.rules name = [[.terminal c]] := by
  have hisolated : [.terminal c] ∈ run.isolated.rules name := by
    rw [run.rules_isolated_standIn h]
    exact List.mem_singleton_self _
  have mem : [.terminal c] ∈ n.grammar.rules name := by
    rw [run.grammar_eq]
    exact mem_rules_splitBy_of_length_le run.nodup_isolated run.length_links hisolated (Nat.le_succ 1)
  -- Unfolding the links keeps the number of rules.
  have hlength : (n.grammar.rules name).length = 1 := by
    rw [← List.length_map, run.map_linkImage_rules (mem_names_of_mem_rules hisolated),
      run.rules_isolated_standIn h, List.length_singleton]
  have ⟨rule, hrules⟩ := List.length_eq_one_iff.1 hlength
  rw [hrules, List.mem_singleton] at mem
  rw [hrules, mem]

theorem exists_terminal_of_mem_standIns (hname : name ∈ run.standIns) :
    ∃ c, (c, name) ∈ run.cleaned.misplacedTerminals.zip run.standIns := by
  have hkeys : name ∈ (run.cleaned.misplacedTerminals.zip run.standIns).map Prod.snd := by
    rwa [List.map_snd_zip run.length_standIns.le]
  have ⟨pair, hpair, e⟩ := List.mem_map.1 hkeys
  exact ⟨pair.1, e ▸ hpair⟩

/-- A link has one rule, and it is a pair. -/
theorem rules_link (hname : name ∈ run.links) :
    ∃ rule, n.grammar.rules name = [rule] ∧ Rule.IsPair rule := by
  rw [← map_left_chains run.length_links] at hname
  have ⟨p, hp, hleft⟩ := List.mem_map.1 hname
  subst hleft
  have hrules : n.grammar.rules p.left = [p.right] := by
    rw [run.grammar_eq]
    exact run.supplemented_isolated.rules_rebuild_of_mem_extras hp
  refine ⟨p.right, hrules, ?_⟩
  have mem : p.right ∈ (run.isolated.splitBy run.links).rules p.left := by
    rw [← run.grammar_eq, hrules]
    exact List.mem_singleton_self _
  rcases mem_rules_or_isPair_of_mem_rules_splitBy run.nodup_isolated run.length_links
    run.nonterminals_of_mem_rules_isolated mem with ⟨hold, _⟩ | hpair
  · have hnew := run.supplemented_isolated.left_notMem_names_of_mem_extras hp
    exact absurd (mem_names_of_mem_rules hold) hnew
  · exact hpair

/-- An auxiliary nonterminal has one rule, the terminal that it stands for or two nonterminals. -/
theorem rules_auxiliary (hname : name ∈ run.auxiliaries) :
    (∃ c, n.grammar.rules name = [[.terminal c]] ∧
      (c, name) ∈ run.cleaned.misplacedTerminals.zip run.standIns) ∨
    ∃ one other, n.grammar.rules name = [[.nonterminal one, .nonterminal other]] ∧ name ∈ run.links := by
  rcases List.mem_append.1 hname with hstandIn | hlink
  · have ⟨c, hc⟩ := run.exists_terminal_of_mem_standIns hstandIn
    exact Or.inl ⟨c, run.rules_standIn hc, hc⟩
  · have ⟨rule, hrules, one, other, hpair⟩ := run.rules_link hlink
    exact Or.inr ⟨one, other, hpair ▸ hrules, hlink⟩

theorem exists_sole_rule (hname : name ∈ run.auxiliaries) : ∃ rule, n.grammar.rules name = [rule] := by
  rcases run.rules_auxiliary hname with ⟨c, hrules, _⟩ | ⟨one, other, hrules, _⟩
  · exact ⟨_, hrules⟩
  · exact ⟨_, hrules⟩

theorem mem_zip_of_rules_eq {c : Char} (hname : name ∈ run.auxiliaries)
    (hrules : n.grammar.rules name = [[.terminal c]]) :
    (c, name) ∈ run.cleaned.misplacedTerminals.zip run.standIns := by
  rcases run.rules_auxiliary hname with ⟨other, hrules', hother⟩ | ⟨_, _, hrules', _⟩
  · rw [hrules'] at hrules
    cases hrules
    exact hother
  · rw [hrules'] at hrules
    cases hrules

/-- A terminal has a stand-in exactly if it is buried in some rule. -/
theorem rules_eq_terminal_iff (c : Char) :
    (∃ name ∈ run.auxiliaries, n.grammar.rules name = [[.terminal c]]) ↔
      c ∈ run.cleaned.buriedTerminals := by
  rw [← mem_misplacedTerminals_iff]
  constructor
  · intro ⟨name, hname, hrules⟩
    exact (List.of_mem_zip (run.mem_zip_of_rules_eq hname hrules)).1
  · intro hc
    have ⟨name, hstandIn⟩ := exists_standIn run.length_standIns hc
    exact ⟨name, List.mem_append_left _ (List.of_mem_zip hstandIn).2, run.rules_standIn hstandIn⟩

/-- No terminal has two stand-ins. -/
theorem eq_of_rules_eq_terminal {c : Char} {other : Char} (hname : name ∈ run.auxiliaries)
    (hother : other ∈ run.auxiliaries) (hrules : n.grammar.rules name = [[.terminal c]])
    (hrules' : n.grammar.rules other = [[.terminal c]]) : name = other := by
  have hkeys := nodup_fst_misplacedTerminals_zip run.length_standIns
  have hlookup := lookup_eq_some_of_mem hkeys (run.mem_zip_of_rules_eq hname hrules)
  rw [lookup_eq_some_of_mem hkeys (run.mem_zip_of_rules_eq hother hrules')] at hlookup
  exact (Option.some.inj hlookup).symm

/-- An auxiliary nonterminal that is no stand-in is a link and therefore mentioned once. -/
theorem count_mentioned (hname : name ∈ run.auxiliaries)
    (hrules : ∀ c, n.grammar.rules name ≠ [[.terminal c]]) : n.grammar.mentioned.count name = 1 := by
  rcases run.rules_auxiliary hname with ⟨c, hterminal, _⟩ | ⟨_, _, _, hlink⟩
  · exact absurd hterminal (hrules c)
  · rw [run.grammar_eq]
    exact count_mentioned_splitBy run.wf_isolated run.covers_isolated run.drawn_links
      run.length_links hlink

theorem notMem_taken_of_mem_auxiliaries (hname : name ∈ run.auxiliaries) : name ∉ run.before.taken := by
  rcases List.mem_append.1 hname with hstandIn | hlink
  · exact run.drawn_standIns.notMem_taken name hstandIn
  · intro htaken
    have hbetween := (run.drawn_standIns.mem_taken name).2 (Or.inr htaken)
    exact run.drawn_links.notMem_taken name hlink hbetween

/-! ### Undoing the steps -/

/-- The body of a link reads as the link does, so unfolding it changes no reading. -/
theorem unfold_image_body_link (hname : name ∈ run.links) (hrules : n.grammar.rules name = [rule]) :
    Rule.unfold run.image rule = run.image name := by
  have mem : rule ∈ (run.isolated.splitBy run.links).rules name := by
    rw [← run.grammar_eq, hrules]
    exact List.mem_singleton_self _
  have hlink : Rule.unfold (run.isolated.linkImage run.links) rule =
      run.isolated.linkImage run.links name := by
    rcases unfoldsTo_splitBy run.nodup_isolated run.covers_isolated run.drawn_links name rule mem
      with h | ⟨_, hold⟩
    · exact h
    · have hnames := mem_names_of_mem_rules hold
      exact absurd hname (run.covers_isolated.notMem_of_mem_names run.drawn_links hnames)
  rw [run.unfold_image, hlink, image]

theorem image_standIn {c : Char} (h : (c, name) ∈ run.cleaned.misplacedTerminals.zip run.standIns) :
    run.image name = [.terminal c] := by
  have hname : name ∈ run.isolated.names := by
    rw [run.names_isolated]
    exact List.mem_append_right _ (List.of_mem_zip h).2
  have hlink := linkImage_of_notMem (g := run.isolated)
    (run.covers_isolated.notMem_of_mem_names run.drawn_links hname)
  rw [image, hlink, Rule.unfold_nonterminal_cons, Rule.unfold_nil, List.append_nil]
  exact standInImage_of_mem run.length_standIns run.drawn_standIns.nodup h

theorem image_of_notMem (hname : name ∉ run.auxiliaries) : run.image name = [.nonterminal name] := by
  rw [auxiliaries, List.mem_append, not_or] at hname
  rw [image, linkImage_of_notMem hname.2, Rule.unfold_nonterminal_cons, Rule.unfold_nil,
    List.append_nil, standInImage_of_notMem hname.1]

theorem image_ne_nil (name : Char) : run.image name ≠ [] := by
  have hstandIn (name : Char) : run.cleaned.standInImage run.standIns name ≠ [] := by
    rw [standInImage]
    cases (run.standIns.zip run.cleaned.misplacedTerminals).lookup name <;> simp
  have hlink : run.isolated.linkImage run.links name ≠ [] := by
    rw [linkImage]
    cases hlookup : (splitImages run.isolated.productions run.links).lookup name with
    | none => simp
    | some tail =>
      obtain ⟨dealt, hdealt, htail⟩ := List.mem_flatMap.1 (mem_of_lookup_eq_some hlookup)
      exact Rule.ne_nil_of_mem_chainImages (length_of_mem_dealLinks run.length_links.ge hdealt) htail
  intro hnil
  have hlength := Rule.length_le_length_unfold hstandIn (run.isolated.linkImage run.links name)
  rw [← image, hnil, List.length_nil, Nat.le_zero] at hlength
  exact hlink (List.eq_nil_of_length_eq_zero hlength)

/-- Unfolding bodies ends at the reading of each auxiliary nonterminal. -/
theorem resolves : Rule.Resolves run.auxiliaries (n.grammar.bodyOf run.auxiliaries) run.image where
  unfold_body := by
    intro name
    by_cases hname : name ∈ run.auxiliaries
    · rcases run.rules_auxiliary hname with ⟨c, hrules, hc⟩ | ⟨_, _, hrules, hlink⟩
      · rw [bodyOf_of_rules hname hrules, run.image_standIn hc]
        rfl
      · rw [bodyOf_of_rules hname hrules, run.unfold_image_body_link hlink hrules]
    · rw [bodyOf, if_neg hname, Rule.unfold_nonterminal_cons, Rule.unfold_nil, List.append_nil]
  image_ne_nil := run.image_ne_nil
  body_eq := fun _ hname ↦ if_neg hname
  image_eq := fun _ ↦ run.image_of_notMem
  two_le_length := by
    intro name hname hne
    rcases run.rules_auxiliary hname with ⟨c, hrules, _⟩ | ⟨_, _, hrules, _⟩
    · rw [bodyOf_of_rules hname hrules] at hne
      exact absurd rfl hne
    · rw [bodyOf_of_rules hname hrules]
      exact Nat.le_refl 2

/-- As many rounds as the rules have symbols are enough. -/
theorem map_iterate_unfold_rules {count : Nat}
    (hcount : (run.cleaned.productions.map (·.right.length)).sum ≤ count)
    (hname : name ∈ run.cleaned.names) :
    (n.grammar.rules name).map (Rule.unfold (n.grammar.bodyOf run.auxiliaries))^[count] =
      run.cleaned.rules name := by
  rw [← run.map_image_rules hname]
  apply List.map_congr_left
  intro rule mem
  apply run.resolves.iterate_unfold
  intro other hother _
  have hsource : Rule.unfold run.image rule ∈ run.cleaned.rules name := by
    rw [← run.map_image_rules hname]
    exact List.mem_map_of_mem mem
  have hp : ⟨name, Rule.unfold run.image rule⟩ ∈ run.cleaned.productions :=
    (mem_productions run.nodup_cleaned).2 hsource
  have hsum : (Rule.unfold run.image rule).length ≤ (run.cleaned.productions.map (·.right.length)).sum :=
    List.le_sum_of_mem (List.mem_map_of_mem hp)
  have hlength := Rule.length_image_add_length_le run.image_ne_nil hother
  have hpos : 0 < rule.length := List.length_pos_of_mem (Rule.mem_nonterminals.1 hother)
  omega

end ChomskyRun

/-! ## Main result -/

/-- The result has the nonterminals of the source and after them auxiliary ones, which can be replaced by
the bodies of their rules until the rules of the source are back. -/
structure Plumbing (source result : Grammar) (auxiliaries : List Char) : Prop where
  names_eq : result.names = source.names ++ auxiliaries
  sole_rule : ∀ name ∈ auxiliaries, ∃ rule, result.rules name = [rule]
  standIn_iff : ∀ c, (∃ name ∈ auxiliaries, result.rules name = [[.terminal c]]) ↔
    c ∈ source.buriedTerminals
  standIn_unique : ∀ c, ∀ name ∈ auxiliaries, ∀ other ∈ auxiliaries,
    result.rules name = [[.terminal c]] → result.rules other = [[.terminal c]] → name = other
  mentioned_once : ∀ name ∈ auxiliaries, (∀ c, result.rules name ≠ [[.terminal c]]) →
    result.mentioned.count name = 1
  recovered : ∃ rounds, ∀ count ≥ rounds, ∀ name ∈ source.names,
    (result.rules name).map (Rule.unfold (result.bodyOf auxiliaries))^[count] = source.rules name

/-- A Chomsky normal form is the cleaned grammar with auxiliary nonterminals added at its end.  Each
of them has one rule and a name of its own, and unfolding them often enough gives back every rule of
the cleaned grammar. -/
theorem plumbing_toChomsky (wf : g.WellFormed) (closed : g.Closed) (taken : g.names ⊆ supply.taken)
    {n : Normalization} (run : (g.toChomsky policy).outcome supply = (.ok n, rest)) :
    ∃ auxiliaries, ((g.startedWith policy supply).cleaned policy).Plumbing n.grammar auxiliaries ∧
      n.grammar.names.Nodup ∧ ∀ name ∈ auxiliaries, name ∉ supply.taken := by
  have covers := NameSupply.covers_of_closed wf.names_nodup closed taken
  have ⟨⟨steps, hstarted, hsupply⟩, _⟩ := exists_chomskyRun_startedWith wf.names_nodup covers run
  rw [← hstarted]
  refine ⟨steps.auxiliaries, ?_, steps.nodup_names, fun name hname htaken ↦ ?_⟩
  · exact {
      names_eq := steps.names_eq
      sole_rule := fun _ ↦ steps.exists_sole_rule
      standIn_iff := steps.rules_eq_terminal_iff
      standIn_unique := fun _ _ hname _ hother ↦ steps.eq_of_rules_eq_terminal hname hother
      mentioned_once := fun _ ↦ steps.count_mentioned
      recovered := ⟨_, fun _ hcount _ ↦ steps.map_iterate_unfold_rules hcount⟩ }
  · exact steps.notMem_taken_of_mem_auxiliaries hname (hsupply htaken)

/-- Two stand-ins and two links bring the nested pairs into shape. -/
theorem plumbing_toChomsky_nested :
    nested.names ⊆ (NameSupply.avoiding nested).taken ∧
      ((nested.startedWith .keepAtStart (.avoiding nested)).cleaned .keepAtStart).Plumbing
        nestedPairs ['B', 'C', 'D', 'E'] := by
  have taken : nested.names ⊆ (NameSupply.avoiding nested).taken := List.Subset.refl _
  have ⟨auxiliaries, plumbing, _⟩ :=
    plumbing_toChomsky wellFormed_nested closed_nested taken toChomsky_nested
  have hsource :
      ((nested.startedWith .keepAtStart (.avoiding nested)).cleaned .keepAtStart).names = ['A', 'S'] := by
    cbv
  have hnames := plumbing.names_eq
  rw [hsource] at hnames
  have hauxiliaries : ['B', 'C', 'D', 'E'] = auxiliaries := by simpa [nestedPairs, names] using hnames
  rw [hauxiliaries]
  exact ⟨taken, plumbing⟩

end Grammar

end GrammarForms
