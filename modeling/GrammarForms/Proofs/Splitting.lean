import GrammarForms.Proofs.Links
import GrammarForms.Proofs.Unfolding

/-!
# Splitting Long Rules

A link of a chain stands for what is left of the long rule after the symbols before it.  Unfolding the
links puts the long rules together again, so no language changes.  With as many links as a rule has
symbols beyond two, what remains at its left side and each rule of its chain has exactly two symbols.
-/

namespace GrammarForms

/-! ## The chain of one rule -/

namespace Rule

variable {meaning : Meaning} {image : Char → Rule}

/-- The links of a chain, each with what it stands for. -/
def chainImages : Rule → List Char → List (Char × Rule)
  | _ :: rest, link :: links => (link, rest) :: chainImages rest links
  | _, _ => []

theorem map_fst_chainImages_sublist (rule : Rule) (links : List Char) :
    ((chainImages rule links).map Prod.fst).Sublist links := by
  induction rule generalizing links with
  | nil => exact List.nil_sublist links
  | cons first rest ih =>
    cases links with
    | nil => exact List.nil_sublist []
    | cons link links => exact (ih links).cons_cons link

/-- A chain ends before the rule does, so no link stands for the empty rule. -/
theorem ne_nil_of_mem_chainImages {rule : Rule} {links : List Char} (hlinks : links.length = excess rule)
    {link : Char} {tail : Rule} (h : (link, tail) ∈ chainImages rule links) : tail ≠ [] := by
  suffices ∀ (rule : Rule) (links : List Char), links.length ≤ rule.length - 1 →
      (link, tail) ∈ chainImages rule links → tail ≠ [] by
    apply this rule links _ h
    rw [hlinks, excess]
    omega
  intro rule
  induction rule with
  | nil => exact fun _ _ h ↦ by cases h
  | cons first rest ih =>
    intro links hlength h
    cases links with
    | nil => cases h
    | cons next links =>
      rw [List.length_cons, List.length_cons] at hlength
      rcases List.mem_cons.1 h with e | h
      · cases e
        exact List.ne_nil_of_length_pos (by omega)
      · exact ih links (by omega) h

/-- The rules of the links come in the order of the links. -/
theorem map_left_splitChain {rule : Rule} {links : List Char} (hlength : links.length ≤ rule.length) :
    (splitChain rule links).2.map (·.left) = links := by
  induction rule generalizing links with
  | nil => rw [List.eq_nil_of_length_eq_zero (Nat.le_zero.1 hlength)]; rfl
  | cons first rest ih =>
    cases links with
    | nil => rfl
    | cons link links =>
      rw [splitChain_cons, List.map_cons, ih (Nat.le_of_succ_le_succ hlength)]

/-- The head and the chain mention the nonterminals of the rule and each link once. -/
theorem perm_nonterminals_splitChain {rule : Rule} {links : List Char}
    (hlength : links.length ≤ rule.length) :
    (nonterminals (splitChain rule links).1 ++
        (splitChain rule links).2.flatMap fun p ↦ nonterminals p.right).Perm
      (nonterminals rule ++ links) := by
  induction rule generalizing links with
  | nil => rw [List.eq_nil_of_length_eq_zero (Nat.le_zero.1 hlength)]; rfl
  | cons first rest ih =>
    cases links with
    | nil => rfl
    | cons link links =>
      have hrest := ih (Nat.le_of_succ_le_succ hlength)
      have happend (one other : Rule) : nonterminals (one ++ other) = nonterminals one ++ nonterminals other :=
        List.filterMap_append
      have hfirst : nonterminals (first :: rest) = nonterminals [first] ++ nonterminals rest :=
        happend [first] rest
      have hhead : nonterminals [first, .nonterminal link] = nonterminals [first] ++ [link] :=
        happend [first] [.nonterminal link]
      rw [splitChain_cons, hfirst, hhead, List.flatMap_cons, List.append_assoc, List.append_assoc]
      apply List.Perm.append_left
      exact (hrest.cons link).trans List.perm_middle.symm

/-- Unfolding the links undoes the splitting, and it turns each rule of the chain into what its link
stands for. -/
theorem unfold_splitChain {rule : Rule} {links : List Char}
    (hold : ∀ name ∈ nonterminals rule, image name = [.nonterminal name])
    (hlinks : ∀ link tail, (link, tail) ∈ chainImages rule links → image link = tail) :
    unfold image (splitChain rule links).1 = rule ∧
      ∀ p ∈ (splitChain rule links).2, unfold image p.right = image p.left := by
  induction rule generalizing links with
  | nil => exact ⟨rfl, by simp [splitChain]⟩
  | cons first rest ih =>
    cases links with
    | nil =>
      rw [splitChain_of_nil]
      exact ⟨unfold_eq_self hold, by simp⟩
    | cons link links =>
      have ⟨hhead, hchain⟩ := ih
        (fun name hname ↦ hold name (mem_nonterminals_cons_of_mem first hname))
        (fun other tail h ↦ hlinks other tail (List.mem_cons_of_mem _ h))
      have himage : image link = rest := hlinks link rest List.mem_cons_self
      rw [splitChain_cons]
      constructor
      · cases first with
        | terminal c => simp [himage]
        | nonterminal name => simp [himage, hold name (mem_nonterminals_cons_self name rest)]
      · intro p hp
        rcases List.mem_cons.1 hp with rfl | hp
        · exact hhead.trans himage.symm
        · exact hchain p hp

/-- Where each link has the words of its rule, the head of the chain has those of the whole rule. -/
theorem words_le_words_splitChain {rule : Rule} {links : List Char}
    (h : ∀ p ∈ (splitChain rule links).2, words meaning p.right ≤ meaning p.left) :
    words meaning rule ≤ words meaning (splitChain rule links).1 := by
  induction rule generalizing links with
  | nil => exact le_rfl
  | cons first rest ih =>
    cases links with
    | nil => rw [splitChain_of_nil]
    | cons link links =>
      rw [splitChain_cons] at h ⊢
      have ⟨hlink, hchain⟩ := List.forall_mem_cons.1 h
      have hrest : words meaning rest ≤ words meaning [.nonterminal link] := by
        rw [words_nonterminal]
        exact (ih hchain).trans hlink
      rw [words_cons, words_cons first]
      exact mul_le_mul' le_rfl hrest

/-- Links are the only symbols that come in, and each of them has a rule in the chain. -/
theorem mem_splitChain {rule : Rule} {links : List Char} {symbol : Symbol} :
    (symbol ∈ (splitChain rule links).1 →
      symbol ∈ rule ∨ ∃ p ∈ (splitChain rule links).2, symbol = .nonterminal p.left) ∧
    ∀ p ∈ (splitChain rule links).2, p.left ∈ links ∧ (symbol ∈ p.right →
      symbol ∈ rule ∨ ∃ q ∈ (splitChain rule links).2, symbol = .nonterminal q.left) := by
  induction rule generalizing links with
  | nil => exact ⟨Or.inl, by simp [splitChain]⟩
  | cons first rest ih =>
    cases links with
    | nil =>
      rw [splitChain_of_nil]
      exact ⟨Or.inl, by simp⟩
    | cons link links =>
      rw [splitChain_cons]
      have hlater (h : symbol ∈ rest ∨
          ∃ p ∈ (splitChain rest links).2, symbol = .nonterminal p.left) :
          symbol ∈ first :: rest ∨
            ∃ p ∈ ⟨link, (splitChain rest links).1⟩ :: (splitChain rest links).2,
              symbol = .nonterminal p.left :=
        h.imp (List.mem_cons_of_mem first) fun ⟨p, hp, e⟩ ↦ ⟨p, List.mem_cons_of_mem _ hp, e⟩
      constructor
      · intro h
        rcases List.mem_cons.1 h with e | h
        · exact Or.inl (e ▸ List.mem_cons_self)
        · exact Or.inr ⟨_, List.mem_cons_self, List.mem_singleton.1 h⟩
      · intro p hp
        rcases List.mem_cons.1 hp with rfl | hp
        · exact ⟨List.mem_cons_self, fun h ↦ hlater (ih.1 h)⟩
        · have ⟨hleft, hright⟩ := ih.2 p hp
          exact ⟨List.mem_cons_of_mem link hleft, fun h ↦ hlater (hright h)⟩

theorem mem_nonterminals_splitChain {rule : Rule} {links : List Char} {name : Char} :
    (name ∈ nonterminals (splitChain rule links).1 → name ∈ nonterminals rule ∨ name ∈ links) ∧
      ∀ p ∈ (splitChain rule links).2, p.left ∈ links ∧
        (name ∈ nonterminals p.right → name ∈ nonterminals rule ∨ name ∈ links) := by
  have hsymbols := @mem_splitChain rule links (.nonterminal name)
  have hlinks (h : .nonterminal name ∈ rule ∨
      ∃ p ∈ (splitChain rule links).2, Symbol.nonterminal name = .nonterminal p.left) :
      name ∈ nonterminals rule ∨ name ∈ links := by
    rcases h with hold | ⟨p, hp, e⟩
    · exact Or.inl (mem_nonterminals.2 hold)
    · exact Or.inr (Symbol.nonterminal.inj e ▸ (hsymbols.2 p hp).1)
  refine ⟨fun h ↦ hlinks (hsymbols.1 (mem_nonterminals.1 h)), fun p hp ↦ ?_⟩
  have ⟨hleft, hright⟩ := hsymbols.2 p hp
  exact ⟨hleft, fun h ↦ hlinks (hright (mem_nonterminals.1 h))⟩

/-- A rule of two nonterminals. -/
def IsPair (rule : Rule) : Prop :=
  ∃ one other, rule = [.nonterminal one, .nonterminal other]

/-- With one link for each symbol beyond two, only pairs are left. -/
theorem isPair_splitChain {rule : Rule} {links : List Char} (hlength : 2 ≤ rule.length)
    (hlinks : links.length = excess rule)
    (hrule : ∀ symbol ∈ rule, ∃ name, symbol = .nonterminal name) :
    IsPair (splitChain rule links).1 ∧ ∀ p ∈ (splitChain rule links).2, IsPair p.right := by
  induction rule generalizing links with
  | nil => simp at hlength
  | cons first rest ih =>
    have ⟨⟨one, hone⟩, hrest⟩ := List.forall_mem_cons.1 hrule
    rw [excess, List.length_cons] at hlinks
    rw [List.length_cons] at hlength
    cases links with
    | nil =>
      have hlast : rest.length = 1 := by
        rw [List.length_nil] at hlinks
        omega
      have ⟨last, hsingle⟩ := List.length_eq_one_iff.1 hlast
      have ⟨other, hother⟩ := hrest last (hsingle ▸ List.mem_singleton_self last)
      rw [splitChain_of_nil]
      exact ⟨⟨one, other, by rw [hone, hsingle, hother]⟩, by simp⟩
    | cons link links =>
      rw [List.length_cons] at hlinks
      have ⟨hhead, hchain⟩ := @ih links (by omega) (by rw [excess]; omega) hrest
      rw [splitChain_cons]
      exact ⟨⟨one, link, by rw [hone]⟩, List.forall_mem_cons.2 ⟨hhead, hchain⟩⟩

end Rule

/-! ## The chains of all rules -/

/-- Each production with the links that come next. -/
def dealLinks : List Production → List Char → List (Production × List Char)
  | [], _ => []
  | p :: rest, links =>
    (p, links.take (Rule.excess p.right)) :: dealLinks rest (links.drop (Rule.excess p.right))

theorem splitAll_eq (productions : List Production) (links : List Char) :
    splitAll productions links =
      ((dealLinks productions links).map fun dealt ↦
          ⟨dealt.1.left, (Rule.splitChain dealt.1.right dealt.2).1⟩,
        (dealLinks productions links).flatMap fun dealt ↦
          (Rule.splitChain dealt.1.right dealt.2).2) := by
  induction productions generalizing links with
  | nil => rfl
  | cons p rest ih =>
    rw [splitAll, ih]
    rfl

/-- Dealing out links leaves the productions in order. -/
theorem map_fst_dealLinks (productions : List Production) (links : List Char) :
    (dealLinks productions links).map Prod.fst = productions := by
  induction productions generalizing links with
  | nil => rfl
  | cons p rest ih => rw [dealLinks, List.map_cons, ih]

theorem mem_of_mem_dealLinks {productions : List Production} {links : List Char}
    {dealt : Production × List Char} (h : dealt ∈ dealLinks productions links) :
    dealt.1 ∈ productions ∧ dealt.2 ⊆ links := by
  induction productions generalizing links with
  | nil => cases h
  | cons p rest ih =>
    rcases List.mem_cons.1 h with rfl | h
    · exact ⟨List.mem_cons_self, (List.take_sublist _ links).subset⟩
    · have ⟨hmem, hlinks⟩ := ih h
      refine ⟨List.mem_cons_of_mem p hmem, fun link hlink ↦ ?_⟩
      exact (List.drop_sublist _ links).subset (hlinks hlink)

/-- Every production is dealt as many links as it needs. -/
theorem length_of_mem_dealLinks {productions : List Production} {links : List Char}
    (hlength : productions.foldr (fun p total ↦ Rule.excess p.right + total) 0 ≤ links.length)
    {dealt : Production × List Char} (h : dealt ∈ dealLinks productions links) :
    dealt.2.length = Rule.excess dealt.1.right := by
  induction productions generalizing links with
  | nil => cases h
  | cons p rest ih =>
    rw [List.foldr_cons] at hlength
    rcases List.mem_cons.1 h with rfl | h
    · change (links.take (Rule.excess p.right)).length = Rule.excess p.right
      rw [List.length_take]
      omega
    · apply ih _ h
      rw [List.length_drop]
      omega

/-- With as many links as needed none is left over. -/
theorem flatMap_snd_dealLinks {productions : List Production} {links : List Char}
    (hlength : links.length = productions.foldr (fun p total ↦ Rule.excess p.right + total) 0) :
    (dealLinks productions links).flatMap Prod.snd = links := by
  induction productions generalizing links with
  | nil => exact (List.eq_nil_of_length_eq_zero hlength).symm
  | cons p rest ih =>
    rw [List.foldr_cons] at hlength
    rw [dealLinks, List.flatMap_cons, ih, List.take_append_drop]
    rw [List.length_drop]
    omega

/-- The links of all chains, each with what it stands for. -/
def splitImages (productions : List Production) (links : List Char) : List (Char × Rule) :=
  (dealLinks productions links).flatMap fun dealt ↦ Rule.chainImages dealt.1.right dealt.2

theorem map_fst_splitImages_sublist (productions : List Production) (links : List Char) :
    ((splitImages productions links).map Prod.fst).Sublist links := by
  induction productions generalizing links with
  | nil => exact List.nil_sublist links
  | cons p rest ih =>
    have h := (Rule.map_fst_chainImages_sublist p.right (links.take (Rule.excess p.right))).append
      (ih (links.drop (Rule.excess p.right)))
    rw [List.take_append_drop] at h
    rw [splitImages, dealLinks, List.flatMap_cons, List.map_append]
    exact h

/-! ## The grammar of chains -/

namespace Grammar

variable {g result : Grammar} {links : List Char} {name : Char} {rule : Rule}
  {supply rest : NameSupply}

/-- A walk that succeeds has drawn as many new names as there are links. -/
theorem exists_links (h : g.splitLongRules.outcome supply = (.ok result, rest)) :
    ∃ links, links.length = g.excess ∧ supply.Drawn links rest ∧ result = g.splitBy links := by
  rw [splitLongRules_eq] at h
  have ⟨links, hdraw, hresult⟩ := Naming.outcome_map_eq_ok.1 h
  have ⟨hlength, hdrawn⟩ := NameSupply.drawn_of_freshMany hdraw
  exact ⟨links, hlength, hdrawn, hresult.symm⟩

/-- A rule of the result is the head of a chain or belongs to a link. -/
theorem mem_rules_splitBy :
    rule ∈ (g.splitBy links).rules name ↔ ∃ dealt ∈ dealLinks g.productions links,
      dealt.1.left = name ∧ (Rule.splitChain dealt.1.right dealt.2).1 = rule ∨
        ⟨name, rule⟩ ∈ (Rule.splitChain dealt.1.right dealt.2).2 := by
  rw [splitBy, mem_rules_rebuild, splitAll_eq, List.mem_append, List.mem_map, List.mem_flatMap,
    ← exists_or]
  apply exists_congr
  intro dealt
  rw [Production.mk.injEq, and_or_left]

/-- What a link stands for. -/
def linkImage (g : Grammar) (links : List Char) (name : Char) : Rule :=
  ((splitImages g.productions links).lookup name).getD [.nonterminal name]

theorem linkImage_of_notMem (h : name ∉ links) : g.linkImage links name = [.nonterminal name] := by
  have hlookup : (splitImages g.productions links).lookup name = none := by
    rw [List.lookup_eq_none_iff]
    intro pair hpair
    have hmem := (map_fst_splitImages_sublist _ _).subset (List.mem_map_of_mem hpair)
    have hne : name ≠ pair.1 := fun e ↦ h (e ▸ hmem)
    simpa using hne
  rw [linkImage, hlookup]
  rfl

theorem linkImage_of_mem (nodup : links.Nodup) {dealt : Production × List Char}
    (hdealt : dealt ∈ dealLinks g.productions links) {tail : Rule}
    (h : (name, tail) ∈ Rule.chainImages dealt.1.right dealt.2) : g.linkImage links name = tail := by
  have hkeys := nodup.sublist (map_fst_splitImages_sublist g.productions links)
  have hmem : (name, tail) ∈ splitImages g.productions links := List.mem_flatMap.2 ⟨dealt, hdealt, h⟩
  rw [linkImage, lookup_eq_some_of_mem hkeys hmem]
  rfl

theorem mem_rules_of_mem_dealLinks (nodup : g.names.Nodup) {dealt : Production × List Char}
    (hdealt : dealt ∈ dealLinks g.productions links) : dealt.1.right ∈ g.rules dealt.1.left :=
  (mem_productions nodup).1 (mem_of_mem_dealLinks hdealt).1

theorem exists_dealt (nodup : g.names.Nodup) (mem : rule ∈ g.rules name) (links : List Char) :
    ∃ dealt ∈ dealLinks g.productions links, dealt.1 = ⟨name, rule⟩ := by
  have hmem : ⟨name, rule⟩ ∈ (dealLinks g.productions links).map Prod.fst := by
    rw [map_fst_dealLinks]
    exact (mem_productions nodup).2 mem
  exact List.mem_map.1 hmem

/-- Reading each link as the tail it stands for undoes the splitting of a rule. -/
theorem unfold_linkImage (nodup : g.names.Nodup) (covers : supply.Covers g)
    (drawn : supply.Drawn links rest) {dealt : Production × List Char}
    (hdealt : dealt ∈ dealLinks g.productions links) :
    Rule.unfold (g.linkImage links) (Rule.splitChain dealt.1.right dealt.2).1 = dealt.1.right ∧
      ∀ p ∈ (Rule.splitChain dealt.1.right dealt.2).2,
        Rule.unfold (g.linkImage links) p.right = g.linkImage links p.left := by
  apply Rule.unfold_splitChain
  · intro other hother
    have hsource := mem_rules_of_mem_dealLinks nodup hdealt
    exact linkImage_of_notMem (covers.notMem_of_mem_nonterminals drawn hsource hother)
  · exact fun link tail ↦ linkImage_of_mem drawn.nodup hdealt

/-- Reading the links as the tails they stand for gives the grammar back. -/
theorem unfoldsTo_splitBy (nodup : g.names.Nodup) (covers : supply.Covers g)
    (drawn : supply.Drawn links rest) : (g.splitBy links).UnfoldsTo (g.linkImage links) g := by
  intro name rule mem
  have ⟨dealt, hdealt, h⟩ := mem_rules_splitBy.1 mem
  have hsource := mem_rules_of_mem_dealLinks nodup hdealt
  have ⟨hhead, hchain⟩ := unfold_linkImage nodup covers drawn hdealt
  rcases h with ⟨rfl, rfl⟩ | h
  · right
    have hname := covers.notMem_of_mem_names drawn (mem_names_of_mem_rules hsource)
    exact ⟨linkImage_of_notMem hname, hhead.symm ▸ hsource⟩
  · exact Or.inl (hchain ⟨name, rule⟩ h)

/-- Splitting long rules keeps the language of every old nonterminal. -/
theorem language_splitBy (nodup : g.names.Nodup) (covers : supply.Covers g)
    (drawn : supply.Drawn links rest) (h : name ∉ links) :
    (g.splitBy links).language name = g.language name := by
  apply (unfoldsTo_splitBy nodup covers drawn).language_eq
  · intro name rule mem
    have ⟨dealt, hdealt, e⟩ := exists_dealt nodup mem links
    have hhead : (Rule.splitChain rule dealt.2).1 ∈ (g.splitBy links).rules name :=
      mem_rules_splitBy.2 ⟨dealt, hdealt, Or.inl (by rw [e]; exact ⟨rfl, rfl⟩)⟩
    refine le_trans ?_ ((g.splitBy links).isModel_language name _ hhead)
    apply Rule.words_le_words_splitChain
    intro p hp
    have hlink : p.right ∈ (g.splitBy links).rules p.left :=
      mem_rules_splitBy.2 ⟨dealt, hdealt, Or.inr (by rw [e]; exact hp)⟩
    exact (g.splitBy links).isModel_language p.left p.right hlink
  · exact linkImage_of_notMem h

/-! ## The form of the result -/

@[simp]
theorem start_splitBy (g : Grammar) (links : List Char) : (g.splitBy links).start = g.start :=
  start_rebuild g _

/-- Short rules stay as they are, and all others become pairs. -/
theorem mem_rules_or_isPair_of_mem_rules_splitBy (nodup : g.names.Nodup)
    (hlinks : links.length = g.excess)
    (hlong : ∀ name, ∀ source ∈ g.rules name, 2 ≤ source.length →
      ∀ symbol ∈ source, ∃ other, symbol = .nonterminal other)
    (mem : rule ∈ (g.splitBy links).rules name) :
    (rule ∈ g.rules name ∧ rule.length < 2) ∨ Rule.IsPair rule := by
  have ⟨dealt, hdealt, h⟩ := mem_rules_splitBy.1 mem
  have hsource := mem_rules_of_mem_dealLinks nodup hdealt
  have hlength := length_of_mem_dealLinks hlinks.ge hdealt
  by_cases hshort : dealt.1.right.length < 2
  · have hnil : dealt.2 = [] := by
      apply List.eq_nil_of_length_eq_zero
      rw [hlength, Rule.excess]
      omega
    rw [hnil, Rule.splitChain_of_nil] at h
    rcases h with ⟨rfl, rfl⟩ | h
    · exact Or.inl ⟨hsource, hshort⟩
    · cases h
  · right
    have hpairs := Rule.isPair_splitChain (by omega) hlength
      (hlong dealt.1.left dealt.1.right hsource (by omega))
    rcases h with ⟨-, rfl⟩ | h
    · exact hpairs.1
    · exact hpairs.2 ⟨name, rule⟩ h

/-- Rules of at most two symbols stay as they are. -/
theorem mem_rules_splitBy_of_length_le (nodup : g.names.Nodup) (hlinks : links.length = g.excess)
    (mem : rule ∈ g.rules name) (hlength : rule.length ≤ 2) : rule ∈ (g.splitBy links).rules name := by
  have ⟨dealt, hdealt, e⟩ := exists_dealt nodup mem links
  have hnil : dealt.2 = [] := by
    apply List.eq_nil_of_length_eq_zero
    rw [length_of_mem_dealLinks hlinks.ge hdealt, e]
    exact Nat.sub_eq_zero_of_le hlength
  refine mem_rules_splitBy.2 ⟨dealt, hdealt, Or.inl ?_⟩
  rw [e, hnil, Rule.splitChain_of_nil]
  exact ⟨rfl, rfl⟩

theorem notMem_nonterminals_splitBy (nodup : g.names.Nodup) {other : Char} (hlinks : other ∉ links)
    (h : ∀ left, ∀ source ∈ g.rules left, other ∉ Rule.nonterminals source)
    (mem : rule ∈ (g.splitBy links).rules name) : other ∉ Rule.nonterminals rule := by
  intro hother
  have ⟨dealt, hdealt, hrule⟩ := mem_rules_splitBy.1 mem
  have hnonterminals := @Rule.mem_nonterminals_splitChain dealt.1.right dealt.2 other
  have hsource : other ∈ Rule.nonterminals dealt.1.right ∨ other ∈ dealt.2 := by
    rcases hrule with ⟨-, rfl⟩ | hrule
    · exact hnonterminals.1 hother
    · exact (hnonterminals.2 _ hrule).2 hother
  rcases hsource with hsource | hsource
  · exact h _ _ (mem_rules_of_mem_dealLinks nodup hdealt) hsource
  · exact hlinks ((mem_of_mem_dealLinks hdealt).2 hsource)

end Grammar

end GrammarForms
