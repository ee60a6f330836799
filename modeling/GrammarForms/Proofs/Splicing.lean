import GrammarForms.Proofs.Repetition

/-!
# One Entry of the Removal of Left Recursion

The removal of left recursion treats one entry at a time.  It first splices the rules of the earlier
entries into those rules that they lead, and then takes the name of the entry itself away from the front
of its rules, with the help of a repeater where that adds anything.  None of this changes the language
of a nonterminal, whatever the other entries of the grammar are.  The order of the entries does not
matter for that, so the entry that is treated comes first here.
-/

namespace GrammarForms

/-! ## Grammars as lists of entries -/

namespace Grammar

variable {entry entry' : Entry} {entries others : List Entry} {start name : Char} {rule : Rule}

theorem rules_cons :
    (Grammar.mk (entry :: entries) start).rules name =
      if name = entry.name then entry.rules else (Grammar.mk entries start).rules name := by
  by_cases h : name = entry.name
  · subst h
    simp [rules, find?]
  · simp [rules, find?, h, Ne.symm h]

theorem rules_subset_of_perm (nodup : (entries.map (·.name)).Nodup) (perm : entries.Perm others) :
    (Grammar.mk entries start).rules name ⊆ (Grammar.mk others start).rules name := by
  intro rule mem
  have nodup' : (others.map (·.name)).Nodup := (perm.map _).nodup_iff.1 nodup
  have ⟨entry, hentry, hrule⟩ := (mem_rules_iff (g := ⟨entries, start⟩) nodup).1 mem
  exact (mem_rules_iff (g := ⟨others, start⟩) nodup').2 ⟨entry, perm.mem_iff.1 hentry, hrule⟩

/-- The order of the entries does not matter to any language. -/
theorem language_perm (nodup : (entries.map (·.name)).Nodup) (perm : entries.Perm others) :
    (Grammar.mk entries start).language = (Grammar.mk others start).language := by
  apply le_antisymm
  · exact language_le_of_rules_subset fun name ↦ rules_subset_of_perm nodup perm
  · have nodup' : (others.map (·.name)).Nodup := (perm.map _).nodup_iff.1 nodup
    exact language_le_of_rules_subset fun name ↦ rules_subset_of_perm nodup' perm.symm

end Grammar

/-! ## Splicing -/

namespace Entry

variable {entry earlier : Entry} {done : List Entry} {rule : Rule}

/-- The entry without its own name in front of a rule. -/
def withoutSelf (entry : Entry) : Entry :=
  ⟨entry.name, entry.otherRules⟩

/-- The entry that leaves its left recursion to a repeater. -/
def unrolled (entry : Entry) (stop : RepetitionStop) (repeater : Char) : Entry :=
  ⟨entry.name, stop.repeated repeater entry.otherRules⟩

def repetition (entry : Entry) (stop : RepetitionStop) (repeater : Char) : Entry :=
  ⟨repeater, stop.repeaterRules repeater entry.recursiveTails⟩

/-- Where an earlier nonterminal leads a rule, each of its rules takes its place; other rules stay.
-/
theorem mem_rules_spliceLeading :
    rule ∈ (entry.spliceLeading earlier).rules ↔
      rule ∈ entry.rules ∧ Rule.leader? rule ≠ some earlier.name ∨
        ∃ tail, .nonterminal earlier.name :: tail ∈ entry.rules ∧
          ∃ source ∈ earlier.rules, rule = source ++ tail := by
  rw [spliceLeading, mem_distinct, List.mem_flatMap]
  constructor
  · intro ⟨whole, mem, hrule⟩
    split at hrule
    · rename_i hleader
      have ⟨tail, hwhole⟩ := Rule.leader?_eq_some.1 hleader
      have ⟨source, hsource, happend⟩ := List.mem_map.1 hrule
      rw [hwhole] at mem happend
      exact Or.inr ⟨tail, mem, source, hsource, happend.symm⟩
    · rename_i hleader
      rw [List.mem_singleton.1 hrule]
      exact Or.inl ⟨mem, hleader⟩
  · intro h
    rcases h with ⟨mem, hleader⟩ | ⟨tail, mem, source, hsource, hrule⟩
    · exact ⟨rule, mem, by simp [hleader]⟩
    · refine ⟨_, mem, ?_⟩
      rw [if_pos (Rule.leader?_nonterminal_cons _ tail), hrule]
      exact List.mem_map.2 ⟨source, hsource, rfl⟩

/-- The entry without the names of those that are done in front of a rule. -/
abbrev splice (done : List Entry) (entry : Entry) : Entry :=
  done.foldl spliceLeading entry

@[simp]
theorem name_splice : (splice done entry).name = entry.name := by
  induction done generalizing entry with
  | nil => rfl
  | cons first rest ih => exact ih

/-- What holds of all rules still does if it survives the replacement of a leader. -/
theorem forall_rules_splice {P : Char → Rule → Prop}
    (replace : ∀ name earlier source tail, P earlier source → P name (.nonterminal earlier :: tail) →
      P name (source ++ tail))
    (hdone : ∀ earlier ∈ done, ∀ rule ∈ earlier.rules, P earlier.name rule)
    (hentry : ∀ rule ∈ entry.rules, P entry.name rule) :
    ∀ rule ∈ (splice done entry).rules, P entry.name rule := by
  induction done generalizing entry with
  | nil => exact hentry
  | cons first rest ih =>
    apply @ih (entry.spliceLeading first) (fun earlier mem ↦ hdone earlier (List.mem_cons_of_mem first mem))
    intro rule mem
    rcases mem_rules_spliceLeading.1 mem with ⟨mem, -⟩ | ⟨tail, mem, source, hsource, hrule⟩
    · exact hentry rule mem
    · rw [hrule]
      exact replace _ _ source tail (hdone first List.mem_cons_self source hsource) (hentry _ mem)

end Entry

namespace Grammar

variable {entry earlier : Entry} {done context : List Entry} {start : Char}

/-- Replacing a leader by its rules changes no language. -/
theorem language_spliceLeading (nodup : ((entry :: context).map (·.name)).Nodup)
    (mem : earlier ∈ context) :
    (Grammar.mk (entry.spliceLeading earlier :: context) start).language =
      (Grammar.mk (entry :: context) start).language := by
  rw [List.map_cons, List.nodup_cons] at nodup
  have hne : earlier.name ≠ entry.name := fun e ↦ nodup.1 (e ▸ List.mem_map_of_mem mem)
  have hearlier : (Grammar.mk context start).rules earlier.name = earlier.rules :=
    rules_of_mem (g := ⟨context, start⟩) nodup.2 mem
  have hname : (entry.spliceLeading earlier).name = entry.name := rfl
  -- Only the rules of the entry in front differ, and those that differ have their leader replaced.
  apply language_eq_of_leaders_replaced
  · intro name rule hrule
    rw [rules_cons, hname] at hrule
    rw [rules_cons]
    by_cases h : name = entry.name
    · rw [if_pos h] at hrule ⊢
      rcases Entry.mem_rules_spliceLeading.1 hrule with ⟨hrule, -⟩ | ⟨tail, hled, hreplaced⟩
      · exact Or.inl hrule
      · refine Or.inr ⟨earlier.name, tail, hled, ?_⟩
        rwa [rules_cons, if_neg hne, hearlier]
    · rw [if_neg h] at hrule ⊢
      exact Or.inl hrule
  · intro name rule hrule
    rw [rules_cons] at hrule
    rw [rules_cons, hname]
    by_cases h : name = entry.name
    · rw [if_pos h] at hrule ⊢
      by_cases hleader : Rule.leader? rule = some earlier.name
      · have ⟨tail, hcons⟩ := Rule.leader?_eq_some.1 hleader
        refine Or.inr ⟨earlier.name, tail, hcons, fun source hsource ↦ ?_⟩
        rw [rules_cons, hname, if_neg hne, hearlier] at hsource
        exact Entry.mem_rules_spliceLeading.2 (Or.inr ⟨tail, hcons ▸ hrule, source, hsource, rfl⟩)
      · exact Or.inl (Entry.mem_rules_spliceLeading.2 (Or.inl ⟨hrule, hleader⟩))
    · rw [if_neg h] at hrule ⊢
      exact Or.inl hrule

/-- Splicing all earlier entries in, one after another, changes no language. -/
theorem language_splice (nodup : ((entry :: context).map (·.name)).Nodup)
    (subset : done ⊆ context) :
    (Grammar.mk (Entry.splice done entry :: context) start).language =
      (Grammar.mk (entry :: context) start).language := by
  induction done generalizing entry with
  | nil => rfl
  | cons first rest ih =>
    have ⟨hfirst, hrest⟩ := List.cons_subset.1 subset
    calc
      _ = (Grammar.mk (entry.spliceLeading first :: context) start).language := ih nodup hrest
      _ = (Grammar.mk (entry :: context) start).language := language_spliceLeading nodup hfirst

/-! ## Left recursion within an entry -/

/-- A rule from a nonterminal to itself adds no word, so it can be left out. -/
theorem language_withoutSelf (h : entry.recursiveTails = []) :
    (Grammar.mk (entry.withoutSelf :: context) start).language =
      (Grammar.mk (entry :: context) start).language := by
  have hname : entry.withoutSelf.name = entry.name := rfl
  apply le_antisymm
  · apply language_le_of_rules_subset
    intro name rule mem
    rw [rules_cons, hname] at mem
    rw [rules_cons]
    by_cases h : name = entry.name
    · rw [if_pos h] at mem ⊢
      exact (Entry.mem_otherRules.1 mem).1
    · rwa [if_neg h] at mem ⊢
  · apply IsModel.language_le
    intro name rule mem
    rw [rules_cons] at mem
    split at mem
    · rename_i e
      rcases Entry.mem_rules_cases mem with hother | hself | ⟨tail, htail, -⟩
      · apply isModel_language
        rw [rules_cons, hname, if_pos e]
        exact hother
      · rw [hself, Rule.words_nonterminal, e]
      · rw [h] at htail
        cases htail
    · rename_i hne
      apply isModel_language
      rw [rules_cons, hname, if_neg hne]
      exact mem

/-! ## Names in sight -/

end Grammar

/-- The names of the entries differ, and every nonterminal in sight is taken. -/
structure Registered (taken : List Char) (entries : List Entry) : Prop where
  nodup : (entries.map (·.name)).Nodup
  name_mem : ∀ entry ∈ entries, entry.name ∈ taken
  mentioned : ∀ entry ∈ entries, ∀ rule ∈ entry.rules, Rule.nonterminals rule ⊆ taken

namespace Registered

variable {taken : List Char} {entry : Entry} {done context entries others : List Entry}
variable {stop : RepetitionStop} {start repeater : Char}

theorem perm (registered : Registered taken entries) (perm : entries.Perm others) :
    Registered taken others where
  nodup := (perm.map _).nodup_iff.1 registered.nodup
  name_mem := fun entry mem ↦ registered.name_mem entry (perm.mem_iff.2 mem)
  mentioned := fun entry mem ↦ registered.mentioned entry (perm.mem_iff.2 mem)

/-- Taking more names keeps the entries registered. -/
theorem mono (registered : Registered taken entries) {more : List Char} (subset : taken ⊆ more) :
    Registered more entries where
  nodup := registered.nodup
  name_mem := fun entry mem ↦ subset (registered.name_mem entry mem)
  mentioned := fun entry mem rule hrule _ hname ↦
    subset (registered.mentioned entry mem rule hrule hname)

/-- The rules of the first entry may change as long as nothing new comes into sight. -/
theorem replace (registered : Registered taken (entry :: context)) {changed : Entry}
    (hname : changed.name = entry.name)
    (hrules : ∀ rule ∈ changed.rules, Rule.nonterminals rule ⊆ taken) :
    Registered taken (changed :: context) where
  nodup := by
    rw [List.map_cons, hname]
    exact registered.nodup
  name_mem := by
    intro other mem
    rcases List.mem_cons.1 mem with e | mem
    · rw [e, hname]
      exact registered.name_mem entry List.mem_cons_self
    · exact registered.name_mem other (List.mem_cons_of_mem entry mem)
  mentioned := by
    intro other mem
    rcases List.mem_cons.1 mem with e | mem
    · rwa [e]
    · exact registered.mentioned other (List.mem_cons_of_mem entry mem)

/-- Splicing mentions no name that was not taken. -/
theorem spliced (registered : Registered taken (entry :: context)) (subset : done ⊆ context) :
    Registered taken (Entry.splice done entry :: context) := by
  apply registered.replace Entry.name_splice
  apply Entry.forall_rules_splice (P := fun _ rule ↦ Rule.nonterminals rule ⊆ taken)
  · intro _ leader source tail hsource hrule name hname
    rw [Rule.mem_nonterminals, List.mem_append] at hname
    rcases hname with hname | hname
    · exact hsource (Rule.mem_nonterminals.2 hname)
    · exact hrule (Rule.mem_nonterminals.2 (List.mem_cons_of_mem (.nonterminal leader) hname))
  · intro earlier mem
    exact registered.mentioned earlier (List.mem_cons_of_mem entry (subset mem))
  · exact registered.mentioned entry List.mem_cons_self

theorem withoutSelf (registered : Registered taken (entry :: context)) :
    Registered taken (entry.withoutSelf :: context) := by
  refine registered.replace ?_ fun rule mem ↦ ?_
  · rfl
  · exact registered.mentioned entry List.mem_cons_self rule (Entry.mem_otherRules.1 mem).1

theorem subset_of_mem_repeated {sources : List Rule} {rule : Rule}
    (hsources : ∀ source ∈ sources, Rule.nonterminals source ⊆ taken)
    (mem : rule ∈ stop.repeated repeater sources) : Rule.nonterminals rule ⊆ repeater :: taken := by
  have ⟨source, hsource, hrule⟩ := RepetitionStop.mem_repeated.1 mem
  intro name hname
  rcases hrule with hrule | ⟨_, hrule⟩
  · rw [hrule, Rule.mem_nonterminals, List.mem_append, List.mem_singleton] at hname
    rcases hname with hname | hname
    · exact List.mem_cons_of_mem _ (hsources source hsource (Rule.mem_nonterminals.2 hname))
    · cases hname
      exact List.mem_cons_self
  · exact List.mem_cons_of_mem _ (hsources source hsource (hrule ▸ hname))

theorem mentioned_unrolled (registered : Registered taken (entry :: context)) :
    ∀ rule ∈ (entry.unrolled stop repeater).rules, Rule.nonterminals rule ⊆ repeater :: taken := by
  intro rule mem
  apply subset_of_mem_repeated _ mem
  intro source hsource
  exact registered.mentioned entry List.mem_cons_self source (Entry.mem_otherRules.1 hsource).1

theorem mentioned_repetition (registered : Registered taken (entry :: context)) :
    ∀ rule ∈ (entry.repetition stop repeater).rules, Rule.nonterminals rule ⊆ repeater :: taken := by
  intro rule mem
  rcases RepetitionStop.mem_repeaterRules.1 mem with mem | ⟨_, hnil⟩
  · apply subset_of_mem_repeated _ mem
    intro tail htail name hname
    have hrule := (Entry.mem_recursiveTails.1 htail).1
    apply registered.mentioned entry List.mem_cons_self _ hrule
    exact Rule.mem_nonterminals_cons_of_mem _ hname
  · rw [hnil]
    exact List.nil_subset _

/-- A name that was not taken is no entry. -/
theorem notMem_names (registered : Registered taken entries) (fresh : repeater ∉ taken) :
    repeater ∉ entries.map (·.name) := by
  intro mem
  have ⟨other, hother, hname⟩ := List.mem_map.1 mem
  exact fresh (hname ▸ registered.name_mem other hother)

/-- Unrolling an entry takes one further name, that of the repeater. -/
theorem unrolled (registered : Registered taken (entry :: context)) (fresh : repeater ∉ taken) :
    Registered (repeater :: taken)
      (entry.unrolled stop repeater :: entry.repetition stop repeater :: context) where
  nodup := by
    have hnames := registered.notMem_names fresh
    have hnodup : (repeater :: entry.name :: context.map (·.name)).Nodup :=
      List.nodup_cons.2 ⟨hnames, registered.nodup⟩
    exact (List.Perm.swap entry.name repeater _).nodup_iff.1 hnodup
  name_mem := by
    have ⟨hentry, hcontext⟩ := List.forall_mem_cons.1 registered.name_mem
    rw [List.forall_mem_cons, List.forall_mem_cons]
    refine ⟨List.mem_cons_of_mem repeater hentry, List.mem_cons_self, fun other mem ↦ ?_⟩
    exact List.mem_cons_of_mem repeater (hcontext other mem)
  mentioned := by
    rw [List.forall_mem_cons, List.forall_mem_cons]
    refine ⟨registered.mentioned_unrolled, registered.mentioned_repetition, ?_⟩
    intro other mem rule hrule name hname
    apply List.mem_cons_of_mem repeater
    exact registered.mentioned other (List.mem_cons_of_mem entry mem) rule hrule hname

/-- Where the names are registered, an unrolled entry and its repeater are what the exchange of
languages needs. -/
theorem unrolls (registered : Registered taken (entry :: context)) (fresh : repeater ∉ taken) :
    (Grammar.mk (entry.unrolled stop repeater :: entry.repetition stop repeater :: context) start).Unrolls
      (Grammar.mk (entry :: context) start) stop entry repeater := by
  have hne : repeater ≠ entry.name := fun e ↦
    fresh (e ▸ registered.name_mem entry List.mem_cons_self)
  refine ⟨hne, ?_, ?_, ?_, ?_, ?_, ?_⟩
  · rw [Grammar.rules_cons, if_pos rfl]
  · rw [Grammar.rules_cons]
    exact if_pos rfl
  · rw [Grammar.rules_cons, Grammar.rules_cons]
    exact (if_neg hne).trans (if_pos rfl)
  · intro name hname hrepeater
    rw [Grammar.rules_cons, Grammar.rules_cons, Grammar.rules_cons, if_neg hname]
    exact (if_neg hname).trans (if_neg hrepeater)
  · apply List.eq_nil_iff_forall_not_mem.2
    intro rule mem
    have ⟨other, hother, hname, _⟩ := Grammar.exists_entry_of_mem_rules mem
    exact fresh (hname ▸ registered.name_mem other hother)
  · intro name rule mem hmentioned
    have ⟨other, hother, _, hrule⟩ := Grammar.exists_entry_of_mem_rules mem
    exact fresh (registered.mentioned other hother rule hrule hmentioned)

end Registered

end GrammarForms
