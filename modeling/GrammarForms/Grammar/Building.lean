import GrammarForms.Grammar

/-!
# Laws of the Building Operations

Each operation is described by what it does to the names and to the rules of each nonterminal.  For
`Grammar.rebuild` this is `Grammar.rules_rebuild`: a nonterminal has exactly the rules given for it,
each once and in the order given.  Every operation keeps a grammar well-formed.
-/

namespace GrammarForms.Grammar

/-! ## Names -/

theorem mem_names_declare {g : Grammar} {name other : Char} :
    other ∈ (g.declare name).names ↔ other ∈ g.names ∨ other = name := by
  unfold declare
  split
  · rename_i h
    exact ⟨Or.inl, fun ho ↦ ho.elim id (fun e ↦ e ▸ h)⟩
  · simp [names]

theorem nodup_names_declare {g : Grammar} (h : g.names.Nodup) (name : Char) :
    (g.declare name).names.Nodup := by
  unfold declare
  split
  · exact h
  · rename_i hname
    simp only [names, List.map_append, List.map_cons, List.map_nil]
    refine List.nodup_append.2 ⟨h, by simp, ?_⟩
    intro a ha b hb hab
    simp only [List.mem_singleton] at hb
    exact hname (hb ▸ hab ▸ ha)

@[simp]
theorem names_alter (g : Grammar) (name : Char) (change : List Rule → List Rule) :
    (g.alter name change).names = (g.declare name).names := by
  simp only [alter, names, List.map_map]
  apply List.map_congr_left
  intro entry _
  simp only [Function.comp_apply]
  split <;> rfl

@[simp]
theorem start_declare (g : Grammar) (name : Char) :
    (g.declare name).start = g.start := by
  unfold declare
  split <;> rfl

@[simp]
theorem start_alter (g : Grammar) (name : Char) (change : List Rule → List Rule) :
    (g.alter name change).start = g.start :=
  start_declare g name

@[simp]
theorem start_addRule (g : Grammar) (name : Char) (rule : Rule) :
    (g.addRule name rule).start = g.start :=
  start_alter g name _

theorem mem_names_addRule {g : Grammar} {name other : Char} {rule : Rule} :
    other ∈ (g.addRule name rule).names ↔ other ∈ g.names ∨ other = name := by
  rw [addRule, names_alter, mem_names_declare]

theorem start_skeleton (g : Grammar) : g.skeleton.start = g.start := by
  suffices ∀ (names : List Char) (built : Grammar), (names.foldl declare built).start = built.start
    from this _ _
  intro names
  induction names with
  | nil => exact fun _ ↦ rfl
  | cons first rest ih => exact fun built ↦ by rw [List.foldl_cons, ih, start_declare]

theorem mem_names_skeleton {g : Grammar} {name : Char} :
    name ∈ g.skeleton.names ↔ name = g.start ∨ name ∈ g.names := by
  suffices ∀ (names : List Char) (built : Grammar),
      name ∈ (names.foldl declare built).names ↔ name ∈ built.names ∨ name ∈ names by
    rw [skeleton, this]
    simp [names, ofStart]
  intro names
  induction names with
  | nil => simp
  | cons first rest ih =>
    intro built
    rw [List.foldl_cons, ih, mem_names_declare, List.mem_cons, or_assoc]

@[simp]
theorem start_rebuild (g : Grammar) (productions : List Production) :
    (g.rebuild productions).start = g.start := by
  suffices ∀ built : Grammar,
      (productions.foldl (fun built p ↦ built.addRule p.left p.right) built).start = built.start by
    rw [rebuild, this, start_skeleton]
  induction productions with
  | nil => exact fun _ ↦ rfl
  | cons p rest ih => exact fun built ↦ by rw [List.foldl_cons, ih, start_addRule]

/-- A rebuilt grammar has the start symbol, the old names and the left sides it was given. -/
theorem mem_names_rebuild {g : Grammar} {productions : List Production} {name : Char} :
    name ∈ (g.rebuild productions).names ↔
      name = g.start ∨ name ∈ g.names ∨ ∃ p ∈ productions, p.left = name := by
  suffices ∀ built : Grammar,
      name ∈ (productions.foldl (fun built p ↦ built.addRule p.left p.right) built).names ↔
        name ∈ built.names ∨ ∃ p ∈ productions, p.left = name by
    rw [rebuild, this, mem_names_skeleton, or_assoc]
  induction productions with
  | nil => simp
  | cons p rest ih =>
    intro built
    rw [List.foldl_cons, ih, mem_names_addRule, or_assoc, @eq_comm _ name]
    simp only [List.mem_cons, exists_eq_or_imp]

theorem names_rebuild_subset {g : Grammar} {productions : List Production} {names : List Char}
    (hstart : g.start ∈ names) (hnames : g.names ⊆ names) (h : ∀ p ∈ productions, p.left ∈ names) :
    (g.rebuild productions).names ⊆ names := by
  intro name mem
  rcases mem_names_rebuild.1 mem with e | mem | ⟨p, hp, e⟩
  · exact e ▸ hstart
  · exact hnames mem
  · exact e ▸ h p hp

theorem left_mem_names {g : Grammar} {p : Production} (h : p ∈ g.productions) : p.left ∈ g.names := by
  have ⟨entry, mem, hp⟩ := List.mem_flatMap.1 h
  have ⟨rule, _, e⟩ := List.mem_map.1 hp
  exact e ▸ List.mem_map_of_mem mem

@[simp]
theorem start_ofEntries (start : Char) (entries : List Entry) :
    (ofEntries start entries).start = start := by
  suffices ∀ built : Grammar,
      (entries.foldl (fun built entry ↦ built.replaceRules entry.name entry.rules) built).start =
        built.start by
    rw [ofEntries, this, ofStart]
  induction entries with
  | nil => exact fun _ ↦ rfl
  | cons entry rest ih =>
    exact fun built ↦ by rw [List.foldl_cons, ih, replaceRules, start_alter]

theorem mem_names_ofEntries {start name : Char} {entries : List Entry} :
    name ∈ (ofEntries start entries).names ↔ name = start ∨ name ∈ entries.map (·.name) := by
  suffices ∀ built : Grammar,
      name ∈ (entries.foldl (fun built entry ↦
        built.replaceRules entry.name entry.rules) built).names ↔
        name ∈ built.names ∨ name ∈ entries.map (·.name) by
    rw [ofEntries, this]
    simp [names, ofStart]
  induction entries with
  | nil => simp
  | cons entry rest ih =>
    intro built
    rw [List.foldl_cons, ih, replaceRules, names_alter, mem_names_declare, List.map_cons,
      List.mem_cons, or_assoc]

@[simp]
theorem names_keepRules (g : Grammar) (keep : Rule → Bool) : (g.keepRules keep).names = g.names := by
  simp [names, keepRules]

/-- Dropping entries filters the names, and the start symbol is exempt. -/
theorem names_keepEntries (g : Grammar) (keep : Char → Bool) :
    (g.keepEntries (keep ·.name)).names = g.names.filter fun name ↦ name == g.start || keep name := by
  rw [names, keepEntries, names, List.filter_map]
  rfl

theorem mem_names_keepEntries {g : Grammar} (keep : Char → Bool) {name : Char} :
    name ∈ (g.keepEntries (keep ·.name)).names ↔
      name ∈ g.names ∧ (name = g.start ∨ keep name = true) := by
  rw [names_keepEntries, List.mem_filter, Bool.or_eq_true, beq_iff_eq]

/-! ## Rules -/

theorem find?_name {g : Grammar} {name : Char} {entry : Entry} (h : g.find? name = some entry) :
    entry.name = name := by
  simpa using List.find?_some h

theorem find?_declare (g : Grammar) (name other : Char) :
    (g.declare name).find? other =
      (g.find? other).or (if name = other then some ⟨name, []⟩ else none) := by
  unfold declare
  split
  · rename_i h
    by_cases e : name = other
    · subst e
      obtain ⟨entry, hmem, hname⟩ := List.mem_map.1 h
      cases hf : g.find? name with
      | some found => simp
      | none =>
        have := List.find?_eq_none.1 hf entry hmem
        simp [hname] at this
    · simp [e]
  · simp only [find?, List.find?_append, List.find?_singleton, beq_iff_eq]

/-- An entry without rules cannot be told from a missing one by its rules. -/
@[simp]
theorem rules_declare (g : Grammar) (name other : Char) :
    (g.declare name).rules other = g.rules other := by
  simp only [rules, find?_declare]
  cases g.find? other with
  | some entry => simp
  | none => by_cases e : name = other <;> simp [e]

theorem find?_alter (g : Grammar) (name other : Char) (change : List Rule → List Rule) :
    (g.alter name change).find? other =
      ((g.declare name).find? other).map fun entry ↦
        if entry.name = name then { entry with rules := change entry.rules } else entry := by
  simp only [alter, find?, List.find?_map]
  congr 2
  funext entry
  simp only [Function.comp_apply]
  split <;> rfl

/-- Changing the rules of one nonterminal leaves all others as they were. -/
theorem rules_alter (g : Grammar) (name other : Char) (change : List Rule → List Rule) :
    (g.alter name change).rules other =
      if other = name then change (g.rules name) else g.rules other := by
  rw [← rules_declare g name name, ← rules_declare g name other, rules,
    find?_alter]
  cases hf : (g.declare name).find? other with
  | some entry =>
    have hname := find?_name hf
    subst hname
    by_cases e : entry.name = name
    · subst e
      simp [rules, hf]
    · simp [rules, hf, e]
  | none =>
    have e : other ≠ name := by
      rintro rfl
      simp [find?_declare] at hf
    simp [rules, hf, e]

theorem rules_addRule (g : Grammar) (name other : Char) (rule : Rule) :
    (g.addRule name rule).rules other =
      if other = name then appendNew (g.rules name) rule else g.rules other :=
  rules_alter g name other _

theorem rules_replaceRules (g : Grammar) (name other : Char) (rules : List Rule) :
    (g.replaceRules name rules).rules other =
      if other = name then distinct rules else g.rules other :=
  rules_alter g name other _

@[simp]
theorem rules_ofStart (start name : Char) : (ofStart start).rules name = [] := by
  by_cases h : start = name <;> simp [rules, find?, ofStart, h]

@[simp]
theorem rules_skeleton (g : Grammar) (name : Char) : g.skeleton.rules name = [] := by
  suffices ∀ (names : List Char) (built : Grammar),
      (names.foldl declare built).rules name = built.rules name by
    rw [skeleton, this, rules_ofStart]
  intro names
  induction names with
  | nil => exact fun _ ↦ rfl
  | cons first rest ih => exact fun built ↦ by rw [List.foldl_cons, ih, rules_declare]

/-- Rules added one after another reach their own nonterminal in order, each once. -/
theorem rules_foldl_addRule (productions : List Production) (g : Grammar) (name : Char) :
    (productions.foldl (fun built p ↦ built.addRule p.left p.right) g).rules name =
      ((productions.filter (·.left == name)).map (·.right)).foldl appendNew (g.rules name) := by
  induction productions generalizing g with
  | nil => rfl
  | cons p rest ih =>
    rw [List.foldl_cons, ih, rules_addRule]
    by_cases h : p.left = name
    · subst h
      simp
    · simp [h, Ne.symm h]

/-- A nonterminal of the rebuilt grammar has exactly the rules given for it, in order, each once. -/
theorem rules_rebuild (g : Grammar) (productions : List Production) (name : Char) :
    (g.rebuild productions).rules name =
      distinct ((productions.filter (·.left == name)).map (·.right)) := by
  rw [rebuild, rules_foldl_addRule, rules_skeleton, distinct]

/-- Membership form of `rules_rebuild`. -/
theorem mem_rules_rebuild {g : Grammar} {productions : List Production} {name : Char}
    {rule : Rule} :
    rule ∈ (g.rebuild productions).rules name ↔ ⟨name, rule⟩ ∈ productions := by
  rw [rules_rebuild, mem_distinct]
  constructor
  · intro h
    obtain ⟨p, hp, rfl⟩ := List.mem_map.1 h
    obtain ⟨hp, hname⟩ := List.mem_filter.1 hp
    have hname := beq_iff_eq.1 hname
    exact hname ▸ hp
  · exact fun h ↦ List.mem_map.2 ⟨_, List.mem_filter.2 ⟨h, by simp⟩, rfl⟩

/-- With distinct names an entry is the one its name finds. -/
theorem rules_of_mem {g : Grammar} (h : g.names.Nodup) {entry : Entry} (mem : entry ∈ g.entries) :
    g.rules entry.name = entry.rules := by
  have hfind : ∀ entries : List Entry, (entries.map (·.name)).Nodup → entry ∈ entries →
      entries.find? (·.name == entry.name) = some entry := by
    intro entries hnodup hmem
    induction entries with
    | nil => simp at hmem
    | cons first rest ih =>
      rw [List.map_cons, List.nodup_cons] at hnodup
      rcases List.mem_cons.1 hmem with rfl | hrest
      · simp
      · have hne : first.name ≠ entry.name := fun e ↦
          hnodup.1 (e ▸ List.mem_map_of_mem hrest)
        rw [List.find?_cons_of_neg (by simpa using hne), ih hnodup.2 hrest]
  rw [rules, find?, hfind g.entries h mem]
  rfl

/-- With distinct names, the listed productions are the rules that lookups see. -/
theorem mem_productions {g : Grammar} (h : g.names.Nodup) {p : Production} :
    p ∈ g.productions ↔ p.right ∈ g.rules p.left := by
  constructor
  · intro hp
    obtain ⟨entry, hmem, hp⟩ := List.mem_flatMap.1 hp
    obtain ⟨rule, hrule, rfl⟩ := List.mem_map.1 hp
    simpa [rules_of_mem h hmem] using hrule
  · intro hp
    cases hf : g.find? p.left with
    | none => simp [rules, hf] at hp
    | some entry =>
      refine List.mem_flatMap.2 ⟨entry, List.mem_of_find?_eq_some hf, ?_⟩
      refine List.mem_map.2 ⟨p.right, by simpa [rules, hf] using hp, ?_⟩
      rw [find?_name hf]

theorem find?_of_mem_rules {g : Grammar} {name : Char} {rule : Rule} (h : rule ∈ g.rules name) :
    ∃ entry, g.find? name = some entry ∧ rule ∈ entry.rules := by
  cases hf : g.find? name with
  | none => simp [rules, hf] at h
  | some entry => exact ⟨entry, rfl, by simpa [rules, hf] using h⟩

theorem exists_entry_of_mem_rules {g : Grammar} {name : Char} {rule : Rule}
    (h : rule ∈ g.rules name) : ∃ entry ∈ g.entries, entry.name = name ∧ rule ∈ entry.rules := by
  have ⟨entry, hfind, hrule⟩ := find?_of_mem_rules h
  exact ⟨entry, List.mem_of_find?_eq_some hfind, find?_name hfind, hrule⟩

/-- Rules by lookup and rules by entry agree where names do not repeat. -/
theorem mem_rules_iff {g : Grammar} (h : g.names.Nodup) {name : Char} {rule : Rule} :
    rule ∈ g.rules name ↔ ∃ entry ∈ g.entries, entry.name = name ∧ rule ∈ entry.rules := by
  refine ⟨exists_entry_of_mem_rules, fun ⟨entry, mem, hname, hrule⟩ ↦ ?_⟩
  rwa [← hname, rules_of_mem h mem]

/-- A nonterminal with a rule has an entry. -/
theorem mem_names_of_mem_rules {g : Grammar} {name : Char} {rule : Rule}
    (h : rule ∈ g.rules name) : name ∈ g.names := by
  have ⟨entry, mem, hname, _⟩ := exists_entry_of_mem_rules h
  exact hname ▸ List.mem_map_of_mem mem

theorem mem_rules_addRule {g : Grammar} {name other : Char} {rule added : Rule} :
    rule ∈ (g.addRule name added).rules other ↔
      rule ∈ g.rules other ∨ other = name ∧ rule = added := by
  rw [rules_addRule]
  by_cases h : other = name
  · subst h
    simp
  · simp [h]

@[simp]
theorem rules_keepRules (g : Grammar) (keep : Rule → Bool) (name : Char) :
    (g.keepRules keep).rules name = (g.rules name).filter keep := by
  have hfind : (g.keepRules keep).find? name =
      (g.find? name).map fun entry ↦ { entry with rules := entry.rules.filter keep } := by
    simp only [find?, keepRules, List.find?_map]
    rfl
  rw [rules, hfind]
  cases hf : g.find? name <;> simp [rules, hf]

/-- Entries are kept or lost whole. -/
theorem rules_keepEntries (g : Grammar) (keep : Char → Bool) (name : Char) :
    (g.keepEntries (keep ·.name)).rules name =
      if name = g.start ∨ keep name = true then g.rules name else [] := by
  have hfind : ∀ entries : List Entry,
      (entries.filter fun entry ↦ entry.name == g.start || keep entry.name).find? (·.name == name) =
        if name = g.start ∨ keep name = true then entries.find? (·.name == name) else none := by
    intro entries
    rw [List.find?_filter]
    split
    · rename_i h
      congr 1
      funext entry
      by_cases e : entry.name = name
      · subst e
        simpa using h
      · simp [e]
    · rename_i h
      rw [List.find?_eq_none]
      rintro entry - hkeep
      simp only [Bool.or_eq_true, beq_iff_eq, decide_eq_true_eq] at hkeep
      exact h (hkeep.2 ▸ hkeep.1)
  rw [rules, rules, find?, keepEntries, hfind]
  split <;> rfl

theorem keepRules_eq_self {g : Grammar} {keep : Rule → Bool}
    (h : ∀ p ∈ g.productions, keep p.right = true) : g.keepRules keep = g := by
  have hentry : ∀ entry ∈ g.entries, ({ entry with rules := entry.rules.filter keep } : Entry) = entry := by
    intro entry mem
    have hrules : entry.rules.filter keep = entry.rules := by
      rw [List.filter_eq_self]
      intro rule hrule
      exact h ⟨entry.name, rule⟩ (List.mem_flatMap.2 ⟨entry, mem, List.mem_map_of_mem hrule⟩)
    rw [hrules]
  have hentries := List.map_congr_left hentry
  rw [List.map_id'] at hentries
  rw [keepRules, hentries]

theorem keepEntries_eq_self {g : Grammar} {keep : Char → Bool} (h : ∀ name ∈ g.names, keep name = true) :
    g.keepEntries (keep ·.name) = g := by
  have hentries : g.entries.filter (fun entry ↦ entry.name == g.start || keep entry.name) = g.entries := by
    rw [List.filter_eq_self]
    intro entry mem
    rw [h entry.name (List.mem_map_of_mem mem), Bool.or_true]
  rw [keepEntries, hentries]

/-- With names that differ the entries keep their rules. -/
theorem rules_ofEntries {start : Char} {entries : List Entry} (h : (entries.map (·.name)).Nodup)
    (name : Char) : (ofEntries start entries).rules name = distinct (rules ⟨entries, start⟩ name) := by
  suffices ∀ built : Grammar,
      (entries.foldl (fun built entry ↦ built.replaceRules entry.name entry.rules) built).rules name =
        if name ∈ entries.map (·.name) then distinct (rules ⟨entries, start⟩ name)
        else built.rules name by
    rw [ofEntries, this, rules_ofStart]
    split
    · rfl
    · rename_i hname
      have hnone : rules ⟨entries, start⟩ name = [] :=
        List.eq_nil_iff_forall_not_mem.2 fun rule mem ↦ hname (mem_names_of_mem_rules mem)
      rw [hnone]
      rfl
  induction entries with
  | nil => exact fun built ↦ rfl
  | cons entry rest ih =>
    intro built
    rw [List.map_cons, List.nodup_cons] at h
    rw [List.foldl_cons, ih h.2, rules_replaceRules, List.map_cons]
    by_cases e : name = entry.name
    · subst e
      rw [if_neg h.1]
      simp [rules, find?]
    · simp [e, Ne.symm e, rules, find?]

/-- Membership form of `rules_ofEntries`, with no order and no repetition. -/
theorem mem_rules_ofEntries {start : Char} {entries : List Entry}
    (h : (entries.map (·.name)).Nodup) {name : Char} {rule : Rule} :
    rule ∈ (ofEntries start entries).rules name ↔
      ∃ entry ∈ entries, entry.name = name ∧ rule ∈ entry.rules := by
  rw [rules_ofEntries h, mem_distinct]
  exact mem_rules_iff (g := ⟨entries, start⟩) h

theorem mem_rules_ofEntries_of_mem {start : Char} {entries : List Entry}
    (h : (entries.map (·.name)).Nodup) {entry : Entry} (mem : entry ∈ entries) {rule : Rule} :
    rule ∈ (ofEntries start entries).rules entry.name ↔ rule ∈ entry.rules := by
  rw [rules_ofEntries h, mem_distinct, rules_of_mem (g := ⟨entries, start⟩) h mem]

/-- A nonterminal is mentioned exactly if some rule of the grammar contains it. -/
theorem mentions_iff {g : Grammar} (h : g.names.Nodup) {name : Char} :
    g.mentions name = true ↔ ∃ left, ∃ rule ∈ g.rules left, name ∈ Rule.nonterminals rule := by
  simp only [mentions, List.any_eq_true, List.contains_iff_mem]
  constructor
  · rintro ⟨p, hp, hname⟩
    exact ⟨p.left, p.right, (mem_productions h).1 hp, hname⟩
  · rintro ⟨left, rule, hrule, hname⟩
    exact ⟨⟨left, rule⟩, (mem_productions h).2 hrule, hname⟩

/-! ## Well-formedness -/

theorem wellFormed_ofStart (start : Char) : (ofStart start).WellFormed :=
  ⟨by simp [names, ofStart], by simp [ofStart]⟩

theorem WellFormed.declare {g : Grammar} (h : g.WellFormed) (name : Char) :
    (g.declare name).WellFormed where
  names_nodup := nodup_names_declare h.names_nodup name
  rules_nodup := by
    unfold Grammar.declare
    split
    · exact h.rules_nodup
    · intro entry hmem
      rcases List.mem_append.1 hmem with hmem | hmem
      · exact h.rules_nodup entry hmem
      · rw [List.mem_singleton.1 hmem]
        exact List.nodup_nil

/-- A change that keeps rules free of repetition keeps the grammar well-formed. -/
theorem WellFormed.alter {g : Grammar} (h : g.WellFormed) (name : Char)
    {change : List Rule → List Rule} (keep : ∀ rules, rules.Nodup → (change rules).Nodup) :
    (g.alter name change).WellFormed where
  names_nodup := by
    rw [names_alter]
    exact nodup_names_declare h.names_nodup name
  rules_nodup := by
    intro entry hmem
    obtain ⟨before, hbefore, rfl⟩ := List.mem_map.1 hmem
    have hnodup := (h.declare name).rules_nodup before hbefore
    split
    · exact keep _ hnodup
    · exact hnodup

theorem WellFormed.addRule {g : Grammar} (h : g.WellFormed) (name : Char) (rule : Rule) :
    (g.addRule name rule).WellFormed :=
  h.alter name fun _ hrules ↦ nodup_appendNew hrules rule

theorem WellFormed.replaceRules {g : Grammar} (h : g.WellFormed) (name : Char) (rules : List Rule) :
    (g.replaceRules name rules).WellFormed :=
  h.alter name fun _ _ ↦ nodup_distinct rules

theorem WellFormed.keepRules {g : Grammar} (h : g.WellFormed) (keep : Rule → Bool) :
    (g.keepRules keep).WellFormed where
  names_nodup := by
    simpa [names, Grammar.keepRules, Function.comp_def] using h.names_nodup
  rules_nodup := by
    intro entry hmem
    obtain ⟨before, hbefore, rfl⟩ := List.mem_map.1 hmem
    exact (h.rules_nodup before hbefore).sublist List.filter_sublist

theorem WellFormed.keepEntries {g : Grammar} (h : g.WellFormed) (keep : Entry → Bool) :
    (g.keepEntries keep).WellFormed where
  names_nodup := h.names_nodup.sublist (List.filter_sublist.map _)
  rules_nodup := fun entry hmem ↦ h.rules_nodup entry (List.mem_filter.1 hmem).1

theorem wellFormed_skeleton (g : Grammar) : g.skeleton.WellFormed := by
  suffices ∀ (names : List Char) (built : Grammar), built.WellFormed →
      (names.foldl Grammar.declare built).WellFormed from
    this _ _ (wellFormed_ofStart g.start)
  intro names
  induction names with
  | nil => exact fun _ h ↦ h
  | cons first rest ih => exact fun built h ↦ ih _ (h.declare first)

/-- Whatever productions a grammar is rebuilt from, no name and no rule comes out twice. -/
theorem wellFormed_rebuild (g : Grammar) (productions : List Production) :
    (g.rebuild productions).WellFormed := by
  suffices ∀ built : Grammar, built.WellFormed →
      (productions.foldl (fun built p ↦ built.addRule p.left p.right) built).WellFormed from
    this _ (wellFormed_skeleton g)
  induction productions with
  | nil => exact fun _ h ↦ h
  | cons p rest ih => exact fun built h ↦ ih _ (h.addRule p.left p.right)

theorem wellFormed_ofEntries (start : Char) (entries : List Entry) :
    (ofEntries start entries).WellFormed := by
  suffices ∀ built : Grammar, built.WellFormed →
      (entries.foldl (fun built entry ↦ built.replaceRules entry.name entry.rules) built).WellFormed
    from this _ (wellFormed_ofStart start)
  induction entries with
  | nil => exact fun _ h ↦ h
  | cons entry rest ih => exact fun built h ↦ ih _ (h.replaceRules entry.name entry.rules)

end GrammarForms.Grammar
