import GrammarForms.Greibach
import GrammarForms.Proofs.Leaders

/-!
# Back Substitution

A pass replaces leaders that are settled by their rules, which changes no language.  In a grounded grammar
a nonterminal that is not settled leads down to one that is not settled either but has only settled
leaders.  The next pass settles it, and whatever was settled stays so.  As many passes as there are
nonterminals are therefore enough, and none of them finds nothing to do before the end.
-/

namespace GrammarForms

namespace Grammar

variable {g : Grammar} {name : Char} {rule : Rule} {led : List Char} {passes : Nat}

/-! ## Settled nonterminals -/

theorem mem_settled (nodup : g.names.Nodup) :
    name ∈ g.settled ↔
      name ∈ g.names ∧ ∀ rule ∈ g.rules name, Rule.beginsWithTerminal rule = true := by
  rw [settled, List.mem_map]
  constructor
  · intro ⟨entry, mem, hname⟩
    have ⟨mem, hrules⟩ := List.mem_filter.1 mem
    subst hname
    rw [rules_of_mem nodup mem]
    exact ⟨List.mem_map_of_mem mem, List.all_eq_true.1 hrules⟩
  · intro ⟨hname, hrules⟩
    have ⟨entry, mem, hname⟩ := List.mem_map.1 hname
    subst hname
    rw [rules_of_mem nodup mem] at hrules
    exact ⟨entry, List.mem_filter.2 ⟨mem, List.all_eq_true.2 hrules⟩, rfl⟩

theorem settled_length_le : g.settled.length ≤ g.entries.length := by
  rw [settled, List.length_map]
  exact List.length_filter_le _ g.entries

/-- The normal form is reached when every entry is settled. -/
theorem isGreibach_iff_settled : g.isGreibach = true ↔ g.settled.length = g.entries.length := by
  rw [settled, List.length_map, List.length_filter_eq_length_iff, isGreibach, productions,
    List.all_flatMap, List.all_eq_true]
  apply forall₂_congr
  intro entry _
  rw [Entry.productions, List.all_map]
  rfl

/-! ## One pass -/

theorem expandLeader_of_mem {leader : Char} {tail : Rule} (h : leader ∈ led) :
    g.expandLeader led (.nonterminal leader :: tail) = (g.rules leader).map (· ++ tail) := by
  rw [expandLeader, Rule.leader?_nonterminal_cons]
  exact if_pos (List.contains_iff_mem.2 h)

theorem expandLeader_of_forall_ne (h : ∀ leader ∈ led, Rule.leader? rule ≠ some leader) :
    g.expandLeader led rule = [rule] := by
  unfold expandLeader
  split
  · rename_i leader hleader
    apply if_neg
    intro hcontains
    exact h leader (List.contains_iff_mem.1 hcontains) hleader
  · rfl

@[simp]
theorem names_expandLeaders : (g.expandLeaders led).names = g.names := by
  rw [names, expandLeaders, List.map_map]
  apply List.map_congr_left
  intro entry _
  rw [Function.comp_apply]
  split <;> rfl

/-- A pass leaves settled nonterminals alone and expands the rules of all others. -/
theorem rules_expandLeaders :
    (g.expandLeaders led).rules name =
      if name ∈ led then g.rules name
      else distinct ((g.rules name).flatMap (g.expandLeader led)) := by
  have hfind : (g.expandLeaders led).find? name = (g.find? name).map fun entry ↦
      if led.contains entry.name then entry
      else { entry with rules := distinct (entry.rules.flatMap (g.expandLeader led)) } := by
    simp only [find?, expandLeaders, List.find?_map]
    congr 2
    funext entry
    rw [Function.comp_apply]
    split <;> rfl
  rw [rules, hfind]
  cases hf : g.find? name with
  | none => simp [rules, hf, distinct]
  | some entry =>
    have hname := find?_name hf
    subst hname
    by_cases hled : entry.name ∈ led
    · simp [rules, hf, hled]
    · simp [rules, hf, hled]

/-- A pass keeps the rules that no given nonterminal leads, and puts rules in the place of the leaders of
the others. -/
theorem mem_rules_expandLeaders :
    rule ∈ (g.expandLeaders led).rules name ↔
      rule ∈ g.rules name ∧ (name ∈ led ∨ ∀ leader ∈ led, Rule.leader? rule ≠ some leader) ∨
        name ∉ led ∧ ∃ leader ∈ led, ∃ tail, .nonterminal leader :: tail ∈ g.rules name ∧
          ∃ source ∈ g.rules leader, rule = source ++ tail := by
  rw [rules_expandLeaders]
  by_cases hname : name ∈ led
  · simp [hname]
  · rw [if_neg hname, mem_distinct, List.mem_flatMap]
    constructor
    · intro ⟨whole, mem, hrule⟩
      by_cases hled : ∀ leader ∈ led, Rule.leader? whole ≠ some leader
      · rw [expandLeader_of_forall_ne hled, List.mem_singleton] at hrule
        subst hrule
        exact Or.inl ⟨mem, Or.inr hled⟩
      · push Not at hled
        have ⟨leader, hleader, h⟩ := hled
        have ⟨tail, hwhole⟩ := Rule.leader?_eq_some.1 h
        subst hwhole
        rw [expandLeader_of_mem hleader] at hrule
        have ⟨source, hsource, happend⟩ := List.mem_map.1 hrule
        exact Or.inr ⟨hname, leader, hleader, tail, mem, source, hsource, happend.symm⟩
    · intro h
      rcases h with ⟨mem, hled⟩ | ⟨_, leader, hleader, tail, mem, source, hsource, happend⟩
      · have hled := hled.resolve_left hname
        refine ⟨rule, mem, ?_⟩
        rw [expandLeader_of_forall_ne hled]
        exact List.mem_cons_self
      · refine ⟨_, mem, ?_⟩
        rw [expandLeader_of_mem hleader]
        exact List.mem_map.2 ⟨source, hsource, happend.symm⟩

/-- A pass keeps the language of every nonterminal. -/
theorem language_expandLeaders : (g.expandLeaders led).language = g.language := by
  apply language_eq_of_leaders_replaced
  · intro name rule mem
    rcases mem_rules_expandLeaders.1 mem with ⟨mem, _⟩ | ⟨_, leader, _, tail, h⟩
    · exact Or.inl mem
    · exact Or.inr ⟨leader, tail, h⟩
  · intro name rule mem
    by_cases hkept : name ∈ led ∨ ∀ leader ∈ led, Rule.leader? rule ≠ some leader
    · exact Or.inl (mem_rules_expandLeaders.2 (Or.inl ⟨mem, hkept⟩))
    · push Not at hkept
      have ⟨hname, leader, hleader, h⟩ := hkept
      have ⟨tail, hrule⟩ := Rule.leader?_eq_some.1 h
      refine Or.inr ⟨leader, tail, hrule, fun source hsource ↦ ?_⟩
      rw [rules_expandLeaders, if_pos hleader] at hsource
      exact mem_rules_expandLeaders.2
        (Or.inr ⟨hname, leader, hleader, tail, hrule ▸ mem, source, hsource, rfl⟩)

/-! ## Progress -/

theorem Grounded.expandLeaders_settled (grounded : g.Grounded) :
    (g.expandLeaders g.settled).Grounded where
  nodup := by
    rw [names_expandLeaders]
    exact grounded.nodup
  led := by
    intro name rule mem
    rw [names_expandLeaders]
    rcases mem_rules_expandLeaders.1 mem with ⟨mem, _⟩ | ⟨_, leader, _, tail, _, source, hsource, h⟩
    · exact grounded.led name rule mem
    · rw [h]
      exact (grounded.led leader source hsource).append tail
  wf := by
    apply Subrelation.wf _ grounded.wf
    intro leader name ⟨rule, mem, hleader⟩
    rcases mem_rules_expandLeaders.1 mem with ⟨mem, _⟩ | ⟨_, other, hother, tail, _, source, hsource, h⟩
    · exact ⟨rule, mem, hleader⟩
    · have hterminal := ((mem_settled grounded.nodup).1 hother).2 source hsource
      have ⟨c, rest, hbegins⟩ := Rule.beginsWithTerminal_iff.1 hterminal
      rw [h, hbegins] at hleader
      cases hleader

theorem Grounded.mem_names_of_leads (grounded : g.Grounded) {leader : Char}
    (leads : g.Leads leader name) : leader ∈ g.names := by
  have ⟨rule, mem, hleader⟩ := leads
  exact (grounded.led name rule mem).leader_mem leader hleader

/-- Some nonterminal that is not settled has only settled leaders. -/
theorem Grounded.exists_unsettled (grounded : g.Grounded) (h : g.settled.length ≠ g.entries.length) :
    ∃ name ∈ g.names, name ∉ g.settled ∧ ∀ leader, g.Leads leader name → leader ∈ g.settled := by
  have hunsettled : ∃ name, name ∈ g.names ∧ name ∉ g.settled := by
    by_contra hall
    push Not at hall
    apply h
    apply le_antisymm settled_length_le
    have hle := (List.subperm_of_subset grounded.nodup hall).length_le
    rwa [names, List.length_map] at hle
  obtain ⟨name, ⟨hname, hsettled⟩, hmin⟩ := grounded.wf.has_min
    {name | name ∈ g.names ∧ name ∉ g.settled} hunsettled
  refine ⟨name, hname, hsettled, fun leader hleads ↦ ?_⟩
  by_contra hleader
  exact hmin leader ⟨grounded.mem_names_of_leads hleads, hleader⟩ hleads

/-- As long as an entry is unsettled, the next pass has something to do. -/
theorem Grounded.canExpand (grounded : g.Grounded) (h : g.settled.length ≠ g.entries.length) :
    g.canExpand g.settled = true := by
  have ⟨name, hname, hsettled, hleaders⟩ := grounded.exists_unsettled h
  -- Of the unsettled nonterminals there is one whose leaders are all settled; it can be expanded.
  have hrule : ∃ rule ∈ g.rules name, Rule.beginsWithTerminal rule ≠ true := by
    by_contra hall
    push Not at hall
    exact hsettled ((mem_settled grounded.nodup).2 ⟨hname, hall⟩)
  have ⟨rule, mem, hterminal⟩ := hrule
  have ⟨leader, hleader⟩ : ∃ leader, Rule.leader? rule = some leader := by
    apply Option.ne_none_iff_exists'.1
    intro hnone
    have hne := (grounded.led name rule mem).ne_nil
    exact hterminal (Rule.beginsWithTerminal_of_leader?_eq_none hne hnone)
  have ⟨entry, hentry, hentry_name, hentry_rule⟩ := exists_entry_of_mem_rules mem
  have hmem := hleaders leader ⟨rule, mem, hleader⟩
  rw [Grammar.canExpand, List.any_eq_true]
  refine ⟨entry, hentry, ?_⟩
  rw [Bool.and_eq_true, List.any_eq_true]
  refine ⟨?_, rule, hentry_rule, ?_⟩
  · rw [hentry_name]
    simpa using hsettled
  · rw [Rule.isLedBy, hleader]
    exact List.contains_iff_mem.2 hmem

/-- What is settled stays settled. -/
theorem Grounded.settled_subset (grounded : g.Grounded) :
    g.settled ⊆ (g.expandLeaders g.settled).settled := by
  intro name hname
  rw [mem_settled grounded.expandLeaders_settled.nodup, names_expandLeaders, rules_expandLeaders,
    if_pos hname]
  exact (mem_settled grounded.nodup).1 hname

/-- A nonterminal whose leaders are settled is settled by the next pass. -/
theorem Grounded.mem_settled_expandLeaders (grounded : g.Grounded) (hname : name ∈ g.names)
    (hsettled : name ∉ g.settled) (hleaders : ∀ leader, g.Leads leader name → leader ∈ g.settled) :
    name ∈ (g.expandLeaders g.settled).settled := by
  rw [mem_settled grounded.expandLeaders_settled.nodup, names_expandLeaders]
  refine ⟨hname, fun rule mem ↦ ?_⟩
  rcases mem_rules_expandLeaders.1 mem with ⟨mem, hkept⟩ | ⟨_, leader, hleader, tail, _, source, hsource, e⟩
  · apply Rule.beginsWithTerminal_of_leader?_eq_none (grounded.led name rule mem).ne_nil
    by_contra hsome
    have ⟨leader, hleader⟩ := Option.ne_none_iff_exists'.1 hsome
    exact hkept.resolve_left hsettled leader (hleaders leader ⟨rule, mem, hleader⟩) hleader
  · have hterminal := ((mem_settled grounded.nodup).1 hleader).2 source hsource
    rw [e]
    exact Rule.beginsWithTerminal_append hterminal tail

/-- Each pass settles at least one further nonterminal until none is left. -/
theorem Grounded.settled_length_lt (grounded : g.Grounded)
    (h : g.settled.length ≠ g.entries.length) :
    g.settled.length < (g.expandLeaders g.settled).settled.length := by
  have ⟨name, hname, hsettled, hleaders⟩ := grounded.exists_unsettled h
  have hnew := grounded.mem_settled_expandLeaders hname hsettled hleaders
  have hnodup : g.settled.Nodup := grounded.nodup.sublist (List.filter_sublist.map _)
  have hcons : (name :: g.settled).Nodup := List.nodup_cons.2 ⟨hsettled, hnodup⟩
  have hsubset := List.cons_subset.2 ⟨hnew, grounded.settled_subset⟩
  exact (List.subperm_of_subset hcons hsubset).length_le

/-! ## All passes -/

/-- What one pass preserves is preserved by any number of them. -/
theorem backSubstitutePasses_induction {P : Grammar → Prop}
    (step : ∀ g, P g → P (g.expandLeaders g.settled)) (h : P g) :
    P (g.backSubstitutePasses passes) := by
  induction passes generalizing g with
  | zero => exact h
  | succ passes ih =>
    simp only [backSubstitutePasses]
    split
    · exact h
    split
    · exact ih (step g h)
    · exact step g h

theorem Grounded.backSubstituted (grounded : g.Grounded) (passes : Nat) :
    (g.backSubstitutePasses passes).Grounded :=
  backSubstitutePasses_induction (fun _ h ↦ h.expandLeaders_settled) grounded

/-- As many passes as there are nonterminals are enough. -/
theorem Grounded.isGreibach_backSubstitutePasses (grounded : g.Grounded)
    (h : g.entries.length ≤ passes + g.settled.length) :
    (g.backSubstitutePasses passes).isGreibach = true := by
  induction passes generalizing g with
  | zero =>
    rw [Nat.zero_add] at h
    exact isGreibach_iff_settled.2 (le_antisymm settled_length_le h)
  | succ passes ih =>
    simp only [backSubstitutePasses]
    split
    · rename_i hsettled
      exact isGreibach_iff_settled.2 hsettled
    · rename_i hsettled
      rw [if_pos (grounded.canExpand hsettled)]
      apply ih grounded.expandLeaders_settled
      have hlt := grounded.settled_length_lt hsettled
      have hlength : (g.expandLeaders g.settled).entries.length = g.entries.length :=
        List.length_map _
      omega

theorem start_backSubstitute : g.backSubstitute.start = g.start :=
  backSubstitutePasses_induction (P := fun h ↦ h.start = g.start) (fun _ h ↦ h) rfl

/-- Back substitution keeps the language of every nonterminal. -/
theorem language_backSubstitute : g.backSubstitute.language = g.language :=
  backSubstitutePasses_induction (P := fun h ↦ h.language = g.language)
    (fun _ h ↦ language_expandLeaders.trans h) rfl

/-- One pass for each entry is enough. -/
theorem Grounded.isGreibach_backSubstitute (grounded : g.Grounded) :
    g.backSubstitute.isGreibach = true := by
  apply grounded.isGreibach_backSubstitutePasses
  omega

end Grammar

end GrammarForms
