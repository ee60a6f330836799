import GrammarForms.Proofs.Descent
import GrammarForms.Proofs.UnitRules

/-!
# Left Corners after the Removal of Left Recursion

A left corner of a nonterminal stands in one of its rules with nullable nonterminals before it at most,
and a nonterminal is left recursive if a chain of left corners leads back to it.  Where a grammar has
neither empty rules nor unit cycles, the removal of left recursion leaves no such chain, whichever way
the repetitions stop.

The entries descend by their leaders, and none of them is nullable, since each of their rules begins
with a terminal or with a later entry.  Repeaters may be nullable, and through unit rules an earlier
repeater can come to stand at the beginning of a later one.  What holds them apart is that a tail of a
repetition never consists of repeaters alone: it would come from a chain of unit rules that returns to
its first nonterminal.
-/

namespace GrammarForms

/-! ## Anchored rules -/

namespace Rule

variable {names : List Char} {rule : Rule}

/-- The rule holds a terminal or one of the names. -/
def Anchored (names : List Char) (rule : Rule) : Prop :=
  ∃ symbol ∈ rule, ∀ name, symbol = .nonterminal name → name ∈ names

theorem Anchored.append_right (anchored : Anchored names rule) (rest : Rule) :
    Anchored names (rule ++ rest) := by
  have ⟨symbol, mem, hsymbol⟩ := anchored
  exact ⟨symbol, List.mem_append_left rest mem, hsymbol⟩

theorem Anchored.append_left (anchored : Anchored names rule) (before : Rule) :
    Anchored names (before ++ rule) := by
  have ⟨symbol, mem, hsymbol⟩ := anchored
  exact ⟨symbol, List.mem_append_right before mem, hsymbol⟩

theorem anchored_of_subset (hne : rule ≠ []) (subset : nonterminals rule ⊆ names) :
    Anchored names rule := by
  have ⟨symbol, mem⟩ := List.exists_mem_of_ne_nil rule hne
  refine ⟨symbol, mem, fun name h ↦ ?_⟩
  subst h
  exact subset (mem_nonterminals.2 mem)

/-- What comes after other nonterminals than the names comes no later than the anchor. -/
theorem Anchored.mem_nonterminals {tail more before after : Rule} {corner : Char}
    (anchored : Anchored names tail) (h : tail ++ more = before ++ .nonterminal corner :: after)
    (hbefore : ∀ symbol ∈ before, ∃ other, symbol = .nonterminal other ∧ other ∉ names) :
    corner ∈ nonterminals tail := by
  have ⟨anchor, hanchor, hnames⟩ := anchored
  have hnot : anchor ∉ before := by
    intro mem
    have ⟨other, hother, hnotMem⟩ := hbefore anchor mem
    exact hnotMem (hnames other hother)
  rcases List.append_eq_append_iff.1 h with ⟨rest, hsplit, _⟩ | ⟨rest, hsplit, hrest⟩
  · exact absurd (hsplit ▸ List.mem_append_left rest hanchor) hnot
  · cases rest with
    | nil => exact absurd (List.append_nil before ▸ hsplit ▸ hanchor) hnot
    | cons symbol rest =>
      rw [List.cons_append, List.cons.injEq] at hrest
      rw [Rule.mem_nonterminals, hsplit, hrest.1]
      exact List.mem_append_right before List.mem_cons_self

end Rule

/-! ## Rules that follow unit rules -/

namespace Grammar

variable {g : Grammar} {name earlier : Char} {rule source tail : Rule}

/-- Where nothing but new names stands behind the leader, a chain of unit rules leads to it. -/
structure FollowsUnits (g : Grammar) (name : Char) (rule : Rule) : Prop
    extends Rule.LedWithin g.names rule where
  chain : ∀ leader tail, rule = .nonterminal leader :: tail → ¬Rule.Anchored g.names tail →
    Relation.TransGen g.UnitStep name leader

/-- Every rule of the grammar follows its own unit rules. -/
theorem followsUnits_of_mem_rules (wf : g.WellFormed) (closed : g.Closed)
    (mem : rule ∈ g.rules name) (hne : rule ≠ []) : g.FollowsUnits name rule := by
  have subset : Rule.nonterminals rule ⊆ g.names :=
    closed.defined ⟨name, rule⟩ ((mem_productions wf.names_nodup).2 mem)
  have led : Rule.LedWithin g.names rule :=
    ⟨hne, fun leader h ↦ subset (Rule.mem_nonterminals_of_leader? h)⟩
  refine ⟨led, fun leader tail h hfree ↦ ?_⟩
  subst h
  have htail : tail = [] := by
    by_contra htail
    refine hfree (Rule.anchored_of_subset htail fun other hother ↦ ?_)
    exact subset (Rule.mem_nonterminals_cons_of_mem _ hother)
  subst htail
  exact .single mem

/-- Two chains in a row make one. -/
theorem FollowsUnits.splice (hsource : g.FollowsUnits earlier source)
    (hrule : g.FollowsUnits name (.nonterminal earlier :: tail)) :
    g.FollowsUnits name (source ++ tail) := by
  refine ⟨hsource.toLedWithin.append tail, fun leader rest h hfree ↦ ?_⟩
  rcases List.append_eq_cons_iff.1 h with ⟨hnil, _⟩ | ⟨others, hothers, hrest⟩
  · exact absurd hnil hsource.ne_nil
  · rw [hrest] at hfree
    have hfirst := hrule.chain earlier tail rfl fun anchored ↦ hfree (anchored.append_left others)
    have hsecond := hsource.chain leader others hothers fun anchored ↦ hfree (anchored.append_right tail)
    exact hfirst.trans hsecond

/-- Appending to a rule leaves the unit rules behind it as they were. -/
theorem FollowsUnits.append (h : g.FollowsUnits name rule) (more : Rule) :
    g.FollowsUnits name (rule ++ more) := by
  refine ⟨h.toLedWithin.append more, fun leader rest hcons hfree ↦ ?_⟩
  rcases List.append_eq_cons_iff.1 hcons with ⟨hnil, _⟩ | ⟨others, hothers, hrest⟩
  · exact absurd hnil h.ne_nil
  · rw [hrest] at hfree
    exact h.chain leader others hothers fun anchored ↦ hfree (anchored.append_right more)

end Grammar

/-! ## The invariant of the removal -/

/-- Up to its anchor each rule of a repeater mentions, besides the names, earlier repeaters only. -/
inductive Founded (names : List Char) : List Entry → Prop where
  | nil : Founded names []
  | concat {repeaters : List Entry} {repeater : Entry} (earlier : Founded names repeaters)
      (anchored : ∀ rule ∈ repeater.rules, rule = [] ∨ ∃ tail more, rule = tail ++ more ∧
        Rule.Anchored names tail ∧ Rule.nonterminals tail ⊆ names ++ repeaters.map (·.name)) :
      Founded names (repeaters ++ [repeater])

namespace Unwinding

variable {g : Grammar} {stop : RepetitionStop} {state next : Unwinding}

structure Ranked (g : Grammar) (state : Unwinding) : Prop where
  names_eq : (state.done ++ state.rest).map (·.name) = g.names
  follows_units : ∀ entry ∈ state.done ++ state.rest, ∀ rule ∈ entry.rules,
    g.FollowsUnits entry.name rule
  mentioned : ∀ entry ∈ state.done ++ state.rest, ∀ rule ∈ entry.rules,
    Rule.nonterminals rule ⊆ g.names ++ state.repeaters.map (·.name)
  descending : Descending state.done
  founded : Founded g.names state.repeaters

theorem nonterminals_append_subset {names : List Char} {leader : Symbol} {source tail : Rule}
    (hsource : Rule.nonterminals source ⊆ names) (hrule : Rule.nonterminals (leader :: tail) ⊆ names) :
    Rule.nonterminals (source ++ tail) ⊆ names := by
  intro name hname
  rw [Rule.mem_nonterminals, List.mem_append] at hname
  rcases hname with hname | hname
  · exact hsource (Rule.mem_nonterminals.2 hname)
  · exact hrule (Rule.mem_nonterminals_cons_of_mem leader (Rule.mem_nonterminals.2 hname))

/-- A tail without an anchor would come from a unit cycle. -/
theorem Ranked.anchored_of_mem_recursiveTails (ranked : Ranked g state)
    (acyclic : ∀ name, ¬Relation.TransGen g.UnitStep name name) {entry : Entry} {rest : List Entry}
    (hrest : state.rest = entry :: rest) {tail : Rule}
    (mem : tail ∈ (Entry.splice state.done entry).recursiveTails) :
    Rule.Anchored g.names tail ∧ Rule.nonterminals tail ⊆ g.names ++ state.repeaters.map (·.name) := by
  have hmem := (Entry.mem_recursiveTails.1 mem).1
  have hfollows := forall_rules_splice_next (P := g.FollowsUnits)
    (fun _ _ _ _ hsource hrule ↦ hsource.splice hrule) ranked.follows_units hrest _ hmem
  have hmentioned := forall_rules_splice_next
    (P := fun _ rule ↦ Rule.nonterminals rule ⊆ g.names ++ state.repeaters.map (·.name))
    (fun _ _ _ _ ↦ nonterminals_append_subset) ranked.mentioned hrest _ hmem
  refine ⟨?_, fun other hother ↦ hmentioned (Rule.mem_nonterminals_cons_of_mem _ hother)⟩
  by_contra hfree
  apply acyclic entry.name
  have hchain := hfollows.chain _ tail rfl hfree
  rwa [Entry.name_splice] at hchain

/-- A step mentions, besides the names, only repeaters that are there after it. -/
theorem Ranked.mentioned_next (ranked : Ranked g state) (step : Step stop state next) :
    ∀ entry ∈ next.done ++ next.rest, ∀ rule ∈ entry.rules,
      Rule.nonterminals rule ⊆ g.names ++ next.repeaters.map (·.name) := by
  apply step.forall_rules
    (P := fun _ rule ↦ Rule.nonterminals rule ⊆ g.names ++ next.repeaters.map (·.name))
  · exact fun _ _ _ _ ↦ nonterminals_append_subset
  · intro _ source repeater mem hsource name hname
    rw [Rule.mem_nonterminals, List.mem_append, List.mem_singleton] at hname
    rcases hname with hname | hname
    · exact hsource (Rule.mem_nonterminals.2 hname)
    · rw [Symbol.nonterminal.inj hname]
      exact List.mem_append_right _ (List.mem_map_of_mem mem)
  · intro entry mem rule hrule name hname
    rcases List.mem_append.1 (ranked.mentioned entry mem rule hrule hname) with h | h
    · exact List.mem_append_left _ h
    · exact List.mem_append_right _ (List.map_subset _ step.repeaters_subset h)

/-- Without a unit cycle every recursive tail is anchored, so a new repeater is founded on the earlier ones. -/
theorem Ranked.founded_next (ranked : Ranked g state)
    (acyclic : ∀ name, ¬Relation.TransGen g.UnitStep name name) (step : Step stop state next) :
    Founded g.names next.repeaters := by
  rcases step.repeaters_cases with h | ⟨entry, rest, repeater, hrest, h⟩
  · exact h ▸ ranked.founded
  · rw [h]
    refine ranked.founded.concat fun rule hrule ↦ ?_
    rcases RepetitionStop.mem_repeaterRules.1 hrule with hrule | ⟨_, hnil⟩
    · right
      have ⟨tail, htail, hsplit⟩ := RepetitionStop.exists_of_mem_repeated hrule
      have hanchored := ranked.anchored_of_mem_recursiveTails acyclic hrest htail
      rcases hsplit with hsplit | hsplit
      · exact ⟨tail, [], by rw [hsplit, List.append_nil], hanchored⟩
      · exact ⟨tail, _, hsplit, hanchored⟩
    · exact Or.inl hnil

/-- One step keeps the invariant. -/
theorem ranked_of_step (acyclic : ∀ name, ¬Relation.TransGen g.UnitStep name name)
    (step : Step stop state next) (ranked : Ranked g state) : Ranked g next where
  names_eq := step.names_eq.trans ranked.names_eq
  follows_units := by
    apply step.forall_rules (P := g.FollowsUnits)
    · exact fun _ _ _ _ hsource hrule ↦ hsource.splice hrule
    · exact fun _ _ _ _ hsource ↦ hsource.append _
    · exact ranked.follows_units
  mentioned := ranked.mentioned_next step
  descending := step.descending ranked.descending fun entry mem rule hrule ↦
    (ranked.follows_units entry mem rule hrule).ne_nil
  founded := ranked.founded_next acyclic step

/-- The invariant holds after any number of steps. -/
theorem ranked_of_steps (acyclic : ∀ name, ¬Relation.TransGen g.UnitStep name name)
    (steps : Steps stop state next) (ranked : Ranked g state) : Ranked g next := by
  induction steps with
  | refl => exact ranked
  | tail _ step ih => exact ranked_of_step acyclic step ih

end Unwinding

/-! ## Chains of left corners -/

namespace Grammar

variable {g h unwound : Grammar} {stop : RepetitionStop} {supply rest : NameSupply} {name corner : Char}
  {names : List Char}

/-- The corner stands in a rule of the nonterminal with nullable nonterminals before it at most. -/
def LeftCorner (g : Grammar) (corner name : Char) : Prop :=
  ∃ before after, before ++ Symbol.nonterminal corner :: after ∈ g.rules name ∧
    ∀ symbol ∈ before, ∃ other, symbol = .nonterminal other ∧ g.Generates other []

section

variable (led : ∀ name ∈ names, ∀ rule ∈ h.rules name, Rule.LedWithin names rule)

include led

/-- A nonterminal whose leaders come to an end derives no empty word. -/
theorem nil_notMem_language_of_acc_leads (acc : Acc h.Leads name) (hname : name ∈ names) :
    [] ∉ h.language name := by
  induction acc with
  | intro name _ ih =>
    intro hnil
    have ⟨rule, mem, hwords⟩ := mem_language_iff.1 hnil
    have hled := led name hname rule mem
    cases rule with
    | nil => exact hled.ne_nil rfl
    | cons symbol tail =>
      have ⟨leader, hsymbol, hleader⟩ := Rule.nil_mem_words.1 hwords symbol List.mem_cons_self
      subst hsymbol
      exact ih leader ⟨_, mem, rfl⟩ (hled.leader_mem leader rfl) hleader

variable (hnil : ∀ name ∈ names, [] ∉ h.language name)

include hnil

/-- No old nonterminal is nullable, so a left corner of an old rule is its leader. -/
theorem leads_of_leftCorner (hname : name ∈ names) (hcorner : h.LeftCorner corner name) :
    h.Leads corner name := by
  have ⟨before, after, mem, hbefore⟩ := hcorner
  cases before with
  | nil => exact ⟨_, mem, rfl⟩
  | cons symbol before =>
    have ⟨leader, hsymbol, hleader⟩ := hbefore symbol List.mem_cons_self
    subst hsymbol
    exact absurd hleader (hnil leader ((led name hname _ mem).leader_mem leader rfl))

theorem acc_leftCorner_of_acc_leads (acc : Acc h.Leads name) (hname : name ∈ names) :
    Acc h.LeftCorner name := by
  induction acc with
  | intro name _ ih =>
    constructor
    intro corner hcorner
    have hleads := leads_of_leftCorner led hnil hname hcorner
    have ⟨rule, mem, hleader⟩ := hleads
    exact ih corner hleads ((led name hname rule mem).leader_mem corner hleader)

end

/-- Repeaters come to an end as well, because each tail passes an old nonterminal before the
repeater recurs. -/
theorem acc_leftCorner_of_founded {repeaters : List Entry} (founded : Founded names repeaters)
    (hrules : ∀ entry ∈ repeaters, ∀ rule ∈ h.rules entry.name, rule ∈ entry.rules)
    (hnil : ∀ name ∈ names, [] ∉ h.language name) (hacc : ∀ name ∈ names, Acc h.LeftCorner name) :
    ∀ entry ∈ repeaters, Acc h.LeftCorner entry.name := by
  induction founded with
  | nil => simp
  | @concat repeaters repeater _ anchored ih =>
    have hearlier := ih fun entry mem ↦ hrules entry (List.mem_append_left _ mem)
    intro entry mem
    rcases List.mem_append.1 mem with hmem | hmem
    · exact hearlier entry hmem
    · constructor
      intro corner ⟨before, after, hrule, hbefore⟩
      have hrule := hrules entry mem _ hrule
      rw [List.mem_singleton.1 hmem] at hrule
      rcases anchored _ hrule with hempty | ⟨tail, more, hsplit, htail, subset⟩
      · simp at hempty
      · -- What is nullable is no entry, so the corner comes no later than the anchor.
        have hcorner : corner ∈ Rule.nonterminals tail := by
          apply htail.mem_nonterminals hsplit.symm
          intro symbol hsymbol
          have ⟨other, hother, hgenerates⟩ := hbefore symbol hsymbol
          exact ⟨other, hother, fun hnames ↦ hnil other hnames hgenerates⟩
        rcases List.mem_append.1 (subset hcorner) with hcorner | hcorner
        · exact hacc corner hcorner
        · have ⟨other, hother, hname⟩ := List.mem_map.1 hcorner
          exact hname ▸ hearlier other hother

/-- Before the first step every rule is an original one, and there is no repeater. -/
theorem ranked_of_closed (wf : g.WellFormed) (closed : g.Closed) (nonempty : ∀ name, [] ∉ g.rules name)
    (supply : NameSupply) : Unwinding.Ranked g ⟨[], g.entries, [], supply⟩ where
  names_eq := rfl
  follows_units := by
    intro entry mem rule hrule
    rw [← rules_of_mem wf.names_nodup mem] at hrule
    exact followsUnits_of_mem_rules wf closed hrule fun hnil ↦ nonempty entry.name (hnil ▸ hrule)
  mentioned := by
    intro entry mem rule hrule
    rw [List.map_nil, List.append_nil]
    exact closed.defined _ (List.mem_flatMap.2 ⟨entry, mem, List.mem_map_of_mem hrule⟩)
  descending := Descending.nil
  founded := .nil

/-- The entries come first, and on them rests what is said about the repeaters. -/
theorem wellFounded_leftCorner {start : Char} {entries repeaters : List Entry}
    (ranked : Unwinding.Ranked g ⟨entries, [], repeaters, supply⟩)
    (nodup : ((entries ++ repeaters).map (·.name)).Nodup) :
    WellFounded (ofEntries start (entries ++ repeaters)).LeftCorner := by
  have hnames : entries.map (·.name) = g.names := by
    rw [← ranked.names_eq, List.append_nil]
  have hrules (entry : Entry) (mem : entry ∈ entries ++ repeaters) (rule : Rule) :
      rule ∈ (ofEntries start (entries ++ repeaters)).rules entry.name → rule ∈ entry.rules :=
    (mem_rules_ofEntries_of_mem nodup mem).1
  have hled : ∀ entry ∈ entries, ∀ rule ∈ entry.rules, Rule.LedWithin (entries.map (·.name)) rule := by
    intro entry mem rule hrule
    rw [hnames]
    exact (ranked.follows_units entry (List.mem_append_left [] mem) rule hrule).toLedWithin
  have hleads := acc_leads_of_descending ranked.descending
    (fun entry mem ↦ hrules entry (List.mem_append_left _ mem)) hled
  rw [hnames] at hled
  have hentries {P : Char → Prop} (hP : ∀ entry ∈ entries, P entry.name) : ∀ name ∈ g.names, P name := by
    rw [← hnames]
    exact List.forall_mem_map.2 hP
  have hledBy : ∀ name ∈ g.names, ∀ rule ∈ (ofEntries start (entries ++ repeaters)).rules name,
      Rule.LedWithin g.names rule := hentries fun entry mem rule hrule ↦
    hled entry mem rule (hrules entry (List.mem_append_left _ mem) rule hrule)
  -- First the old nonterminals: they are not nullable, so their corners are leaders and descend.
  have hnil : ∀ name ∈ g.names, [] ∉ (ofEntries start (entries ++ repeaters)).language name :=
    fun name hname ↦ nil_notMem_language_of_acc_leads hledBy (hentries hleads name hname) hname
  have hacc : ∀ name ∈ g.names, Acc (ofEntries start (entries ++ repeaters)).LeftCorner name :=
    fun name hname ↦ acc_leftCorner_of_acc_leads hledBy hnil (hentries hleads name hname) hname
  -- Then the repeaters, in the order in which they were introduced.
  have hrepeaters := acc_leftCorner_of_founded ranked.founded
    (fun entry mem ↦ hrules entry (List.mem_append_right _ mem)) hnil hacc
  refine ⟨fun name ↦ ⟨name, fun corner hcorner ↦ ?_⟩⟩
  have hname : name ∈ (entries ++ repeaters).map (·.name) := by
    obtain ⟨before, after, mem, -⟩ := hcorner
    obtain ⟨entry, hentry, hname, -⟩ := (mem_rules_ofEntries nodup).1 mem
    exact hname ▸ List.mem_map_of_mem hentry
  rw [List.map_append, hnames, List.mem_append] at hname
  rcases hname with hname | hname
  · exact (hacc name hname).inv hcorner
  · obtain ⟨entry, hentry, rfl⟩ := List.mem_map.1 hname
    exact (hrepeaters entry hentry).inv hcorner

/-! ## Main result -/

/-- Without empty rules and unit cycles the removal is complete.  No nonterminal of the result is a
left corner of itself, however many nullable nonterminals stand before it. -/
theorem not_leftRecursive_withoutLeftRecursion (wf : g.WellFormed) (closed : g.Closed)
    (taken : g.names ⊆ supply.taken) (nonempty : ∀ name, [] ∉ g.rules name)
    (acyclic : ∀ name, ¬Relation.TransGen g.UnitStep name name)
    (run : (g.withoutLeftRecursion stop).outcome supply = (.ok unwound, rest)) (name : Char) :
    ¬Relation.TransGen unwound.LeftCorner name name := by
  have covers := NameSupply.covers_of_closed wf.names_nodup closed taken
  obtain ⟨entries, repeaters, steps, keeps, rfl⟩ :=
    exists_keeps_of_withoutLeftRecursion wf.names_nodup covers run
  have ranked := Unwinding.ranked_of_steps acyclic steps (ranked_of_closed wf closed nonempty supply)
  have nodup := keeps.registered.nodup
  simp only [Unwinding.entries, List.append_nil] at nodup
  exact (wellFounded_leftCorner ranked nodup).transGen.irrefl.irrefl name

/-- Left recursion through a unit rule, and a repetition that begins with another one. -/
def spiral : Grammar :=
  ⟨[⟨'S', [[.nonterminal 'A'], [.nonterminal 'S', .terminal 'a']]⟩,
    ⟨'A', [[.nonterminal 'S', .nonterminal 'B', .terminal 'b'], [.terminal 'c']]⟩,
    ⟨'B', [[.nonterminal 'A', .terminal 'c'], [.terminal 'b']]⟩], 'S'⟩

/-- The nullable `C` leads a rule of the nullable `D`, and `B` is a left corner behind it. -/
def unwoundSpiral : Grammar :=
  ⟨[⟨'S', [[.nonterminal 'A', .nonterminal 'C']]⟩,
    ⟨'A', [[.terminal 'c', .nonterminal 'D']]⟩,
    ⟨'B', [[.terminal 'c', .nonterminal 'D', .terminal 'c'], [.terminal 'b']]⟩,
    ⟨'C', [[.terminal 'a', .nonterminal 'C'], []]⟩,
    ⟨'D', [[.nonterminal 'C', .nonterminal 'B', .terminal 'b', .nonterminal 'D'], []]⟩], 'S'⟩

theorem withoutLeftRecursion_spiral :
    (spiral.withoutLeftRecursion .emptyRule).outcome (.avoiding spiral) =
      (.ok unwoundSpiral, ⟨['D', 'C', 'S', 'A', 'B']⟩) := by
  rfl

/-- Three nonterminals led by one another, with a repeater that becomes nullable. -/
theorem not_leftRecursive_withoutLeftRecursion_spiral :
    spiral.names ⊆ (NameSupply.avoiding spiral).taken ∧
      ∀ name, ¬Relation.TransGen unwoundSpiral.LeftCorner name name := by
  have wf : spiral.WellFormed := ⟨by decide, by decide⟩
  have defined : ∀ p ∈ spiral.productions, Rule.nonterminals p.right ⊆ spiral.names := by decide
  have closed : spiral.Closed := ⟨by decide, fun p hp _ h ↦ defined p hp h⟩
  have taken : spiral.names ⊆ (NameSupply.avoiding spiral).taken := List.Subset.refl _
  have rules_ne_nil : ∀ p ∈ spiral.productions, p.right ≠ [] := by decide
  have nonempty (name : Char) : [] ∉ spiral.rules name := fun mem ↦
    rules_ne_nil ⟨name, []⟩ ((mem_productions wf.names_nodup).2 mem) rfl
  have acyclic : ∀ name, ¬Relation.TransGen spiral.UnitStep name name :=
    not_transGen_unitStep_of_unitCycles_eq_nil wf.names_nodup (by cbv)
  exact ⟨taken, not_leftRecursive_withoutLeftRecursion wf closed taken nonempty acyclic
    withoutLeftRecursion_spiral⟩

end Grammar

end GrammarForms
