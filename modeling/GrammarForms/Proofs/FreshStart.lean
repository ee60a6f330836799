import GrammarForms.Proofs.Cleaning
import GrammarForms.Proofs.Isolation

/-!
# A New Start Symbol

A new start symbol whose only rule is the old one accepts the same words, and no rule mentions it.  It
is introduced exactly if the empty word is kept and a rule mentions the old start symbol, so a start
symbol with an empty rule is never mentioned.
-/

namespace GrammarForms

namespace Grammar

variable {g started : Grammar} {policy : EmptyWordPolicy} {start name : Char} {rule : Rule}
  {supply rest : NameSupply} {word : List Char}

/-! ## The grammar with a new start symbol -/

/-- A wrapped grammar has all its old rules and the unit rule of the new start symbol. -/
theorem mem_rules_wrapStart (nodup : g.names.Nodup) (hstart : start ∉ g.names) :
    rule ∈ (g.wrapStart start).rules name ↔
      name = start ∧ rule = [.nonterminal g.start] ∨ rule ∈ g.rules name := by
  have hnames : ((⟨start, [[.nonterminal g.start]]⟩ :: g.entries : List Entry).map (·.name)).Nodup :=
    List.nodup_cons.2 ⟨hstart, nodup⟩
  rw [wrapStart, mem_rules_ofEntries hnames, mem_rules_iff nodup]
  simp only [List.mem_cons, exists_eq_or_imp, List.not_mem_nil, or_false, @eq_comm _ start]

@[simp]
theorem start_wrapStart (g : Grammar) (start : Char) : (g.wrapStart start).start = start :=
  start_ofEntries start _

theorem wellFormed_wrapStart (g : Grammar) (start : Char) : (g.wrapStart start).WellFormed :=
  wellFormed_ofEntries start _

/-- The old start symbol stands behind the new one. -/
def startImage (g : Grammar) (start name : Char) : Rule :=
  if name = start then [.nonterminal g.start] else [.nonterminal name]

/-- Reading the new start symbol as the old one gives the grammar back. -/
theorem unfoldsTo_wrapStart (nodup : g.names.Nodup) (covers : supply.Covers g)
    (drawn : supply.Drawn [start] rest) :
    (g.wrapStart start).UnfoldsTo (g.startImage start) g := by
  have hnew {other : Char} (h : other ∉ [start]) : g.startImage start other = [.nonterminal other] :=
    if_neg fun e ↦ h (List.mem_singleton.2 e)
  have hstart := covers.notMem_names drawn
  intro name rule mem
  rcases (mem_rules_wrapStart nodup hstart).1 mem with ⟨rfl, rfl⟩ | mem
  · left
    have himage := hnew (covers.start_notMem drawn)
    rw [Rule.unfold_nonterminal_cons, himage, startImage, if_pos rfl]
    rfl
  · right
    have hrule : Rule.unfold (g.startImage start) rule = rule := Rule.unfold_eq_self fun other h ↦
      hnew (covers.notMem_of_mem_nonterminals drawn mem h)
    exact ⟨hnew (covers.notMem_of_mem_names drawn (mem_names_of_mem_rules mem)), hrule.symm ▸ mem⟩

/-- The new start symbol accepts what the old one does. -/
theorem accepts_wrapStart (nodup : g.names.Nodup) (covers : supply.Covers g)
    (drawn : supply.Drawn [start] rest) : (g.wrapStart start).Accepts word ↔ g.Accepts word := by
  have hstart := covers.notMem_names drawn
  rw [accepts_iff, accepts_iff, start_wrapStart]
  constructor
  · intro h
    have hle := (unfoldsTo_wrapStart nodup covers drawn).language_le start
    rw [startImage, if_pos rfl, Rule.words_nonterminal] at hle
    exact hle h
  · intro h
    have hold : word ∈ (g.wrapStart start).language g.start :=
      language_le_of_rules_subset
        (fun name rule mem ↦ (mem_rules_wrapStart nodup hstart).2 (Or.inr mem)) g.start h
    have hrule : [.nonterminal g.start] ∈ (g.wrapStart start).rules start :=
      (mem_rules_wrapStart nodup hstart).2 (Or.inl ⟨rfl, rfl⟩)
    apply (g.wrapStart start).isModel_language start _ hrule
    rwa [Rule.words_nonterminal]

theorem covers_wrapStart (nodup : g.names.Nodup) (covers : supply.Covers g)
    (drawn : supply.Drawn [start] rest) : rest.Covers (g.wrapStart start) := by
  have hold := covers.of_drawn drawn
  have hnew : start ∈ rest.taken := (drawn.mem_taken start).2 (Or.inl (List.mem_singleton_self start))
  have hstart := covers.notMem_names drawn
  refine ⟨?_, fun name hname ↦ ?_, fun name rule mem other hother ↦ ?_⟩
  · rwa [start_wrapStart]
  · rw [wrapStart, mem_names_ofEntries, List.map_cons, List.mem_cons, or_self_left] at hname
    rcases hname with rfl | hname
    · exact hnew
    · exact hold.names_subset hname
  · rcases (mem_rules_wrapStart nodup hstart).1 mem with ⟨-, rfl⟩ | mem
    · have e : Symbol.nonterminal other = .nonterminal g.start :=
        List.mem_singleton.1 (Rule.mem_nonterminals.1 hother)
      rw [Symbol.nonterminal.inj e]
      exact hold.start_mem
    · exact hold.mentioned name rule mem hother

/-- No rule mentions the new start symbol. -/
theorem notMem_nonterminals_wrapStart (nodup : g.names.Nodup) (covers : supply.Covers g)
    (drawn : supply.Drawn [start] rest) (mem : rule ∈ (g.wrapStart start).rules name) :
    start ∉ Rule.nonterminals rule := by
  intro hmentioned
  have hself : start ∈ [start] := List.mem_singleton_self start
  rcases (mem_rules_wrapStart nodup (covers.notMem_names drawn)).1 mem with ⟨-, rfl⟩ | mem
  · have e : Symbol.nonterminal start = .nonterminal g.start :=
      List.mem_singleton.1 (Rule.mem_nonterminals.1 hmentioned)
    exact covers.start_notMem drawn (Symbol.nonterminal.inj e ▸ hself)
  · exact covers.notMem_of_mem_nonterminals drawn mem hmentioned hself

/-! ## When there is one -/

/-- A new start symbol is needed when the empty word is kept at a symbol that some rule mentions. -/
theorem needsFreshStart_iff :
    g.needsFreshStart policy = true ↔ g.KeepsEmptyWord policy ∧ g.mentions g.start = true := by
  rw [needsFreshStart, decide_eq_true_iff, EmptyWordFate.of_eq_kept_iff]
  rfl

/-- Either one name is drawn and the grammar is wrapped, or nothing happens. -/
theorem freshStart_cases (h : (g.freshStart policy).outcome supply = (.ok started, rest)) :
    (g.needsFreshStart policy = true ∧
      ∃ start, supply.Drawn [start] rest ∧ started = g.wrapStart start) ∨
    g.needsFreshStart policy = false ∧ started = g ∧ rest = supply := by
  rw [freshStart] at h
  cases hneeds : g.needsFreshStart policy with
  | true =>
    rw [hneeds, if_pos rfl] at h
    have ⟨start, hfresh, hstarted⟩ := Naming.outcome_map_eq_ok.1 h
    exact Or.inl ⟨rfl, start, NameSupply.drawn_of_fresh hfresh, hstarted.symm⟩
  | false =>
    rw [hneeds, if_neg (by simp)] at h
    have ⟨hstarted, hrest⟩ := Naming.outcome_pure_eq_ok.1 h
    exact Or.inr ⟨rfl, hstarted.symm, hrest.symm⟩

/-- The grammar that a normalization starts from: the next free name becomes the new start symbol where
there has to be one. -/
def startedWith (g : Grammar) (policy : EmptyWordPolicy) (supply : NameSupply) : Grammar :=
  if g.needsFreshStart policy then (supply.free.head?.map g.wrapStart).getD g else g

theorem eq_startedWith_of_freshStart (h : (g.freshStart policy).outcome supply = (.ok started, rest)) :
    started = g.startedWith policy supply := by
  rw [freshStart] at h
  rw [startedWith]
  cases hneeds : g.needsFreshStart policy with
  | true =>
    rw [hneeds, if_pos rfl] at h
    have ⟨start, hfresh, hstarted⟩ := Naming.outcome_map_eq_ok.1 h
    rw [if_pos rfl, (NameSupply.head?_free_of_fresh hfresh).1]
    exact hstarted.symm
  | false =>
    rw [hneeds, if_neg (by simp)] at h
    rw [if_neg (by simp)]
    exact (Naming.outcome_pure_eq_ok.1 h).1.symm

theorem taken_subset_of_freshStart (h : (g.freshStart policy).outcome supply = (.ok started, rest)) :
    supply.taken ⊆ rest.taken := by
  rcases freshStart_cases h with ⟨_, start, drawn, _⟩ | ⟨_, _, hrest⟩
  · exact fun name hname ↦ (drawn.mem_taken name).2 (Or.inr hname)
  · exact hrest ▸ List.Subset.refl _

/-- What the rest of a normalization relies on. -/
structure Started (g : Grammar) (policy : EmptyWordPolicy) (started : Grammar) : Prop where
  nodup : started.names.Nodup
  accepts : ∀ word, started.Accepts word ↔ g.Accepts word
  unmentioned : g.KeepsEmptyWord policy →
    ∀ left, ∀ source ∈ started.rules left, started.start ∉ Rule.nonterminals source
  start_ne_iff : started.start ≠ g.start ↔ g.needsFreshStart policy = true

/-- The stage delivers what the later ones rely on, and the supply still covers the grammar. -/
theorem started_of_freshStart (nodup : g.names.Nodup) (covers : supply.Covers g)
    (h : (g.freshStart policy).outcome supply = (.ok started, rest)) :
    g.Started policy started ∧ rest.Covers started := by
  rcases freshStart_cases h with ⟨hneeds, start, drawn, rfl⟩ | ⟨hneeds, rfl, rfl⟩
  · have hne : g.start ≠ start := fun e ↦ covers.start_notMem drawn (List.mem_singleton.2 e)
    refine ⟨⟨(wellFormed_wrapStart g start).names_nodup, ?_, ?_, ?_⟩, ?_⟩
    · exact fun word ↦ accepts_wrapStart nodup covers drawn
    · intro _ left source mem
      rw [start_wrapStart]
      exact notMem_nonterminals_wrapStart nodup covers drawn mem
    · rw [start_wrapStart]
      exact ⟨fun _ ↦ hneeds, fun _ ↦ hne.symm⟩
    · exact covers_wrapStart nodup covers drawn
  · refine ⟨⟨nodup, fun _ ↦ Iff.rfl, ?_, by simp [hneeds]⟩, covers⟩
    intro hkeeps left source mem hmentioned
    have hmentions : started.mentions started.start = true :=
      (mentions_iff nodup).2 ⟨left, source, mem, hmentioned⟩
    rw [needsFreshStart_iff.2 ⟨hkeeps, hmentions⟩] at hneeds
    cases hneeds

end Grammar

end GrammarForms
