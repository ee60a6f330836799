import GrammarForms.Proofs.Reading

/-!
# Grammars in Order

A grammar in order is well-formed and closed, and the start symbol is its first nonterminal.  A grammar
that was read from a text is in order.  The building operations put the start symbol first and leave it
there, so what remains to be seen of a transformation is that the result is closed.  For that, and for
what becomes of the terminals, it is enough to know which symbols occur in the rules.
-/

namespace GrammarForms.Grammar

variable {g h k : Grammar} {name : Char} {rule : Rule} {symbol : Symbol} {text : String}

/-! ## The start symbol in front -/

/-- The start symbol is the first nonterminal. -/
def Fronted (g : Grammar) : Prop :=
  g.names.head? = some g.start

theorem Fronted.position?_start (h : g.Fronted) : g.position? g.start = some 0 := by
  have ⟨rest, hnames⟩ := List.head?_eq_some_iff.1 h
  rw [position?, hnames, List.idxOf?_cons, if_pos (beq_self_eq_true g.start)]

theorem Fronted.start_mem (h : g.Fronted) : g.start ∈ g.names :=
  List.mem_of_head? h

theorem fronted_ofStart (start : Char) : (ofStart start).Fronted := rfl

theorem Fronted.declare (h : g.Fronted) (name : Char) : (g.declare name).Fronted := by
  have ⟨rest, hnames⟩ := List.head?_eq_some_iff.1 h
  unfold Fronted Grammar.declare
  split
  · exact h
  · simp only [names, List.map_append] at hnames ⊢
    rw [hnames]
    rfl

theorem Fronted.alter (h : g.Fronted) (name : Char) (change : List Rule → List Rule) :
    (g.alter name change).Fronted := by
  rw [Fronted, names_alter, start_alter, ← start_declare g name]
  exact h.declare name

theorem fronted_skeleton (g : Grammar) : g.skeleton.Fronted := by
  suffices ∀ (names : List Char) (built : Grammar), built.Fronted →
      (names.foldl Grammar.declare built).Fronted from
    this _ _ (fronted_ofStart g.start)
  intro names
  induction names with
  | nil => exact fun _ h ↦ h
  | cons first rest ih => exact fun built h ↦ ih _ (h.declare first)

/-- A rebuilt grammar begins with its start symbol, whatever productions it is given. -/
theorem fronted_rebuild (g : Grammar) (productions : List Production) :
    (g.rebuild productions).Fronted := by
  suffices ∀ built : Grammar, built.Fronted →
      (productions.foldl (fun built p ↦ built.addRule p.left p.right) built).Fronted from
    this _ (fronted_skeleton g)
  induction productions with
  | nil => exact fun _ h ↦ h
  | cons p rest ih => exact fun built h ↦ ih _ (h.alter p.left _)

theorem fronted_ofEntries (start : Char) (entries : List Entry) :
    (ofEntries start entries).Fronted := by
  suffices ∀ built : Grammar, built.Fronted →
      (entries.foldl (fun built entry ↦ built.replaceRules entry.name entry.rules) built).Fronted
    from this _ (fronted_ofStart start)
  induction entries with
  | nil => exact fun _ h ↦ h
  | cons entry rest ih => exact fun built h ↦ ih _ (h.alter entry.name _)

theorem Fronted.keepRules (h : g.Fronted) (keep : Rule → Bool) : (g.keepRules keep).Fronted := by
  rw [Fronted, names_keepRules]
  exact h

theorem Fronted.keepEntries (h : g.Fronted) (keep : Entry → Bool) :
    (g.keepEntries keep).Fronted := by
  have ⟨rest, hnames⟩ := List.head?_eq_some_iff.1 h
  have ⟨first, others, hentries, hname, _⟩ := List.map_eq_cons_iff.1 hnames
  simp [Fronted, Grammar.keepEntries, names, hentries, hname]

/-! ## The symbols that occur -/

/-- The symbol occurs in a rule of the grammar. -/
def Uses (g : Grammar) (symbol : Symbol) : Prop :=
  ∃ p ∈ g.productions, symbol ∈ p.right

theorem mem_productions_of_mem_entries {entry : Entry} (mem : entry ∈ g.entries)
    (hrule : rule ∈ entry.rules) : ⟨entry.name, rule⟩ ∈ g.productions :=
  List.mem_flatMap.2 ⟨entry, mem, List.mem_map_of_mem hrule⟩

theorem uses_iff_entries :
    g.Uses symbol ↔ ∃ entry ∈ g.entries, ∃ rule ∈ entry.rules, symbol ∈ rule := by
  constructor
  · intro ⟨p, hp, hsymbol⟩
    have ⟨entry, mem, hp⟩ := List.mem_flatMap.1 hp
    have ⟨rule, hrule, e⟩ := List.mem_map.1 hp
    exact ⟨entry, mem, rule, hrule, by rwa [← e] at hsymbol⟩
  · intro ⟨entry, mem, rule, hrule, hsymbol⟩
    exact ⟨_, mem_productions_of_mem_entries mem hrule, hsymbol⟩

/-- With distinct names, the symbols in use are those of the rules that lookups see. -/
theorem uses_iff (nodup : g.names.Nodup) :
    g.Uses symbol ↔ ∃ name, ∃ rule ∈ g.rules name, symbol ∈ rule := by
  constructor
  · intro ⟨p, hp, hsymbol⟩
    exact ⟨p.left, p.right, (mem_productions nodup).1 hp, hsymbol⟩
  · intro ⟨name, rule, mem, hsymbol⟩
    exact ⟨⟨name, rule⟩, (mem_productions nodup).2 mem, hsymbol⟩

theorem uses_of_mem_rules (nodup : g.names.Nodup) (mem : rule ∈ g.rules name) (h : symbol ∈ rule) :
    g.Uses symbol :=
  (uses_iff nodup).2 ⟨name, rule, mem, h⟩

theorem Closed.mem_names (closed : g.Closed) (h : g.Uses (.nonterminal name)) : name ∈ g.names := by
  have ⟨p, hp, hname⟩ := h
  exact closed.defined p hp name (Rule.mem_nonterminals.2 hname)

/-- A grammar is closed when every nonterminal in use has an entry. -/
theorem closed_of_uses (hstart : g.start ∈ g.names)
    (h : ∀ name, g.Uses (.nonterminal name) → name ∈ g.names) : g.Closed where
  start_mem := hstart
  defined := fun p hp name hname ↦ h name ⟨p, hp, Rule.mem_nonterminals.1 hname⟩

/-- The second grammar has the nonterminals of the first and possibly more, and it uses no other symbols
than the first and its own nonterminals. -/
structure Extends (g h : Grammar) : Prop where
  names_subset : g.names ⊆ h.names
  uses : ∀ symbol, h.Uses symbol → g.Uses symbol ∨ ∃ name ∈ h.names, symbol = .nonterminal name

/-- To extend a grammar it is enough that every symbol of every rule is old or the name of an entry.
-/
theorem extends_of_rules (nodup : h.names.Nodup) (subset : g.names ⊆ h.names)
    (rules : ∀ left, ∀ rule ∈ h.rules left, ∀ symbol ∈ rule,
      g.Uses symbol ∨ ∃ name ∈ h.names, symbol = .nonterminal name) : g.Extends h where
  names_subset := subset
  uses := by
    intro symbol huses
    have ⟨left, rule, mem, hsymbol⟩ := (uses_iff nodup).1 huses
    exact rules left rule mem symbol hsymbol

theorem Extends.refl (g : Grammar) : g.Extends g :=
  ⟨List.Subset.refl _, fun _ ↦ Or.inl⟩

theorem Extends.trans (first : g.Extends h) (second : h.Extends k) : g.Extends k where
  names_subset := fun _ hname ↦ second.names_subset (first.names_subset hname)
  uses := by
    intro symbol huses
    rcases second.uses symbol huses with huses | hnew
    · rcases first.uses symbol huses with hold | ⟨name, hname, hsymbol⟩
      · exact Or.inl hold
      · exact Or.inr ⟨name, second.names_subset hname, hsymbol⟩
    · exact Or.inr hnew

/-- No terminal is added. -/
theorem Extends.uses_terminal (extension : g.Extends h) {c : Char} (huses : h.Uses (.terminal c)) :
    g.Uses (.terminal c) := by
  rcases extension.uses _ huses with hold | ⟨name, _, hsymbol⟩
  · exact hold
  · cases hsymbol

/-- A grammar that extends a closed one is closed. -/
theorem Extends.closed (extension : g.Extends h) (closed : g.Closed) (hstart : h.start ∈ h.names) :
    h.Closed := by
  apply closed_of_uses hstart
  intro name huses
  rcases extension.uses _ huses with hold | ⟨other, hother, hsymbol⟩
  · exact extension.names_subset (closed.mem_names hold)
  · exact Symbol.nonterminal.inj hsymbol ▸ hother

/-! ## Grammars in order -/

structure InOrder (g : Grammar) : Prop extends g.WellFormed, g.Closed where
  fronted : g.Fronted

/-- An extension that is well-formed and begins with its start symbol is in order. -/
theorem Extends.inOrder (extension : g.Extends h) (order : g.InOrder) (wf : h.WellFormed)
    (fronted : h.Fronted) : h.InOrder where
  toWellFormed := wf
  toClosed := extension.closed order.toClosed fronted.start_mem
  fronted := fronted

theorem fronted_of_parse (h : parse text = .ok g) : g.Fronted := by
  have ⟨first, rest, _, hentries, hstart⟩ := exists_definitions_of_parse h
  have hnames : g.names = (first :: rest).map (·.left) := map_name_of_mapM_readEntry hentries
  rw [Fronted, hnames, hstart]
  rfl

/-- Every grammar that was read from a text is in order. -/
theorem inOrder_of_parse (h : parse text = .ok g) : g.InOrder where
  toWellFormed := wellFormed_of_parse h
  toClosed := closed_of_parse h
  fronted := fronted_of_parse h

end GrammarForms.Grammar
