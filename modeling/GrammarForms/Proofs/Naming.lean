import GrammarForms.Grammar.Building
import GrammarForms.NameSupply

/-!
# Drawing Fresh Names

The outcome of a computation on a supply is its result together with the supply it leaves.  A run that
succeeds is a chain of runs that succeed, each on the supply that the one before it left.  The names
drawn on the way differ from each other and from all names that were taken, and afterwards they are
taken too.  A supply that covers a grammar therefore gives names that occur nowhere in it.
-/

namespace GrammarForms

namespace Naming

variable {α β : Type} {supply rest : NameSupply}

/-- The result of a computation and the supply it leaves. -/
def outcome (naming : Naming α) (supply : NameSupply) : Except GrammarError α × NameSupply :=
  naming.run.run supply

theorem outcome_pure_eq_ok {a b : α} :
    outcome (pure a) supply = (.ok b, rest) ↔ a = b ∧ supply = rest := by
  change (Except.ok a, supply) = (Except.ok b, rest) ↔ a = b ∧ supply = rest
  simp

/-- The second computation begins with the supply that the first one left. -/
theorem outcome_bind (naming : Naming α) (next : α → Naming β) (supply : NameSupply) :
    outcome (naming >>= next) supply =
      match outcome naming supply with
      | (.ok a, middle) => outcome (next a) middle
      | (.error e, middle) => (.error e, middle) := by
  simp only [outcome, ExceptT.run_bind, StateT.run_bind]
  change (match naming.run.run supply with | (result, middle) => _) = _
  cases h : naming.run.run supply with
  | mk result middle => cases result <;> rfl

/-- A sequence succeeds exactly if both of its parts do. -/
theorem outcome_bind_eq_ok {naming : Naming α} {next : α → Naming β} {b : β} :
    outcome (naming >>= next) supply = (.ok b, rest) ↔
      ∃ a middle, outcome naming supply = (.ok a, middle) ∧
        outcome (next a) middle = (.ok b, rest) := by
  rw [outcome_bind]
  cases h : outcome naming supply with
  | mk result middle =>
    cases result with
    | error e => simp
    | ok a =>
      refine ⟨fun hnext ↦ ⟨a, middle, rfl, hnext⟩, fun ⟨_, _, e, hnext⟩ ↦ ?_⟩
      cases e
      exact hnext

theorem outcome_map_eq_ok {f : α → β} {naming : Naming α} {b : β} :
    outcome (f <$> naming) supply = (.ok b, rest) ↔
      ∃ a, outcome naming supply = (.ok a, rest) ∧ f a = b := by
  rw [← bind_pure_comp, outcome_bind_eq_ok]
  constructor
  · intro ⟨a, middle, hrun, hpure⟩
    have ⟨ha, hmiddle⟩ := outcome_pure_eq_ok.1 hpure
    exact ⟨a, hmiddle ▸ hrun, ha⟩
  · intro ⟨a, hrun, ha⟩
    exact ⟨a, rest, hrun, outcome_pure_eq_ok.2 ⟨ha, rfl⟩⟩

end Naming

namespace NameSupply

variable {supply middle rest : NameSupply} {neededFor : String}

/-- The names are new to the supply, and they are what has been taken from it since. -/
structure Drawn (supply : NameSupply) (names : List Char) (rest : NameSupply) : Prop where
  nodup : names.Nodup
  notMem_taken : ∀ name ∈ names, name ∉ supply.taken
  mem_taken : ∀ name, name ∈ rest.taken ↔ name ∈ names ∨ name ∈ supply.taken

theorem Drawn.nil (supply : NameSupply) : supply.Drawn [] supply :=
  ⟨List.nodup_nil, by simp, by simp⟩

/-- Names drawn one run after another are new as a whole. -/
theorem Drawn.append {names others : List Char} (first : supply.Drawn names middle)
    (second : middle.Drawn others rest) : supply.Drawn (names ++ others) rest where
  nodup := by
    rw [List.nodup_append]
    refine ⟨first.nodup, second.nodup, fun name hname other hother e ↦ ?_⟩
    exact second.notMem_taken other hother ((first.mem_taken other).2 (Or.inl (e ▸ hname)))
  notMem_taken := by
    intro name hname htaken
    rcases List.mem_append.1 hname with hname | hname
    · exact first.notMem_taken name hname htaken
    · exact second.notMem_taken name hname ((first.mem_taken name).2 (Or.inr htaken))
  mem_taken := by
    intro name
    rw [second.mem_taken, first.mem_taken, List.mem_append, or_left_comm, or_assoc]

/-- A name is free if it is a letter that is not taken. -/
theorem mem_free {name : Char} : name ∈ supply.free ↔ name ∈ letters ∧ name ∉ supply.taken := by
  simp [free]

theorem isUpper_of_mem_letters : ∀ name ∈ letters, name.isUpper = true := by
  rw [← List.all_eq_true]
  decide

theorem head?_free_of_fresh {name : Char}
    (h : (fresh neededFor).outcome supply = (.ok name, rest)) :
    supply.free.head? = some name ∧ rest = ⟨name :: supply.taken⟩ := by
  cases hfree : supply.free with
  | nil =>
    rw [Naming.outcome, fresh_run_of_free_eq_nil hfree] at h
    cases h
  | cons first others =>
    rw [Naming.outcome, fresh_run_of_free_eq_cons hfree] at h
    cases h
    exact ⟨rfl, rfl⟩

theorem mem_free_of_fresh {name : Char}
    (h : (fresh neededFor).outcome supply = (.ok name, rest)) :
    name ∈ supply.free ∧ rest = ⟨name :: supply.taken⟩ :=
  (head?_free_of_fresh h).imp_left List.mem_of_head?

/-- A name that was given out is new, and it is taken from then on. -/
theorem drawn_of_fresh {name : Char}
    (h : (fresh neededFor).outcome supply = (.ok name, rest)) : supply.Drawn [name] rest := by
  have ⟨hname, hrest⟩ := mem_free_of_fresh h
  rw [hrest]
  exact ⟨by simp, by simpa using (mem_free.1 hname).2, by simp⟩

/-! ## Many names -/

/-- As many fresh names as asked for, one after another. -/
def freshMany (neededFor : String) : Nat → Naming (List Char)
  | 0 => return []
  | count + 1 => do
    let name ← fresh neededFor
    let others ← freshMany neededFor count
    return name :: others

/-- What a computation does with many names need only be known for lists of so many. -/
theorem freshMany_bind_congr {α : Type} {count : Nat} {next other : List Char → Naming α}
    (h : ∀ names, names.length = count → next names = other names) :
    freshMany neededFor count >>= next = freshMany neededFor count >>= other := by
  induction count generalizing next other with
  | zero => simp only [freshMany, pure_bind, h [] rfl]
  | succ count ih =>
    simp only [freshMany, bind_assoc, pure_bind]
    congr 1
    funext name
    exact ih fun others hothers ↦ h (name :: others) (congrArg Nat.succ hothers)

/-- To draw names in two portions is to draw them all. -/
theorem freshMany_add (count more : Nat) :
    freshMany neededFor (count + more) = (do
      let names ← freshMany neededFor count
      let others ← freshMany neededFor more
      return names ++ others) := by
  induction count with
  | zero => simp [freshMany]
  | succ count ih =>
    rw [Nat.succ_add]
    simp only [freshMany, ih, bind_assoc, pure_bind, List.cons_append]

/-- A successful request for many names draws that many new ones. -/
theorem drawn_of_freshMany {count : Nat} {names : List Char}
    (h : (freshMany neededFor count).outcome supply = (.ok names, rest)) :
    names.length = count ∧ supply.Drawn names rest := by
  induction count generalizing supply names with
  | zero =>
    have ⟨hnames, hrest⟩ := Naming.outcome_pure_eq_ok.1 h
    exact ⟨hnames ▸ rfl, hnames ▸ hrest ▸ Drawn.nil supply⟩
  | succ count ih =>
    have ⟨name, middle, hname, h⟩ := Naming.outcome_bind_eq_ok.1 h
    have ⟨others, middle', hothers, h⟩ := Naming.outcome_bind_eq_ok.1 h
    have ⟨hnames, hrest⟩ := Naming.outcome_pure_eq_ok.1 h
    subst hnames hrest
    have ⟨hlength, hdrawn⟩ := ih hothers
    exact ⟨congrArg Nat.succ hlength, (drawn_of_fresh hname).append hdrawn⟩

/-- Every nonterminal in sight is taken. -/
structure Covers (supply : NameSupply) (g : Grammar) : Prop where
  start_mem : g.start ∈ supply.taken
  names_subset : g.names ⊆ supply.taken
  mentioned : ∀ name, ∀ rule ∈ g.rules name, Rule.nonterminals rule ⊆ supply.taken

variable {g : Grammar} {names : List Char}

/-- In a closed grammar, taking the names of the entries takes every nonterminal in sight. -/
theorem covers_of_closed (nodup : g.names.Nodup) (closed : g.Closed) (h : g.names ⊆ supply.taken) :
    supply.Covers g where
  start_mem := h closed.start_mem
  names_subset := h
  mentioned := fun name rule mem other hother ↦
    h (closed.defined ⟨name, rule⟩ ((Grammar.mem_productions nodup).2 mem) other hother)

/-- Drawing names uncovers nothing. -/
theorem Covers.of_drawn (covers : supply.Covers g) (drawn : supply.Drawn names rest) :
    rest.Covers g where
  start_mem := (drawn.mem_taken _).2 (Or.inr covers.start_mem)
  names_subset := fun name hname ↦ (drawn.mem_taken name).2 (Or.inr (covers.names_subset hname))
  mentioned := fun name rule mem other hother ↦
    (drawn.mem_taken other).2 (Or.inr (covers.mentioned name rule mem hother))

theorem Covers.notMem_of_mem_names (covers : supply.Covers g) (drawn : supply.Drawn names rest)
    {name : Char} (hname : name ∈ g.names) : name ∉ names := fun hdrawn ↦
  drawn.notMem_taken name hdrawn (covers.names_subset hname)

theorem Covers.notMem_names (covers : supply.Covers g) {name : Char}
    (drawn : supply.Drawn [name] rest) : name ∉ g.names := fun h ↦
  covers.notMem_of_mem_names drawn h (List.mem_singleton_self name)

theorem Covers.start_notMem (covers : supply.Covers g) (drawn : supply.Drawn names rest) :
    g.start ∉ names := fun hdrawn ↦
  drawn.notMem_taken g.start hdrawn covers.start_mem

/-- No rule of a covered grammar mentions a name that is drawn later. -/
theorem Covers.notMem_of_mem_nonterminals (covers : supply.Covers g)
    (drawn : supply.Drawn names rest) {name other : Char} {rule : Rule} (mem : rule ∈ g.rules name)
    (hother : other ∈ Rule.nonterminals rule) : other ∉ names := fun hdrawn ↦
  drawn.notMem_taken other hdrawn (covers.mentioned name rule mem hother)

end NameSupply

end GrammarForms
