import GrammarForms.Greibach
import GrammarForms.Proofs.Links
import GrammarForms.Proofs.StandIns

/-!
# Which Names a Computation Is Given

Whatever its outcome, a computation changes its supply by requests for fresh names alone.  The names that it
is given, one after another, are recorded by `NameSupply.Issues`; they differ from each other and from all
names that were taken before.  A computation that fails has been given names as well, and these stay taken.
-/

namespace GrammarForms

namespace NameSupply

variable {supply middle rest : NameSupply} {names others : List Char}

/-- The names were given out one after another, each by a request that succeeded. -/
inductive Issues : NameSupply → List Char → NameSupply → Prop where
  | nil (supply : NameSupply) : Issues supply [] supply
  | cons {supply middle rest : NameSupply} {neededFor : String} {name : Char} {names : List Char}
      (request : (fresh neededFor).outcome supply = (.ok name, middle))
      (later : Issues middle names rest) : Issues supply (name :: names) rest

/-- Names issued one run after another come in the order of the runs. -/
theorem Issues.append (first : Issues supply names middle) (second : Issues middle others rest) :
    Issues supply (names ++ others) rest := by
  induction first with
  | nil => exact second
  | cons request _ ih => exact .cons request (ih second)

theorem Issues.drawn (issues : Issues supply names rest) : supply.Drawn names rest := by
  induction issues with
  | nil supply => exact .nil supply
  | cons request _ ih => exact (drawn_of_fresh request).append ih

/-- The names taken in a supply are a record of what was given out, the latest first. -/
theorem Issues.taken_eq (issues : Issues supply names rest) :
    rest.taken = names.reverse ++ supply.taken := by
  induction issues with
  | nil => rfl
  | cons request _ ih =>
    rw [ih, (mem_free_of_fresh request).2, List.reverse_cons, List.append_assoc]
    rfl

theorem Issues.taken_subset (issues : Issues supply names rest) : supply.taken ⊆ rest.taken :=
  fun name h ↦ (issues.drawn.mem_taken name).2 (Or.inr h)

end NameSupply

namespace Naming

open NameSupply

variable {α β : Type}

/-- The computation changes no supply but by requests for fresh names. -/
def OnlyIssues (naming : Naming α) : Prop :=
  ∀ supply : NameSupply, ∃ names, supply.Issues names (naming.outcome supply).2

theorem onlyIssues_pure (a : α) : OnlyIssues (pure a) := fun supply ↦ ⟨[], .nil supply⟩

/-- Computations that do nothing to the supply but draw from it can be put one after another. -/
theorem OnlyIssues.bind {naming : Naming α} {next : α → Naming β} (first : naming.OnlyIssues)
    (second : ∀ a, (next a).OnlyIssues) : OnlyIssues (naming >>= next) := by
  intro supply
  have ⟨names, issues⟩ := first supply
  rw [outcome_bind]
  cases h : naming.outcome supply with
  | mk result middle =>
    rw [h] at issues
    cases result with
    | error e => exact ⟨names, issues⟩
    | ok a =>
      have ⟨others, later⟩ := second a middle
      exact ⟨names ++ others, issues.append later⟩

theorem OnlyIssues.map {naming : Naming α} (h : naming.OnlyIssues) (f : α → β) :
    OnlyIssues (f <$> naming) := by
  rw [← bind_pure_comp]
  exact h.bind fun a ↦ onlyIssues_pure (f a)

/-- A request draws one name or none. -/
theorem onlyIssues_fresh (neededFor : String) : OnlyIssues (fresh neededFor) := by
  intro supply
  cases h : supply.free with
  | nil =>
    rw [outcome, fresh_run_of_free_eq_nil h]
    exact ⟨[], .nil supply⟩
  | cons name others =>
    have request : (fresh neededFor).outcome supply = (.ok name, ⟨name :: supply.taken⟩) :=
      fresh_run_of_free_eq_cons h neededFor
    rw [request]
    exact ⟨[name], .cons request (.nil _)⟩

/-- Many requests at once are still requests one after another. -/
theorem onlyIssues_freshMany (neededFor : String) (count : Nat) :
    OnlyIssues (freshMany neededFor count) := by
  induction count with
  | zero => exact onlyIssues_pure []
  | succ count ih =>
    apply (onlyIssues_fresh neededFor).bind
    intro name
    apply ih.bind
    exact fun others ↦ onlyIssues_pure (name :: others)

/-! ## The transformations that need names -/

/-- The removal of left recursion draws its repeaters and touches the supply in no other way. -/
theorem onlyIssues_unwind (stop : RepetitionStop) (done rest : List Entry) :
    OnlyIssues (unwind stop done rest) := by
  induction rest generalizing done with
  | nil => exact onlyIssues_pure _
  | cons entry rest ih =>
    rw [unwind]
    split
    · exact ih _
    · apply (onlyIssues_fresh _).bind
      intro repeater
      apply (ih _).bind
      exact fun unwound ↦ onlyIssues_pure _

variable (g : Grammar) (policy : EmptyWordPolicy)

theorem onlyIssues_withoutLeftRecursion (stop : RepetitionStop) :
    OnlyIssues (g.withoutLeftRecursion stop) := by
  apply (onlyIssues_unwind stop [] g.entries).bind
  exact fun unwound ↦ onlyIssues_pure _

theorem onlyIssues_freshStart : OnlyIssues (g.freshStart policy) := by
  unfold Grammar.freshStart
  split
  · exact (onlyIssues_fresh _).map g.wrapStart
  · exact onlyIssues_pure g

theorem onlyIssues_isolateTerminals : OnlyIssues g.isolateTerminals := by
  rw [Grammar.isolateTerminals_eq]
  exact (onlyIssues_freshMany _ _).map g.isolatedBy

theorem onlyIssues_splitLongRules : OnlyIssues g.splitLongRules := by
  rw [Grammar.splitLongRules_eq]
  exact (onlyIssues_freshMany _ _).map g.splitBy

/-- Every stage only draws names, and so does the conversion. -/
theorem onlyIssues_toChomsky : OnlyIssues (g.toChomsky policy) := by
  apply (onlyIssues_freshStart g policy).bind
  intro started
  apply (onlyIssues_isolateTerminals _).bind
  intro isolated
  apply (onlyIssues_splitLongRules isolated).bind
  exact fun result ↦ onlyIssues_pure _

/-- Of the stages of this conversion, only the removal of left recursion draws names. -/
theorem onlyIssues_toGreibach : OnlyIssues g.toGreibach := by
  apply (onlyIssues_withoutLeftRecursion _ _).bind
  exact fun unwound ↦ onlyIssues_pure _

end Naming

end GrammarForms
