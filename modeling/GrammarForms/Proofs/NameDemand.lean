import GrammarForms.Proofs.FreshNames
import GrammarForms.Proofs.Plumbing

/-!
# The Demand for Names

A computation that asks for names gets them if so many are free; otherwise it uses up the supply and fails.
A conversion to Chomsky normal form asks three times: for a new start symbol where there has to be one, for
a stand-in for each terminal of the longer rules, and for a link for each symbol beyond the second of a
rule.  It succeeds exactly if all of these names are free.

The conversion does not count beforehand.  It walks over the rules and asks for a name where it meets a terminal
without a stand-in or a rule that is still too long; `Grammar.isolateTerminals_eq` and
`Grammar.splitLongRules_eq` say that these walks ask as often as the counts of the grammar say.  The stand-ins
change neither the number nor the lengths of the rules, so the whole demand can be read off the grammar that
the eliminations leave.
-/

namespace GrammarForms

/-! ## Asking for names -/

namespace NameSupply

variable {supply : NameSupply} {neededFor : String} {count more : Nat} {α β : Type}

/-- How it ends to ask for so many names. -/
inductive Serves (supply : NameSupply) (neededFor : String) (count : Nat) :
    Except GrammarError α × NameSupply → Prop where
  | granted (result : α) {rest : NameSupply} (h : rest.remaining + count = supply.remaining) :
      Serves supply neededFor count (.ok result, rest)
  | refused {rest : NameSupply} (short : supply.remaining < count) (used : rest.remaining = 0) :
      Serves supply neededFor count (.error (.outOfNames neededFor), rest)

/-- Nothing is asked for, so nothing can be refused. -/
theorem serves_pure (result : α) :
    supply.Serves neededFor 0 (Naming.outcome (pure result) supply) :=
  .granted result rfl

/-- Requests for the same purpose add up, and the first one refused decides for both. -/
theorem Serves.bind {naming : Naming α} {next : α → Naming β}
    (first : supply.Serves neededFor count (naming.outcome supply))
    (second : ∀ result middle, naming.outcome supply = (.ok result, middle) →
      middle.Serves neededFor more ((next result).outcome middle)) :
    supply.Serves neededFor (count + more) ((naming >>= next).outcome supply) := by
  rw [Naming.outcome_bind]
  generalize hrun : naming.outcome supply = run at first second
  cases first with
  | refused short used => exact .refused (by omega) used
  | @granted result middle h =>
    have hsecond := second result middle rfl
    generalize hrun' : (next result).outcome middle = run' at hsecond
    change supply.Serves neededFor (count + more) ((next result).outcome middle)
    rw [hrun']
    cases hsecond with
    | granted result' h' => exact .granted result' (by omega)
    | refused short used => exact .refused (by omega) used

/-- A single request is a demand of one name. -/
theorem serves_fresh (neededFor : String) (supply : NameSupply) :
    supply.Serves neededFor 1 ((fresh neededFor).outcome supply) := by
  rcases outcome_fresh_cases neededFor supply with ⟨hfree, houtcome⟩ | ⟨name, rest, houtcome, hfree⟩
  · have hremaining := remaining_eq_zero_iff.2 hfree
    rw [houtcome]
    exact .refused (by omega) hremaining
  · rw [houtcome]
    exact .granted name (remaining_add_one hfree)

/-- As many names are used up as are asked for, or all of them. -/
theorem serves_freshMany (neededFor : String) (count : Nat) (supply : NameSupply) :
    supply.Serves neededFor count ((freshMany neededFor count).outcome supply) := by
  induction count generalizing supply with
  | zero => exact serves_pure []
  | succ count ih =>
    rw [freshMany, Nat.add_comm]
    exact (serves_fresh neededFor supply).bind fun _ middle _ ↦
      (ih middle).bind fun _ _ _ ↦ serves_pure _

end NameSupply

namespace Grammar

variable {g : Grammar} {policy : EmptyWordPolicy} {supply rest : NameSupply}

/-! ## The demand of each step -/

/-- A new start symbol takes one name, and only where there has to be one. -/
theorem serves_freshStart (g : Grammar) (policy : EmptyWordPolicy) (supply : NameSupply) :
    supply.Serves "the new start symbol" (if g.needsFreshStart policy then 1 else 0)
      ((g.freshStart policy).outcome supply) := by
  rw [freshStart]
  split
  · rw [← bind_pure_comp]
    exact (NameSupply.serves_fresh _ supply).bind fun _ _ _ ↦ NameSupply.serves_pure _
  · exact NameSupply.serves_pure g

/-- The misplaced terminals are counted once each, however often they occur. -/
theorem ncard_buriedTerminals (g : Grammar) : g.buriedTerminals.ncard = g.misplacedTerminals.length := by
  have hset : g.buriedTerminals = g.misplacedTerminals.toFinset := by
    ext c
    rw [Finset.mem_coe, List.mem_toFinset, mem_misplacedTerminals_iff]
  rw [hset, Set.ncard_coe_finset]
  exact List.toFinset_card_of_nodup (nodup_distinct _)

/-- The walk over the rules draws a name at the first occurrence of each buried terminal and at no
other, so it asks for as many names as there are such terminals. -/
theorem serves_isolateTerminals (g : Grammar) (supply : NameSupply) :
    supply.Serves "a terminal substitution" g.buriedTerminals.ncard
      (g.isolateTerminals.outcome supply) := by
  rw [ncard_buriedTerminals, isolateTerminals_eq, ← bind_pure_comp]
  exact (NameSupply.serves_freshMany _ _ supply).bind fun _ _ _ ↦ NameSupply.serves_pure _

/-- The walk over the rules draws a name for each symbol of a rule beyond the second. -/
theorem serves_splitLongRules (g : Grammar) (supply : NameSupply) :
    supply.Serves "binarization" (g.productions.map fun p ↦ p.right.length - 2).sum
      (g.splitLongRules.outcome supply) := by
  rw [← excess_eq_sum, splitLongRules_eq, ← bind_pure_comp]
  exact (NameSupply.serves_freshMany _ _ supply).bind fun _ _ _ ↦ NameSupply.serves_pure _

/-- Every rule keeps its length, and the rules of the stand-ins are short. -/
theorem sum_excess_isolatedBy (wf : g.WellFormed) (covers : supply.Covers g) {standIns : List Char}
    (drawn : supply.Drawn standIns rest) (hlength : standIns.length = g.misplacedTerminals.length) :
    ((g.isolatedBy standIns).productions.map fun p ↦ p.right.length - 2).sum =
      (g.productions.map fun p ↦ p.right.length - 2).sum := by
  have hperm := (supplemented_isolatedBy wf.names_nodup covers drawn hlength).productions_rebuild_perm wf
  rw [← isolatedBy_eq_rebuild] at hperm
  have hstandIns : ((g.standInRules standIns).map fun p ↦ p.right.length - 2).sum = 0 := by
    rw [List.sum_eq_zero_iff_forall_eq_nat]
    intro excess hexcess
    rw [standInRules, List.map_map] at hexcess
    obtain ⟨_, _, h⟩ := List.mem_map.1 hexcess
    exact h.symm
  rw [(hperm.map _).sum_eq, List.map_append, List.sum_append, hstandIns, Nat.add_zero, List.map_map]
  congr 1
  apply List.map_congr_left
  intro p _
  simp only [Function.comp_apply, Rule.length_replaceTerminals]

/-! ## The demand of the conversion -/

end Grammar

/-- How many fresh names the steps of a conversion ask for. -/
structure NameDemand where
  start : Nat
  standIns : Nat
  links : Nat

namespace NameDemand

def total (demand : NameDemand) : Nat :=
  demand.start + demand.standIns + demand.links

/-- What the first missing name is needed for. -/
def shortage (demand : NameDemand) (remaining : Nat) : String :=
  if remaining < demand.start then "the new start symbol"
  else if remaining < demand.start + demand.standIns then "a terminal substitution"
  else "binarization"

/-- A computation ends well if the supply meets the demand, and not otherwise. -/
inductive Decides (demand : NameDemand) (supply : NameSupply) {α : Type} :
    Except GrammarError α × NameSupply → Prop where
  | met (result : α) {rest : NameSupply} (h : rest.remaining + demand.total = supply.remaining) :
      Decides demand supply (.ok result, rest)
  | missed {rest : NameSupply} (short : supply.remaining < demand.total) (used : rest.remaining = 0) :
      Decides demand supply (.error (.outOfNames (demand.shortage supply.remaining)), rest)

/-- Three computations in a row end with the first of them that asks for too many names. -/
theorem decides_of_serves {demand : NameDemand} {supply : NameSupply} {α β γ : Type} {first : Naming α}
    {second : α → Naming β} {third : α → β → Naming γ}
    (hfirst : supply.Serves "the new start symbol" demand.start (first.outcome supply))
    (hsecond : ∀ a middle, first.outcome supply = (.ok a, middle) →
      middle.Serves "a terminal substitution" demand.standIns ((second a).outcome middle))
    (hthird : ∀ a middle b later, first.outcome supply = (.ok a, middle) →
      (second a).outcome middle = (.ok b, later) →
      later.Serves "binarization" demand.links ((third a b).outcome later)) :
    demand.Decides supply
      (Naming.outcome (first >>= fun a ↦ second a >>= fun b ↦ third a b) supply) := by
  rw [Naming.outcome_bind]
  generalize hrun : first.outcome supply = run at hfirst
  cases hfirst with
  | refused short used =>
    have hshortage : demand.shortage supply.remaining = "the new start symbol" := if_pos short
    rw [← hshortage]
    exact .missed (by rw [total]; omega) used
  | @granted a middle hmiddle =>
    have hsecond := hsecond a middle hrun
    change demand.Decides supply (Naming.outcome (second a >>= fun b ↦ third a b) middle)
    rw [Naming.outcome_bind]
    generalize hrun' : (second a).outcome middle = run' at hsecond
    cases hsecond with
    | refused short used =>
      have hshortage : demand.shortage supply.remaining = "a terminal substitution" := by
        rw [shortage, if_neg (by omega), if_pos (by omega)]
      rw [← hshortage]
      exact .missed (by rw [total]; omega) used
    | @granted b later hlater =>
      have hthird := hthird a middle b later hrun hrun'
      change demand.Decides supply ((third a b).outcome later)
      generalize (third a b).outcome later = run'' at hthird
      cases hthird with
      | refused short used =>
        have hshortage : demand.shortage supply.remaining = "binarization" := by
          rw [shortage, if_neg (by omega), if_neg (by omega)]
        rw [← hshortage]
        exact .missed (by rw [total]; omega) used
      | granted result h => exact .met result (by rw [total]; omega)

end NameDemand

namespace Grammar

variable {g : Grammar} {policy : EmptyWordPolicy} {supply rest : NameSupply}

/-- One new start symbol where there has to be one; for the grammar that the eliminations leave, a stand-in
for each terminal of the longer rules and a link for each symbol beyond the second of a rule. -/
noncomputable def chomskyDemand (g : Grammar) (policy : EmptyWordPolicy) (supply : NameSupply) :
    NameDemand where
  start := if g.needsFreshStart policy then 1 else 0
  standIns := ((g.startedWith policy supply).cleaned policy).buriedTerminals.ncard
  links :=
    (((g.startedWith policy supply).cleaned policy).productions.map fun p ↦ p.right.length - 2).sum

/-- The stages are served one after another, and the first that is refused ends the conversion. -/
theorem decides_toChomsky (nodup : g.names.Nodup) (covers : supply.Covers g) :
    (g.chomskyDemand policy supply).Decides supply ((g.toChomsky policy).outcome supply) := by
  apply NameDemand.decides_of_serves (serves_freshStart g policy supply)
  · intro started before hstart
    rw [eq_startedWith_of_freshStart hstart]
    exact serves_isolateTerminals _ before
  · intro started before isolated between hstart hisolate
    have ⟨isStarted, hcovers⟩ := started_of_freshStart nodup covers hstart
    have ⟨standIns, hlength, drawn, hisolated⟩ := exists_standIns hisolate
    -- The demand was read off before the stand-ins came in, so they must not change it.
    have hlinks := sum_excess_isolatedBy (wellFormed_cleaned started policy)
      (covers_cleaned isStarted.nodup hcovers policy) drawn hlength
    have hdemand : (g.chomskyDemand policy supply).links =
        (isolated.productions.map fun p ↦ p.right.length - 2).sum := by
      rw [hisolated, hlinks, eq_startedWith_of_freshStart hstart]
      rfl
    rw [hdemand]
    exact (serves_splitLongRules isolated between).bind fun _ _ _ ↦ NameSupply.serves_pure _

/-! ## Main result -/

/-- The conversion succeeds exactly if the supply has a name for the new start symbol, for each
buried terminal and for each link.  It then uses up exactly these names; otherwise the purpose in
the error is that of the first stage whose names do not suffice, and no name is left. -/
theorem outcome_toChomsky_of_demand (wf : g.WellFormed) (closed : g.Closed)
    (taken : g.names ⊆ supply.taken) :
    ((∃ n, ((g.toChomsky policy).outcome supply).1 = .ok n) ↔
      (g.chomskyDemand policy supply).total ≤ supply.remaining) ∧
    ((g.chomskyDemand policy supply).total ≤ supply.remaining →
      ((g.toChomsky policy).outcome supply).2.remaining + (g.chomskyDemand policy supply).total =
        supply.remaining) ∧
    (supply.remaining < (g.chomskyDemand policy supply).total →
      ((g.toChomsky policy).outcome supply).2.remaining = 0 ∧
      ((g.toChomsky policy).outcome supply).1 =
        .error (.outOfNames ((g.chomskyDemand policy supply).shortage supply.remaining))) := by
  have covers := NameSupply.covers_of_closed wf.names_nodup closed taken
  have hdecides : (g.chomskyDemand policy supply).Decides supply _ :=
    decides_toChomsky wf.names_nodup covers
  generalize (g.toChomsky policy).outcome supply = run at hdecides
  cases hdecides with
  | met n h =>
    have henough : (g.chomskyDemand policy supply).total ≤ supply.remaining := by omega
    exact ⟨⟨fun _ ↦ henough, fun _ ↦ ⟨n, rfl⟩⟩, fun _ ↦ h, fun short ↦ absurd short (Nat.not_lt.2 henough)⟩
  | missed short used =>
    refine ⟨⟨?_, ?_⟩, fun henough ↦ absurd short (Nat.not_lt.2 henough), fun _ ↦ ⟨used, rfl⟩⟩
    · rintro ⟨n, hn⟩
      cases hn
    · exact fun henough ↦ absurd short (Nat.not_lt.2 henough)

/-- Three names are left, for the new start symbol and the two terminals but not for the links. -/
def threeLeft : NameSupply :=
  ⟨NameSupply.letters.drop 3⟩

/-- The nested pairs need a start symbol, two stand-ins and two links. -/
theorem chomskyDemand_nested : nested.chomskyDemand .keepAtStart threeLeft = ⟨1, 2, 2⟩ := by
  have hstandIns : ((nested.startedWith .keepAtStart threeLeft).cleaned
      .keepAtStart).buriedTerminals.ncard = 2 := by
    rw [ncard_buriedTerminals]
    cbv
  rw [chomskyDemand, hstandIns]
  cbv

/-- With three names left the conversion gets its start symbol and its stand-ins, and fails at the
first link. -/
theorem outcome_toChomsky_of_demand_nested :
    nested.names ⊆ threeLeft.taken ∧ threeLeft.remaining = 3 ∧
      ((nested.toChomsky .keepAtStart).outcome threeLeft).2.remaining = 0 ∧
      ((nested.toChomsky .keepAtStart).outcome threeLeft).1 = .error (.outOfNames "binarization") := by
  have taken : nested.names ⊆ threeLeft.taken := by decide
  have hremaining : threeLeft.remaining = 3 := by decide
  have ⟨_, _, hshort⟩ := @outcome_toChomsky_of_demand nested .keepAtStart threeLeft wellFormed_nested
    closed_nested taken
  rw [chomskyDemand_nested, hremaining] at hshort
  have ⟨hused, hfails⟩ := hshort (by decide)
  exact ⟨taken, hremaining, hused, hfails⟩

end Grammar

end GrammarForms
