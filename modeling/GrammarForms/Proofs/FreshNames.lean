import GrammarForms.IndexedGrammar
import GrammarForms.Proofs.InOrder
import GrammarForms.Proofs.Naming
import Mathlib.Data.Char
import Mathlib.Data.List.Nodup

/-!
# Requests for Fresh Names

A supply that is asked again and again gives out its free letters in their order, until none is left.  From
then on every request fails and leaves the supply as it is.

A supply for a grammar has the names taken that have an entry.  A nonterminal that rules mention while it has
no entry is free, so it is given out like any other letter when its turn comes.  The names that are given out
occur in no rule exactly if every such nonterminal has its turn after the last request; in a closed grammar
there is none.
-/

namespace GrammarForms

namespace NameSupply

variable {supply rest : NameSupply} {purposes : List String} {neededFor : String} {name : Char}

/-! ## Free letters -/

/-- The free letters come in alphabetical order. -/
theorem pairwise_free (supply : NameSupply) : supply.free.Pairwise (· < ·) := by
  have hletters : letters.Pairwise (· < ·) := by decide
  exact hletters.sublist List.filter_sublist

/-- Taking the first free letter leaves the rest of them. -/
theorem free_of_free_eq_cons {others : List Char} (h : supply.free = name :: others) :
    (⟨name :: supply.taken⟩ : NameSupply).free = others := by
  have hnodup : (name :: others).Nodup := by
    rw [← h]
    exact List.Nodup.filter _ (by decide)
  have hfree : (⟨name :: supply.taken⟩ : NameSupply).free = supply.free.filter (· != name) := by
    rw [free, free, List.filter_filter]
    apply List.filter_congr
    intro letter _
    simp [bne, Bool.beq_eq_decide_eq]
  have hothers : others.filter (· != name) = others := by
    rw [List.filter_eq_self]
    intro other hother
    exact bne_iff_ne.2 (ne_of_mem_of_not_mem hother (List.nodup_cons.1 hnodup).1)
  rw [hfree, h, List.filter_cons_of_neg (by simp), hothers]

theorem remaining_eq_zero_iff : supply.remaining = 0 ↔ supply.free = [] :=
  List.length_eq_zero_iff

theorem remaining_add_one (h : supply.free = name :: rest.free) :
    rest.remaining + 1 = supply.remaining := by
  rw [remaining, remaining, h, List.length_cons]

/-! ## One request -/

/-- A request takes the first free letter, or fails and changes nothing if there is none. -/
theorem outcome_fresh_cases (neededFor : String) (supply : NameSupply) :
    supply.free = [] ∧ (fresh neededFor).outcome supply = (.error (.outOfNames neededFor), supply) ∨
      ∃ name rest, (fresh neededFor).outcome supply = (.ok name, rest) ∧
        supply.free = name :: rest.free := by
  cases hfree : supply.free with
  | nil => exact Or.inl ⟨rfl, fresh_run_of_free_eq_nil hfree neededFor⟩
  | cons name others =>
    refine Or.inr ⟨name, _, fresh_run_of_free_eq_cons hfree neededFor, ?_⟩
    rw [free_of_free_eq_cons hfree]

/-- As long as a letter is left, a request succeeds and uses up one. -/
theorem exists_outcome_fresh (h : supply.remaining ≠ 0) (neededFor : String) :
    ∃ name rest, (fresh neededFor).outcome supply = (.ok name, rest) ∧
      rest.remaining + 1 = supply.remaining := by
  rcases outcome_fresh_cases neededFor supply with ⟨hfree, _⟩ | ⟨name, rest, houtcome, hfree⟩
  · exact absurd (remaining_eq_zero_iff.2 hfree) h
  · exact ⟨name, rest, houtcome, remaining_add_one hfree⟩

/-! ## Many requests -/

/-- The answers to requests made one after another, whatever becomes of each, and the supply that is left. -/
def requests (supply : NameSupply) (purposes : List String) :
    List (Except GrammarError Char) × NameSupply :=
  (purposes.mapM fun purpose ↦ (fresh purpose).run).run supply

@[simp]
theorem requests_nil (supply : NameSupply) : supply.requests [] = ([], supply) := rfl

theorem requests_cons {answer : Except GrammarError Char} {middle : NameSupply}
    (h : (fresh neededFor).outcome supply = (answer, middle)) :
    supply.requests (neededFor :: purposes) =
      (answer :: (middle.requests purposes).1, (middle.requests purposes).2) := by
  rw [Naming.outcome] at h
  rw [requests, List.mapM_cons, StateT.run_bind, h]
  rfl

/-- Once the letters are used up, every request fails and changes nothing. -/
theorem requests_of_free_eq_nil (h : supply.free = []) (purposes : List String) :
    supply.requests purposes =
      (purposes.map fun purpose ↦ .error (.outOfNames purpose), supply) := by
  induction purposes with
  | nil => rfl
  | cons purpose later ih =>
    rw [requests_cons (fresh_run_of_free_eq_nil h purpose), ih]
    rfl

/-- The free letters are given out in order, and the requests that come after them fail. -/
theorem exists_requests_eq (supply : NameSupply) (purposes : List String) :
    ∃ rest, supply.requests purposes =
        ((supply.free.take purposes.length).map .ok ++
          (purposes.drop supply.free.length).map fun purpose ↦ .error (.outOfNames purpose), rest) ∧
      rest.free = supply.free.drop purposes.length := by
  induction purposes generalizing supply with
  | nil => exact ⟨supply, by simp, rfl⟩
  | cons purpose later ih =>
    rcases outcome_fresh_cases purpose supply with ⟨hfree, _⟩ | ⟨name, middle, houtcome, hfree⟩
    · rw [requests_of_free_eq_nil hfree, hfree]
      exact ⟨supply, rfl, hfree⟩
    · have ⟨rest, hrequests, hrest⟩ := ih middle
      rw [requests_cons houtcome, hrequests, hfree]
      exact ⟨rest, rfl, hrest⟩

/-! ## Main result -/

/-- Requests to a supply for a grammar are given letters without an entry, in ascending order and each at the
cost of one, and they fail once none is left.  No rule mentions a letter that was given out exactly if every
free letter that rules do mention has its turn after the last request. -/
theorem requests_avoiding (g : Grammar) (purposes : List String) :
    ∃ (issued : List Char) (rest : NameSupply),
      (avoiding g).requests purposes =
        (issued.map .ok ++
          (purposes.drop issued.length).map fun purpose ↦ .error (.outOfNames purpose), rest) ∧
      issued.Pairwise (· < ·) ∧
      (∀ name ∈ issued, ('A' ≤ name ∧ name ≤ 'Z') ∧ name ∉ g.names) ∧
      rest.remaining + issued.length = (avoiding g).remaining ∧
      (rest.remaining ≠ 0 → ∀ purpose, ∃ name next, (fresh purpose).outcome rest = (.ok name, next) ∧
        next.remaining + 1 = rest.remaining) ∧
      (rest.remaining = 0 → ∀ later, rest.requests later =
        (later.map fun purpose ↦ .error (.outOfNames purpose), rest)) ∧
      ((∀ name ∈ issued, ¬g.Uses (.nonterminal name)) ↔
        ∀ name ∈ (avoiding g).free, g.Uses (.nonterminal name) →
          purposes.length ≤ (avoiding g).free.idxOf name) := by
  have ⟨rest, hrequests, hrest⟩ := exists_requests_eq (avoiding g) purposes
  refine ⟨(avoiding g).free.take purposes.length, rest, ?_, ?_, fun name hname ↦ ?_, ?_,
    exists_outcome_fresh, fun hnone ↦ ?_, ?_⟩
  · rw [hrequests, List.length_take]
    rcases Nat.le_total purposes.length (avoiding g).free.length with hle | hle
    · rw [Nat.min_eq_left hle, List.drop_length, List.drop_eq_nil_of_le hle]
    · rw [Nat.min_eq_right hle]
  · exact (pairwise_free _).sublist (List.take_sublist _ _)
  · have ⟨hletter, htaken⟩ := mem_free.1 (List.mem_of_mem_take hname)
    exact ⟨of_decide_eq_true (isUpper_of_mem_letters name hletter), htaken⟩
  · rw [remaining, hrest, List.length_drop, List.length_take, remaining]
    omega
  · exact requests_of_free_eq_nil (remaining_eq_zero_iff.1 hnone)
  · constructor
    · intro hunused name hfree huses
      by_contra hlt
      exact hunused name ((List.mem_take_iff_idxOf_lt hfree).2 (by omega)) huses
    · intro hlater name hname huses
      have hfree := List.mem_of_mem_take hname
      have hlt := (List.mem_take_iff_idxOf_lt hfree).1 hname
      have hle := hlater name hfree huses
      omega

/-- A rule with a nonterminal that has no entry. -/
def dangling : Grammar :=
  ⟨[⟨'S', [[.nonterminal 'A']]⟩], 'S'⟩

/-- Such a grammar can be built, and the first request is given the nonterminal in the rule. -/
theorem requests_avoiding_dangling :
    ((IndexedGrammar.ofStart 'S').after [.addRule 'S' [.nonterminal 'A']]).listed = dangling ∧
      ((avoiding dangling).requests ["a new nonterminal"]).1 = [.ok 'A'] ∧
      dangling.Uses (.nonterminal 'A') := by
  refine ⟨by decide, by decide, ⟨'S', [.nonterminal 'A']⟩, by decide, by decide⟩

end NameSupply

end GrammarForms
