/-!
# Least Sets

Several properties of nonterminals are defined from below: a nonterminal has the property if the
nonterminals already known to have it admit it.  `leastSet` finds the least set with this closure
among finitely many candidates.  Every round but the last adds a candidate, so as many rounds as
there are candidates suffice.
-/

namespace GrammarForms

/-- The candidates that are members or that the members admit. -/
def growSet (candidates : List Char) (admits : List Char → Char → Bool) (members : List Char) :
    List Char :=
  candidates.filter fun name ↦ members.contains name || admits members name

def growRounds (candidates : List Char) (admits : List Char → Char → Bool) : Nat → List Char
  | 0 => []
  | rounds + 1 => growSet candidates admits (growRounds candidates admits rounds)

def leastSet (candidates : List Char) (admits : List Char → Char → Bool) : List Char :=
  growRounds candidates admits candidates.length

variable {candidates : List Char} {admits : List Char → Char → Bool}

theorem mem_growSet {members : List Char} {name : Char} :
    name ∈ growSet candidates admits members ↔
      name ∈ candidates ∧ (name ∈ members ∨ admits members name = true) := by
  simp [growSet]

theorem growRounds_subset_candidates (rounds : Nat) :
    growRounds candidates admits rounds ⊆ candidates := by
  cases rounds with
  | zero => simp [growRounds]
  | succ rounds => exact fun name h ↦ (mem_growSet.1 h).1

theorem leastSet_subset_candidates : leastSet candidates admits ⊆ candidates :=
  growRounds_subset_candidates _

/-- What every admission preserves holds of every member after any number of rounds. -/
theorem growRounds_induction {P : Char → Prop}
    (step : ∀ members name, (∀ member ∈ members, P member) → name ∈ candidates →
      admits members name = true → P name) (rounds : Nat) :
    ∀ name ∈ growRounds candidates admits rounds, P name := by
  induction rounds with
  | zero => simp [growRounds]
  | succ rounds ih =>
    intro name h
    obtain ⟨hc, hm | ha⟩ := mem_growSet.1 h
    · exact ih name hm
    · exact step _ name ih hc ha

/-- Members have every property that passes from the members of a set to the names it admits. -/
theorem leastSet_induction {P : Char → Prop}
    (step : ∀ members name, (∀ member ∈ members, P member) → name ∈ candidates →
      admits members name = true → P name) :
    ∀ name ∈ leastSet candidates admits, P name :=
  growRounds_induction step _

/-- Rounds keep the order of the candidates: each one is a filter of that list. -/
theorem growRounds_eq_filter (rounds : Nat) :
    growRounds candidates admits rounds =
      candidates.filter fun name ↦ (growRounds candidates admits rounds).contains name := by
  cases rounds with
  | zero => simp [growRounds]
  | succ rounds =>
    conv => lhs; rw [growRounds, growSet]
    apply List.filter_congr
    intro name hname
    rw [Bool.eq_iff_iff]
    simp [growRounds, mem_growSet, hname]

theorem growRounds_sublist_succ (rounds : Nat) :
    (growRounds candidates admits rounds).Sublist (growRounds candidates admits (rounds + 1)) := by
  have h : growRounds candidates admits rounds =
      (growRounds candidates admits (rounds + 1)).filter
        fun name ↦ (growRounds candidates admits rounds).contains name := by
    conv => lhs; rw [growRounds_eq_filter]
    conv => rhs; rw [growRounds, growSet, List.filter_filter]
    apply List.filter_congr
    intro name _
    cases (growRounds candidates admits rounds).contains name <;> simp
  rw [h]
  exact List.filter_sublist

/-- Either the rounds have come to rest or each has added a candidate. -/
theorem growRounds_stable_or_length (rounds : Nat) :
    growRounds candidates admits (rounds + 1) = growRounds candidates admits rounds ∨
      rounds < (growRounds candidates admits (rounds + 1)).length := by
  induction rounds with
  | zero =>
    by_cases h : growRounds candidates admits 1 = []
    · exact Or.inl h
    · exact Or.inr (List.length_pos_iff.2 h)
  | succ rounds ih =>
    rcases ih with ih | ih
    · left
      conv => lhs; rw [growRounds, ih, ← growRounds]
    · have hsub := @growRounds_sublist_succ candidates admits (rounds + 1)
      by_cases h : (growRounds candidates admits (rounds + 1)).length =
          (growRounds candidates admits (rounds + 1 + 1)).length
      · exact Or.inl (hsub.eq_of_length h).symm
      · have hle := hsub.length_le
        right
        omega

/-- The least set is closed: it admits no further candidate. -/
theorem growSet_leastSet :
    growSet candidates admits (leastSet candidates admits) = leastSet candidates admits := by
  rcases @growRounds_stable_or_length candidates admits
      candidates.length with h | h
  · exact h
  · have hle : (growRounds candidates admits (candidates.length + 1)).length ≤
        candidates.length := List.length_filter_le _ _
    omega

/-- The least set is a fixed point of one round, read member by member. -/
theorem mem_leastSet_iff {name : Char} :
    name ∈ leastSet candidates admits ↔ name ∈ candidates ∧
      (name ∈ leastSet candidates admits ∨ admits (leastSet candidates admits) name = true) := by
  conv => lhs; rw [← growSet_leastSet]
  exact mem_growSet

end GrammarForms
