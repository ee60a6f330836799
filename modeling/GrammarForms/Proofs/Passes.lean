import GrammarForms.Proofs.Analyses

/-!
# Passes over the Candidates

The rounds of a least set look at every candidate with the same members.  A pass goes through the candidates
in order, and what it finds counts at once, for the candidates that follow.  Passes that are repeated until
one finds nothing come to the least set as well, from any members of it that are known beforehand, as long as
a larger set admits no fewer names.  What a pass adds belongs to the least set, and a pass that adds nothing
shows that nothing is missing.

So the nullable nonterminals, found in rounds or in passes, are those that derive the empty word, and a rule
derives it exactly if all its symbols are nullable nonterminals.
-/

namespace GrammarForms

variable {candidates rest members larger : List Char} {admits : List Char → Char → Bool} {name : Char}

/-! ## What is left to find -/

def outside (candidates members : List Char) : List Char :=
  candidates.filter (!members.contains ·)

theorem length_outside_lt (subset : members ⊆ larger) (hcandidate : name ∈ candidates)
    (hmembers : name ∉ members) (hlarger : name ∈ larger) :
    (outside candidates larger).length < (outside candidates members).length := by
  have hfilter : outside candidates larger = (outside candidates members).filter (!larger.contains ·) := by
    rw [outside, outside, List.filter_filter]
    apply List.filter_congr
    intro other _
    by_cases hother : other ∈ members
    · simp [hother, subset hother]
    · simp [hother]
  rw [hfilter, List.length_filter_lt_length_iff_exists]
  refine ⟨name, List.mem_filter.2 ⟨hcandidate, ?_⟩, ?_⟩
  · simpa using hmembers
  · simpa using hlarger

/-! ## One pass -/

def consider (admits : List Char → Char → Bool) (members : List Char) (name : Char) : List Char :=
  if admits members name then appendNew members name else members

def pass (candidates : List Char) (admits : List Char → Char → Bool) (members : List Char) : List Char :=
  candidates.foldl (consider admits) members

theorem pass_cons (admits : List Char → Char → Bool) (name : Char) (rest members : List Char) :
    pass (name :: rest) admits members = pass rest admits (consider admits members name) := rfl

theorem mem_consider {other : Char} :
    other ∈ consider admits members name ↔ other ∈ members ∨ admits members name = true ∧ other = name := by
  unfold consider
  split <;> simp_all

theorem consider_eq_self_or (admits : List Char → Char → Bool) (members : List Char) (name : Char) :
    consider admits members name = members ∨ name ∉ members ∧ name ∈ consider admits members name := by
  by_cases hadmits : admits members name = true
  · by_cases hname : name ∈ members
    · exact Or.inl (by simp [consider, appendNew, hadmits, hname])
    · exact Or.inr ⟨hname, mem_consider.2 (Or.inr ⟨hadmits, rfl⟩)⟩
  · exact Or.inl (by simp [consider, hadmits])

/-- A pass never takes a member out. -/
theorem subset_pass (candidates : List Char) (admits : List Char → Char → Bool) (members : List Char) :
    members ⊆ pass candidates admits members := by
  induction candidates generalizing members with
  | nil => exact List.Subset.refl _
  | cons name rest ih =>
    have hconsider : members ⊆ consider admits members name := fun _ h ↦ mem_consider.2 (Or.inl h)
    exact List.Subset.trans hconsider (ih _)

/-- A pass that changes anything finds a candidate that was not a member. -/
theorem exists_mem_pass_of_ne (h : pass candidates admits members ≠ members) :
    ∃ name ∈ candidates, name ∉ members ∧ name ∈ pass candidates admits members := by
  induction candidates with
  | nil => exact absurd rfl h
  | cons name rest ih =>
    rw [pass_cons] at h ⊢
    rcases consider_eq_self_or admits members name with hsame | ⟨hname, hmember⟩
    · rw [hsame] at h ⊢
      have ⟨found, hfound, hnew⟩ := ih h
      exact ⟨found, List.mem_cons_of_mem name hfound, hnew⟩
    · exact ⟨name, List.mem_cons_self, hname, subset_pass rest admits _ hmember⟩

/-- A larger set of members admits no fewer names. -/
def GrowsWithMembers (admits : List Char → Char → Bool) : Prop :=
  ∀ members larger name, members ⊆ larger → admits members name = true → admits larger name = true

/-- What the members admit before a pass is a member after it, since members that join on the way
only help. -/
theorem GrowsWithMembers.mem_pass (grows : GrowsWithMembers admits) (hname : name ∈ candidates)
    (hadmits : admits members name = true) : name ∈ pass candidates admits members := by
  induction candidates generalizing members with
  | nil => cases hname
  | cons first rest ih =>
    rw [pass_cons]
    rcases List.mem_cons.1 hname with rfl | hname
    · exact subset_pass rest admits _ (mem_consider.2 (Or.inr ⟨hadmits, rfl⟩))
    · exact ih hname (grows members _ name (fun _ h ↦ mem_consider.2 (Or.inl h)) hadmits)

/-- A pass that begins inside the least set ends inside it. -/
theorem GrowsWithMembers.pass_subset_leastSet (grows : GrowsWithMembers admits) (hrest : rest ⊆ candidates)
    (hmembers : members ⊆ leastSet candidates admits) :
    pass rest admits members ⊆ leastSet candidates admits := by
  induction rest generalizing members with
  | nil => exact hmembers
  | cons first rest ih =>
    rw [pass_cons]
    obtain ⟨hfirst, hrest⟩ := List.cons_subset.1 hrest
    refine ih hrest fun other hother ↦ ?_
    rcases mem_consider.1 hother with hother | ⟨hadmits, rfl⟩
    · exact hmembers hother
    · exact mem_leastSet_iff.2 ⟨hfirst, Or.inr (grows members _ other hmembers hadmits)⟩

/-! ## Passes until nothing is found -/

def passes (candidates : List Char) (admits : List Char → Char → Bool) (members : List Char) : List Char :=
  if pass candidates admits members = members then members
  else passes candidates admits (pass candidates admits members)
termination_by (outside candidates members).length
decreasing_by
  rename_i changed
  have ⟨name, hname, hmembers, hpass⟩ := exists_mem_pass_of_ne changed
  exact length_outside_lt (subset_pass _ _ _) hname hmembers hpass

/-- Passes repeated until nothing changes reach the least set. -/
theorem GrowsWithMembers.mem_passes_iff (grows : GrowsWithMembers admits)
    (hmembers : members ⊆ leastSet candidates admits) :
    name ∈ passes candidates admits members ↔ name ∈ leastSet candidates admits := by
  fun_induction passes candidates admits members with
  | case1 members unchanged =>
    refine ⟨fun h ↦ hmembers h, ?_⟩
    revert name
    apply leastSet_induction
    intro found name hfound hname hadmits
    rw [← unchanged]
    exact grows.mem_pass hname (grows found members name hfound hadmits)
  | case2 members changed ih =>
    exact ih (grows.pass_subset_leastSet (List.Subset.refl _) hmembers)

/-! ## Nullable nonterminals -/

theorem Rule.isNullable_mono {rule : Rule} (subset : members ⊆ larger)
    (h : Rule.isNullable members rule = true) : Rule.isNullable larger rule = true := by
  refine Rule.isNullable_iff.2 fun symbol hsymbol ↦ ?_
  have ⟨name, hname, hmember⟩ := Rule.isNullable_iff.1 h symbol hsymbol
  exact ⟨name, hname, subset hmember⟩

theorem any_mono {rules : List Rule} {one other : Rule → Bool} (h : ∀ rule, one rule = true → other rule = true)
    (hany : rules.any one = true) : rules.any other = true := by
  have ⟨rule, mem, hrule⟩ := List.any_eq_true.1 hany
  exact List.any_eq_true.2 ⟨rule, mem, h rule hrule⟩

namespace Grammar

variable {g : Grammar}

/-- The nullable nonterminals, found in passes that begin with those that have an empty rule. -/
def nullableByPasses (g : Grammar) : List Char :=
  passes g.names (fun members name ↦ (g.rules name).any (Rule.isNullable members))
    (g.names.filter fun name ↦ (g.rules name).contains [])

/-- The pass loop finds the nullable nonterminals of the least set. -/
theorem mem_nullableByPasses_iff : name ∈ g.nullableByPasses ↔ name ∈ g.nullable := by
  refine GrowsWithMembers.mem_passes_iff ?_ ?_
  · exact fun members larger name subset ↦ any_mono fun _ ↦ Rule.isNullable_mono subset
  · intro name h
    have hrule := List.contains_iff_mem.1 (List.mem_filter.1 h).2
    exact mem_nullable_of_rule hrule rfl

theorem isNullable_nullable_iff {rule : Rule} :
    Rule.isNullable g.nullable rule = true ↔ g.Derives rule [] := by
  rw [Rule.isNullable_iff]
  simp only [mem_nullable_iff]
  exact Rule.nil_mem_words.symm.trans mem_words_language

/-! ## Main result -/

/-- The nullable nonterminals are those that derive the empty word, whichever way they are found, and the rules
made of them are those that derive it. -/
theorem mem_nullable_and_isNullable_iff (g : Grammar) :
    (∀ name, name ∈ g.nullable ↔ g.Derives [.nonterminal name] []) ∧
    (∀ rule, Rule.isNullable g.nullable rule = true ↔ g.Derives rule []) ∧
    ∀ name, name ∈ g.nullableByPasses ↔ g.Derives [.nonterminal name] [] := by
  have hnullable (name : Char) : name ∈ g.nullable ↔ g.Derives [.nonterminal name] [] := mem_nullable_iff
  exact ⟨hnullable, fun rule ↦ isNullable_nullable_iff,
    fun name ↦ mem_nullableByPasses_iff.trans (hnullable name)⟩

end Grammar

end GrammarForms
