/-!
# Lists without Repetition

The alternatives of a nonterminal form a set that remembers the order in which its members were
first met.  `appendNew` adds one member at the end unless it is already there, and `distinct` adds
the members of a list one after another.  The result has the members of the list, each once.
-/

namespace GrammarForms

variable {α : Type} [DecidableEq α]

def appendNew (members : List α) (x : α) : List α :=
  if x ∈ members then members else members ++ [x]

/-- The first occurrence of each member, in order. -/
def distinct (members : List α) : List α :=
  members.foldl appendNew []

@[simp]
theorem mem_appendNew {members : List α} {x y : α} :
    y ∈ appendNew members x ↔ y ∈ members ∨ y = x := by
  unfold appendNew
  split
  · rename_i h
    exact ⟨Or.inl, fun hy ↦ hy.elim id (fun e ↦ e ▸ h)⟩
  · simp

theorem nodup_appendNew {members : List α} (h : members.Nodup) (x : α) :
    (appendNew members x).Nodup := by
  unfold appendNew
  split
  · exact h
  · rename_i hx
    refine List.nodup_append.2 ⟨h, by simp, ?_⟩
    intro a ha b hb hab
    simp only [List.mem_singleton] at hb
    exact hx (hb ▸ hab ▸ ha)

theorem mem_foldl_appendNew {members extra : List α} {y : α} :
    y ∈ extra.foldl appendNew members ↔ y ∈ members ∨ y ∈ extra := by
  induction extra generalizing members with
  | nil => simp
  | cons x rest ih => simp [ih, or_assoc]

theorem nodup_foldl_appendNew {members extra : List α} (h : members.Nodup) :
    (extra.foldl appendNew members).Nodup := by
  induction extra generalizing members with
  | nil => exact h
  | cons x rest ih => exact ih (nodup_appendNew h x)

/-- Where no member repeats, adding members one after another is plain concatenation. -/
theorem foldl_appendNew_eq_append {members extra : List α} (h : (members ++ extra).Nodup) :
    extra.foldl appendNew members = members ++ extra := by
  induction extra generalizing members with
  | nil => simp
  | cons x rest ih =>
    have hx : x ∉ members := fun hm ↦
      (List.nodup_append.1 h).2.2 x hm x List.mem_cons_self rfl
    have hrest : (members ++ [x] ++ rest).Nodup := by simpa using h
    simpa [appendNew, hx] using ih hrest

@[simp]
theorem mem_distinct {members : List α} {y : α} : y ∈ distinct members ↔ y ∈ members := by
  simp [distinct, mem_foldl_appendNew]

theorem nodup_distinct (members : List α) : (distinct members).Nodup :=
  nodup_foldl_appendNew List.nodup_nil

/-- A list without repetition is its own `distinct`. -/
theorem distinct_eq_self {members : List α} (h : members.Nodup) : distinct members = members :=
  foldl_appendNew_eq_append (by simpa using h)

end GrammarForms
