/-!
# Sorted Lists

A list is sorted by insertion, by an order given as a test that may hold of equal elements.  For a
total, transitive and antisymmetric order the sorted list depends on the members alone.
-/

namespace GrammarForms

variable {α : Type} {before : α → α → Bool}

def insertBy (before : α → α → Bool) (x : α) : List α → List α
  | [] => [x]
  | y :: rest => if before x y then x :: y :: rest else y :: insertBy before x rest

def sortBy (before : α → α → Bool) : List α → List α
  | [] => []
  | x :: rest => insertBy before x (sortBy before rest)

theorem insertBy_perm (x : α) (members : List α) :
    (insertBy before x members).Perm (x :: members) := by
  induction members with
  | nil => exact List.Perm.refl _
  | cons y rest ih =>
    unfold insertBy
    split
    · exact List.Perm.refl _
    · exact (ih.cons y).trans (List.Perm.swap x y rest)

theorem sortBy_perm (members : List α) : (sortBy before members).Perm members := by
  induction members with
  | nil => exact List.Perm.refl _
  | cons x rest ih => exact (insertBy_perm x _).trans (ih.cons x)

theorem pairwise_insertBy (total : ∀ x y, before x y = true ∨ before y x = true)
    (trans : ∀ x y z, before x y = true → before y z = true → before x z = true)
    (x : α) {members : List α} (h : members.Pairwise (before · · = true)) :
    (insertBy before x members).Pairwise (before · · = true) := by
  induction members with
  | nil => simp [insertBy]
  | cons y rest ih =>
    obtain ⟨hy, hrest⟩ := List.pairwise_cons.1 h
    unfold insertBy
    split
    · rename_i hxy
      refine List.pairwise_cons.2 ⟨fun z hz ↦ ?_, h⟩
      rcases List.mem_cons.1 hz with rfl | hz
      · exact hxy
      · exact trans x y z hxy (hy z hz)
    · rename_i hxy
      refine List.pairwise_cons.2 ⟨fun z hz ↦ ?_, ih hrest⟩
      rcases List.mem_cons.1 ((insertBy_perm x rest).mem_iff.1 hz) with rfl | hz
      · exact (total y z).resolve_right hxy
      · exact hy z hz

/-- Sorting by a total transitive order puts every pair in that order. -/
theorem pairwise_sortBy (total : ∀ x y, before x y = true ∨ before y x = true)
    (trans : ∀ x y z, before x y = true → before y z = true → before x z = true)
    (members : List α) : (sortBy before members).Pairwise (before · · = true) := by
  induction members with
  | nil => exact List.Pairwise.nil
  | cons x rest ih => exact pairwise_insertBy total trans x ih

/-- The sorted list depends only on which members there are. -/
theorem sortBy_eq_of_perm (total : ∀ x y, before x y = true ∨ before y x = true)
    (trans : ∀ x y z, before x y = true → before y z = true → before x z = true)
    (antisymm : ∀ x y, before x y = true → before y x = true → x = y)
    {members others : List α} (h : members.Perm others) :
    sortBy before members = sortBy before others := by
  refine List.Perm.eq_of_pairwise (fun x y _ _ hxy hyx ↦ antisymm x y hxy hyx)
    (pairwise_sortBy total trans members) (pairwise_sortBy total trans others) ?_
  exact (sortBy_perm members).trans (h.trans (sortBy_perm others).symm)

end GrammarForms
