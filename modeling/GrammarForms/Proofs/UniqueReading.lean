import Mathlib.Data.List.Basic

/-!
# Texts That Can Be Read in One Way

A code is prefix-free if what was encoded is recognised at the front of every longer text, whatever follows
it.  The members of a list can then be written one after another, as long as the text goes on after the last
one in a way in which no member begins.  A separator between the members does no harm.

Parts that do not hold a certain letter of a separator need not be encoded at all.  Each of them forms a
prefix-free code together with the separator after it, so that parts joined with the separator are found again.
-/

namespace GrammarForms

variable {α β : Type} {encode : α → List β} {stop separator : β}

/-! ## Prefix-free codes -/

/-- What was encoded is recognised at the front of every longer text. -/
def PrefixFree (encode : α → List β) : Prop :=
  ∀ ⦃a b : α⦄ ⦃rest others : List β⦄, encode a ++ rest = encode b ++ others → a = b ∧ rest = others

/-- A prefix-free encoding can be decoded. -/
theorem PrefixFree.injective (free : PrefixFree encode) : Function.Injective encode := by
  intro a b h
  have happend : encode a ++ [] = encode b ++ [] := by rw [h]
  exact (free happend).1

theorem prefixFree_of_prefix (h : ∀ a b, encode a <+: encode b → a = b) : PrefixFree encode := by
  intro a b rest others happend
  have hleft : encode a <+: encode b ++ others := happend ▸ List.prefix_append _ rest
  have hab : a = b := by
    rcases List.prefix_or_prefix_of_prefix hleft (List.prefix_append _ others) with h₁ | h₁
    · exact h a b h₁
    · exact (h b a h₁).symm
  subst hab
  exact ⟨rfl, List.append_cancel_left happend⟩

/-- Members that are recognised one after another can be listed, if the text goes on differently after them. -/
theorem flatMap_append_inj {left right : List α} {rest others : List β}
    (free : ∀ a ∈ left, ∀ b ∈ right, ∀ rest others, encode a ++ rest = encode b ++ others →
      a = b ∧ rest = others)
    (hleft : ∀ a ∈ left, ∀ tail, encode a ++ tail ≠ others)
    (hright : ∀ b ∈ right, ∀ tail, encode b ++ tail ≠ rest)
    (h : left.flatMap encode ++ rest = right.flatMap encode ++ others) :
    left = right ∧ rest = others := by
  induction left generalizing right with
  | nil =>
    cases right with
    | nil => exact ⟨rfl, h⟩
    | cons b bs =>
      rw [List.flatMap_cons, List.append_assoc] at h
      exact absurd h.symm (hright b List.mem_cons_self _)
  | cons a as ih =>
    cases right with
    | nil =>
      rw [List.flatMap_cons, List.append_assoc] at h
      exact absurd h (hleft a List.mem_cons_self _)
    | cons b bs =>
      rw [List.flatMap_cons, List.flatMap_cons, List.append_assoc, List.append_assoc] at h
      have ⟨hab, htails⟩ := free a List.mem_cons_self b List.mem_cons_self _ _ h
      have hrest := ih (fun a ha b hb ↦ free a (List.mem_cons_of_mem _ ha) b (List.mem_cons_of_mem _ hb))
        (fun a ha ↦ hleft a (List.mem_cons_of_mem _ ha))
        (fun b hb ↦ hright b (List.mem_cons_of_mem _ hb)) htails
      exact ⟨by rw [hab, hrest.1], hrest.2⟩

/-- No encoded member begins with the letter. -/
def NeverBegins (encode : α → List β) (stop : β) : Prop :=
  ∀ a, ∃ first tail, encode a = first :: tail ∧ first ≠ stop

theorem NeverBegins.append_ne (never : NeverBegins encode stop) (a : α) (tail rest : List β) :
    encode a ++ tail ≠ stop :: rest := by
  have ⟨first, others, hencode, hne⟩ := never a
  rw [hencode]
  exact fun h ↦ hne (List.cons_eq_cons.1 h).1

/-- A list ends where no further member begins. -/
theorem PrefixFree.terminated (free : PrefixFree encode) (never : NeverBegins encode stop) :
    PrefixFree fun members : List α ↦ members.flatMap encode ++ [stop] := by
  intro left right rest others h
  simp only [List.append_assoc, List.singleton_append] at h
  have ⟨hmembers, hrest⟩ := flatMap_append_inj (fun _ _ _ _ _ _ happend ↦ free happend)
    (fun a _ tail ↦ never.append_ne a tail others) (fun b _ tail ↦ never.append_ne b tail rest) h
  exact ⟨hmembers, (List.cons_eq_cons.1 hrest).2⟩

/-! ## Separators -/

theorem intercalate_cons (joint first : List β) (others : List (List β)) :
    joint.intercalate (first :: others) = first ++ others.flatMap (joint ++ ·) := by
  induction others generalizing first with
  | nil => simp
  | cons second others ih =>
    rw [List.intercalate_cons_cons, ih, List.flatMap_cons, List.append_assoc, List.append_assoc]

theorem intercalate_ne_nil {joint : List β} {parts : List (List β)} (hne : parts ≠ [])
    (nonempty : ∀ part ∈ parts, part ≠ []) : joint.intercalate parts ≠ [] := by
  have ⟨first, others, hparts⟩ := List.exists_cons_of_ne_nil hne
  subst hparts
  rw [intercalate_cons]
  exact List.append_ne_nil_of_left_ne_nil (nonempty first List.mem_cons_self) _

/-- A list ends where no separator follows, and it is empty if it ends at once. -/
theorem PrefixFree.separated (free : PrefixFree encode) (never : NeverBegins encode stop)
    (hne : separator ≠ stop) :
    PrefixFree fun members : List α ↦ [separator].intercalate (members.map encode) ++ [stop] := by
  have hcons (a : α) (as : List α) (rest : List β) :
      [separator].intercalate ((a :: as).map encode) ++ [stop] ++ rest =
        encode a ++ (as.flatMap (fun b ↦ separator :: encode b) ++ [stop] ++ rest) := by
    rw [List.map_cons, intercalate_cons, List.flatMap_map]
    simp
  -- After the first member each one begins with a separator, which is not the stop.
  have separatedFree : PrefixFree fun b ↦ separator :: encode b := fun _ _ _ _ h ↦
    free (List.cons_eq_cons.1 h).2
  have tailFree := separatedFree.terminated fun b ↦ ⟨separator, encode b, rfl, hne⟩
  intro left right rest others h
  cases left with
  | nil =>
    cases right with
    | nil => exact ⟨rfl, (List.cons_eq_cons.1 h).2⟩
    | cons b bs =>
      simp only [hcons] at h
      exact absurd h.symm (never.append_ne b _ _)
  | cons a as =>
    cases right with
    | nil =>
      simp only [hcons] at h
      exact absurd h (never.append_ne a _ _)
    | cons b bs =>
      simp only [hcons] at h
      have ⟨hfirst, htails⟩ := free h
      have ⟨hothers, hrest⟩ := tailFree htails
      exact ⟨by rw [hfirst, hothers], hrest⟩

/-- The first stop shows where a text ends that has none itself. -/
theorem append_cons_inj {first second rest others : List β} (hfirst : stop ∉ first)
    (hsecond : stop ∉ second) (h : first ++ stop :: rest = second ++ stop :: others) :
    first = second ∧ rest = others := by
  induction first generalizing second with
  | nil =>
    cases second with
    | nil => exact ⟨rfl, (List.cons_eq_cons.1 h).2⟩
    | cons c tail =>
      have hc : stop = c := (List.cons_eq_cons.1 h).1
      exact absurd (hc ▸ List.mem_cons_self) hsecond
  | cons c tail ih =>
    cases second with
    | nil =>
      have hc : c = stop := (List.cons_eq_cons.1 h).1
      exact absurd (hc ▸ List.mem_cons_self) hfirst
    | cons d more =>
      have ⟨hcd, htails⟩ := List.cons_eq_cons.1 h
      have ⟨htail, hrest⟩ := ih (List.not_mem_of_not_mem_cons hfirst)
        (List.not_mem_of_not_mem_cons hsecond) htails
      exact ⟨by rw [hcd, htail], hrest⟩

theorem intercalate_append_joint {joint : List β} {parts : List (List β)} (hne : parts ≠ []) :
    joint.intercalate parts ++ joint = parts.flatMap (· ++ joint) := by
  have ⟨first, others, hparts⟩ := List.exists_cons_of_ne_nil hne
  subst hparts
  clear hne
  induction others generalizing first with
  | nil => simp
  | cons second others ih =>
    rw [List.intercalate_cons_cons, List.append_assoc, ih]
    rfl

/-- Joined parts are found again if some letter of the separator occurs in none of them. -/
theorem intercalate_inj {joint : List β} {left right : List (List β)} (hstop : stop ∈ joint)
    (hleft : ∀ part ∈ left, stop ∉ part) (hright : ∀ part ∈ right, stop ∉ part)
    (leftNonempty : left ≠ []) (rightNonempty : right ≠ [])
    (h : joint.intercalate left = joint.intercalate right) : left = right := by
  have ⟨before, after, hjoint, hbefore⟩ := List.eq_append_cons_of_mem hstop
  have hends (part tail : List β) : part ++ joint ++ tail ≠ [] := by
    simp [hjoint]
  have hflat : left.flatMap (· ++ joint) ++ [] = right.flatMap (· ++ joint) ++ [] := by
    rw [← intercalate_append_joint leftNonempty, ← intercalate_append_joint rightNonempty, h]
  refine (flatMap_append_inj (fun first mem second mem' rest others happend ↦ ?_)
    (fun part _ ↦ hends part) (fun part _ ↦ hends part) hflat).1
  have hfirst : stop ∉ first ++ before := by simp [hleft first mem, hbefore]
  have hsecond : stop ∉ second ++ before := by simp [hright second mem', hbefore]
  have hcut : first ++ before ++ stop :: (after ++ rest) = second ++ before ++ stop :: (after ++ others) := by
    simpa [hjoint] using happend
  have ⟨hparts, htails⟩ := append_cons_inj hfirst hsecond hcut
  exact ⟨List.append_cancel_right hparts, List.append_cancel_left htails⟩

/-- A map that tells the members of two lists apart tells the lists apart. -/
theorem eq_of_map_eq {f : α → β} {left right : List α}
    (inj : ∀ a ∈ left, ∀ b ∈ right, f a = f b → a = b) (h : left.map f = right.map f) : left = right := by
  induction left generalizing right with
  | nil => exact (List.map_eq_nil_iff.1 h.symm).symm
  | cons a as ih =>
    cases right with
    | nil => cases h
    | cons b bs =>
      have ⟨hab, htails⟩ := List.cons_eq_cons.1 h
      have hrest := ih (fun a ha b hb ↦ inj a (List.mem_cons_of_mem _ ha) b (List.mem_cons_of_mem _ hb)) htails
      rw [inj a List.mem_cons_self b List.mem_cons_self hab, hrest]

end GrammarForms
