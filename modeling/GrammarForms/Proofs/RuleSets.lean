import GrammarForms.Grammar.Building
import Mathlib.Data.List.Nodup

/-!
# Rule Sets

`Grammar.canonicalRules` lists the nonterminals with their rules in an order of its own.  The rules are
ordered totally, so for well-formed grammars the list says neither more nor less than which nonterminals
there are and which rules each of them has.
-/

namespace GrammarForms

/-- No two symbols have the same place in the order. -/
theorem Symbol.rank_injective : Function.Injective rank := by
  have toNat_lt (c : Char) : c.toNat < 0x110000 := by
    have valid : c.toNat.isValidChar := c.valid
    unfold Nat.isValidChar at valid
    omega
  intro one other h
  cases one with
  | terminal c =>
    have hc := toNat_lt c
    cases other with
    | terminal d => rw [Char.toNat_inj.1 h]
    | nonterminal name =>
      simp only [rank] at h
      omega
  | nonterminal name =>
    cases other with
    | terminal c =>
      have hc := toNat_lt c
      simp only [rank] at h
      omega
    | nonterminal other =>
      simp only [rank, Nat.add_left_cancel_iff] at h
      rw [Char.toNat_inj.1 h]

namespace Rule

theorem precedes_cons {symbol other : Symbol} {rest others : Rule} :
    precedes (symbol :: rest) (other :: others) = true ↔
      symbol.rank < other.rank ∨ symbol = other ∧ precedes rest others = true := by
  simp [precedes]

/-- Any two rules can be compared. -/
theorem precedes_total (one other : Rule) : precedes one other = true ∨ precedes other one = true := by
  induction one generalizing other with
  | nil => exact Or.inl rfl
  | cons symbol rest ih =>
    cases other with
    | nil => exact Or.inr rfl
    | cons next others =>
      rw [precedes_cons, precedes_cons]
      rcases Nat.lt_trichotomy symbol.rank next.rank with hlt | heq | hlt
      · exact Or.inl (Or.inl hlt)
      · have e := Symbol.rank_injective heq
        exact (ih others).imp (fun h ↦ Or.inr ⟨e, h⟩) fun h ↦ Or.inr ⟨e.symm, h⟩
      · exact Or.inr (Or.inl hlt)

theorem precedes_trans (first second third : Rule) (left : precedes first second = true)
    (right : precedes second third = true) : precedes first third = true := by
  induction first generalizing second third with
  | nil => rfl
  | cons symbol rest ih =>
    match second, third with
    | [], _ => cases left
    | _ :: _, [] => cases right
    | middle :: middles, last :: lasts =>
      rw [precedes_cons] at left right ⊢
      rcases left with hlt | ⟨rfl, left⟩
      · rcases right with hlt' | ⟨rfl, _⟩
        · exact Or.inl (Nat.lt_trans hlt hlt')
        · exact Or.inl hlt
      · rcases right with hlt | ⟨rfl, right⟩
        · exact Or.inl hlt
        · exact Or.inr ⟨rfl, ih middles lasts left right⟩

/-- Two rules that come before each other are equal. -/
theorem precedes_antisymm (one other : Rule) (left : precedes one other = true)
    (right : precedes other one = true) : one = other := by
  induction one generalizing other with
  | nil =>
    cases other with
    | nil => rfl
    | cons _ _ => cases right
  | cons symbol rest ih =>
    cases other with
    | nil => cases left
    | cons next others =>
      rw [precedes_cons] at left right
      rcases left with hlt | ⟨rfl, left⟩
      · rcases right with hlt' | ⟨rfl, _⟩
        · exact absurd hlt' (Nat.lt_asymm hlt)
        · exact absurd hlt (Nat.lt_irrefl _)
      · rcases right with hlt | ⟨_, right⟩
        · exact absurd hlt (Nat.lt_irrefl _)
        · rw [ih others left right]

end Rule

namespace Grammar

variable {g h k : Grammar} {name : Char} {rules : List Rule}

theorem nodup_rules (wf : g.WellFormed) (name : Char) : (g.rules name).Nodup := by
  cases hfind : g.find? name with
  | none => simp [Grammar.rules, hfind]
  | some entry =>
    have hnodup := wf.rules_nodup entry (List.mem_of_find?_eq_some hfind)
    simpa [Grammar.rules, hfind] using hnodup

/-- The canonical rules pair every nonterminal with its rules in order. -/
theorem mem_canonicalRules (nodup : g.names.Nodup) :
    (name, rules) ∈ g.canonicalRules ↔
      name ∈ g.names ∧ rules = sortBy Rule.precedes (g.rules name) := by
  rw [canonicalRules, (sortBy_perm _).mem_iff, List.mem_map]
  constructor
  · rintro ⟨entry, mem, e⟩
    cases e
    exact ⟨List.mem_map_of_mem mem, by rw [rules_of_mem nodup mem]⟩
  · rintro ⟨hname, rfl⟩
    have ⟨entry, mem, e⟩ := List.mem_map.1 hname
    subst e
    exact ⟨entry, mem, by rw [rules_of_mem nodup mem]⟩

theorem nodup_names_canonicalRules (nodup : g.names.Nodup) :
    (g.canonicalRules.map Prod.fst).Nodup := by
  rw [canonicalRules, ((sortBy_perm _).map _).nodup_iff, List.map_map]
  exact nodup

/-- The canonical rules are ordered by nonterminal. -/
theorem pairwise_canonicalRules (g : Grammar) :
    g.canonicalRules.Pairwise fun one other ↦ one.1.toNat ≤ other.1.toNat := by
  have hsorted : g.canonicalRules.Pairwise fun one other ↦
      decide (one.1.toNat ≤ other.1.toNat) = true := by
    apply pairwise_sortBy
    · exact fun one other ↦ by simpa using Nat.le_total _ _
    · exact fun one other third ↦ by simpa using Nat.le_trans
  exact hsorted.imp fun hle ↦ of_decide_eq_true hle

/-- For well-formed grammars equal rule sets mean the same nonterminals with the same rules. -/
theorem canonicalRules_eq_iff (wf : g.WellFormed) (wf' : h.WellFormed) :
    g.canonicalRules = h.canonicalRules ↔ (∀ name, name ∈ g.names ↔ name ∈ h.names) ∧
      ∀ name rule, rule ∈ g.rules name ↔ rule ∈ h.rules name := by
  have nodup := wf.names_nodup
  have nodup' := wf'.names_nodup
  constructor
  · intro heq
    have hnames (name) : name ∈ g.names ↔ name ∈ h.names := by
      constructor
      · intro hname
        have mem := (mem_canonicalRules nodup).2 ⟨hname, rfl⟩
        exact ((mem_canonicalRules nodup').1 (heq ▸ mem)).1
      · intro hname
        have mem := (mem_canonicalRules nodup').2 ⟨hname, rfl⟩
        exact ((mem_canonicalRules nodup).1 (heq ▸ mem)).1
    refine ⟨hnames, fun name rule ↦ ?_⟩
    by_cases hname : name ∈ g.names
    · have mem := (mem_canonicalRules nodup).2 ⟨hname, rfl⟩
      have hsorted := ((mem_canonicalRules nodup').1 (heq ▸ mem)).2
      rw [← (sortBy_perm (g.rules name)).mem_iff, hsorted, (sortBy_perm _).mem_iff]
    · have hname' := mt (hnames name).2 hname
      exact iff_of_false (mt mem_names_of_mem_rules hname) (mt mem_names_of_mem_rules hname')
  · rintro ⟨hnames, hrules⟩
    have hsorted (name) : sortBy Rule.precedes (g.rules name) =
        sortBy Rule.precedes (h.rules name) := by
      apply sortBy_eq_of_perm Rule.precedes_total Rule.precedes_trans Rule.precedes_antisymm
      exact (List.perm_ext_iff_of_nodup (nodup_rules wf name) (nodup_rules wf' name)).2 (hrules name)
    have hmem (pair) : pair ∈ g.canonicalRules ↔ pair ∈ h.canonicalRules := by
      obtain ⟨name, rules⟩ := pair
      rw [mem_canonicalRules nodup, mem_canonicalRules nodup', hnames, hsorted]
    have hperm : g.canonicalRules.Perm h.canonicalRules := by
      apply (List.perm_ext_iff_of_nodup _ _).2 hmem
      · exact List.Nodup.of_map _ (nodup_names_canonicalRules nodup)
      · exact List.Nodup.of_map _ (nodup_names_canonicalRules nodup')
    -- Members with the same name are equal, so the order of the names is antisymmetric on the members.
    refine hperm.eq_of_pairwise ?_ (pairwise_canonicalRules g) (pairwise_canonicalRules h)
    rintro ⟨one, rules⟩ ⟨other, rules'⟩ hone hother hle hge
    have hname : one = other := Char.toNat_inj.1 (Nat.le_antisymm hle hge)
    subst hname
    rw [((mem_canonicalRules nodup).1 hone).2, ((mem_canonicalRules nodup').1 hother).2, hsorted]

/-- The same start symbol, nonterminals and rules, whatever their order. -/
structure SameRules (g h : Grammar) : Prop where
  start_eq : g.start = h.start
  mem_names : ∀ name, name ∈ g.names ↔ name ∈ h.names
  mem_rules : ∀ name rule, rule ∈ g.rules name ↔ rule ∈ h.rules name

theorem SameRules.trans (first : g.SameRules h) (second : h.SameRules k) : g.SameRules k where
  start_eq := first.start_eq.trans second.start_eq
  mem_names := fun name ↦ (first.mem_names name).trans (second.mem_names name)
  mem_rules := fun name rule ↦ (first.mem_rules name rule).trans (second.mem_rules name rule)

/-- Grammars with the same rules have the same canonical ones. -/
theorem SameRules.canonicalRules_eq (same : g.SameRules h) (wf : g.WellFormed) (wf' : h.WellFormed) :
    g.canonicalRules = h.canonicalRules :=
  (canonicalRules_eq_iff wf wf').2 ⟨same.mem_names, same.mem_rules⟩

end Grammar

end GrammarForms
