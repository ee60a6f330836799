import GrammarForms.Proofs.IndexInvariant
import GrammarForms.Proofs.Rereading

/-!
# Listings Read Back with Their Positions

A listing shows names and rules but no positions.  Reading writes the positions down anew, as the places among
the entries.  So a listing reads as the grammar it was written from, with its positions, provided that the three
copies of these agree in the grammar: the entries with their indices are the same, and the tables lead to the
same positions.  In a grammar that was read, and in the results of the normalizations, even the tables are the
same.
-/

namespace GrammarForms.IndexedGrammar

variable {g n : IndexedGrammar} {text : String}

/-- The same entries with the same indices, the same start symbol, and tables that lead to the same positions. -/
structure Same (g h : IndexedGrammar) : Prop where
  entries_eq : g.entries = h.entries
  start_eq : g.start = h.start
  position?_eq : ∀ name, g.position? name = h.position? name

/-- A grammar with positions that agree is the same as its entries with their places written down. -/
theorem Consistent.same_indexed_listed (consistent : g.Consistent) : g.listed.indexed.Same g where
  entries_eq := by
    apply List.ext_getElem?
    intro position
    rw [Grammar.indexed, List.getElem?_mapIdx, listed, List.getElem?_map]
    cases hentry : g.entries[position]? with
    | none => rfl
    | some entry =>
      have hindex : entry.index = position := consistent.index_eq position entry hentry
      rw [← hindex]
      rfl
  start_eq := rfl
  position?_eq := by
    intro name
    have hnames : g.listed.names = g.names := List.map_map
    have nodup : g.listed.names.Nodup := hnames ▸ consistent.names_nodup
    ext position
    rw [position?_indexed, Grammar.position?_eq_some_iff nodup, hnames, consistent.position?_eq_some_iff]

/-- A grammar that was read has a consistent index. -/
theorem consistent_of_parse (read : parse text = .ok g) : g.Consistent := by
  have ⟨hplain, hindexed⟩ := parse_listed read
  rw [← hindexed]
  exact consistent_indexed (Grammar.inOrder_of_parse hplain).toWellFormed

/-- What reads as a plain grammar reads as that grammar with its places written down. -/
theorem parse_eq_ok_indexed {plain : Grammar} (read : Grammar.parse text = .ok plain) :
    parse text = .ok plain.indexed := by
  rw [parse_indexed, read]
  rfl

/-! ## Listings -/

/-- A grammar whose positions agree and which can be written is read from its listing, the same in every part.
A grammar that was read is of this kind, and its listing stays the same from then on. -/
theorem parse_listing_of_consistent :
    (∀ g : IndexedGrammar, g.Consistent → g.listed.Writable →
      ∃ again, parse g.listed.listing.plain = .ok again ∧ again.Same g) ∧
      ∀ text, ∀ g : IndexedGrammar, parse text = .ok g → g.Consistent ∧ g.listed.Writable ∧
        parse g.listed.listing.plain = .ok g ∧
        (fun again ↦ again.listed.listing.plain) <$> parse g.listed.listing.plain =
          .ok g.listed.listing.plain := by
  have ⟨hwritten, hread⟩ := Grammar.parse_listing
  refine ⟨fun g consistent writable ↦ ?_, fun text g read ↦ ?_⟩
  · exact ⟨_, parse_eq_ok_indexed (hwritten g.listed writable), consistent.same_indexed_listed⟩
  · have ⟨hplain, hindexed⟩ := parse_listed read
    have ⟨writable, _⟩ := hread text g.listed hplain
    have hagain : parse g.listed.listing.plain = .ok g := by
      rw [parse_eq_ok_indexed (hwritten g.listed writable), hindexed]
    refine ⟨consistent_of_parse read, writable, hagain, ?_⟩
    rw [hagain]
    rfl

/-- Signs that occur in the notation itself stand as terminals and are read back. -/
theorem parse_listing_of_consistent_signs :
    Grammar.signs.indexed.Consistent ∧ Grammar.signs.indexed.listed.Writable ∧
      ∃ again, parse "S → E->E | ε\nE → ! | ~E | a\\" = .ok again ∧ again.Same Grammar.signs.indexed := by
  have writable := Grammar.writable_signs
  have consistent := consistent_indexed writable.toWellFormed
  have hplain : Grammar.signs.listing.plain = "S → E->E | ε\nE → ! | ~E | a\\" := by decide
  obtain ⟨again, hagain, same⟩ := parse_listing_of_consistent.1 Grammar.signs.indexed consistent
    (by rwa [listed_indexed])
  rw [listed_indexed, hplain] at hagain
  exact ⟨consistent, by rwa [listed_indexed], again, hagain, same⟩

/-! ## Results of normalizations -/

/-- A result of one of the normalizations, with the names of the grammar taken. -/
inductive NormalizesTo (g : IndexedGrammar) : IndexedGrammar → Prop where
  | simplify (policy : EmptyWordPolicy) : NormalizesTo g (g.cleaned policy)
  | toChomsky {policy : EmptyWordPolicy} {n : IndexedGrammar} {rest : NameSupply}
      (run : (g.toChomsky policy).outcome (.avoiding g.listed) = (.ok n, rest)) : NormalizesTo g n
  | toGreibach {n : IndexedGrammar} {rest : NameSupply}
      (run : g.toGreibach.outcome (.avoiding g.listed) = (.ok n, rest)) : NormalizesTo g n

/-- An indexed normalization succeeds exactly if the plain one does, with the indexed form of its
result. -/
theorem outcome_indexed_eq_ok {naming : Naming Normalization} {supply rest : NameSupply} :
    (Grammar.indexed <$> (·.grammar) <$> naming).outcome supply = (.ok n, rest) ↔
      ∃ result, naming.outcome supply = (.ok result, rest) ∧ result.grammar.indexed = n := by
  rw [Functor.map_map]
  exact Naming.outcome_map_eq_ok

/-- The result is that of the plain grammar with its places written down. -/
theorem NormalizesTo.exists_plain {plain : Grammar} (normalizes : plain.indexed.NormalizesTo n) :
    ∃ result : Normalization, plain.NormalizesTo result ∧ result.grammar.indexed = n := by
  cases normalizes with
  | simplify policy => exact ⟨plain.simplify policy, .simplify policy, (cleaned_indexed plain policy).symm⟩
  | toChomsky run =>
    rw [listed_indexed, toChomsky_indexed] at run
    have ⟨result, run, hn⟩ := outcome_indexed_eq_ok.1 run
    exact ⟨result, .toChomsky run, hn⟩
  | toGreibach run =>
    rw [listed_indexed, toGreibach_indexed] at run
    have ⟨result, run, hn⟩ := outcome_indexed_eq_ok.1 run
    exact ⟨result, .toGreibach run, hn⟩

/-- The text of a result reads as the result itself, with all its positions.  Only a result without any word is
different: its start symbol has no rule and its text is empty. -/
theorem parse_listing_of_normalizesTo (read : parse text = .ok g) (normalizes : g.NormalizesTo n) :
    (n.rules n.start ≠ [] → parse n.listed.listing.plain = .ok n) ∧
      (n.rules n.start = [] →
        (∀ word, ¬n.listed.Accepts word) ∧ n.listed.listing.plain = "") := by
  have ⟨hplain, hindexed⟩ := parse_listed read
  -- A grammar that was read is the indexed form of a plain one, and the plain result reads back.
  rw [← hindexed] at normalizes
  have ⟨result, hnormalizes, hn⟩ := normalizes.exists_plain
  have ⟨hsome, hnone⟩ := Grammar.parse_plain_of_normalizesTo hplain hnormalizes
  rw [← hn, rules_indexed, listed_indexed]
  exact ⟨fun hrules ↦ parse_eq_ok_indexed (hsome hrules), hnone⟩

/-- The Chomsky normal form of the nested pairs is printed and read back. -/
theorem parse_listing_of_normalizesTo_nested :
    parse "S → aSb | ε" = .ok Grammar.nested.indexed ∧
      parse "A → BD | BC | ε\nS → BE | BC\nB → a\nC → b\nD → SC\nE → SC" = .ok Grammar.nestedPairs.indexed := by
  have read : parse "S → aSb | ε" = .ok Grammar.nested.indexed := by cbv
  have normalizes : Grammar.nested.indexed.NormalizesTo Grammar.nestedPairs.indexed := by
    apply NormalizesTo.toChomsky
    rw [listed_indexed, toChomsky_indexed]
    exact outcome_indexed_eq_ok.2 ⟨_, Grammar.toChomsky_nested, rfl⟩
  have hplain : Grammar.nestedPairs.indexed.listed.listing.plain =
      "A → BD | BC | ε\nS → BE | BC\nB → a\nC → b\nD → SC\nE → SC" := by decide
  obtain ⟨hagain, -⟩ := parse_listing_of_normalizesTo read normalizes
  rw [hplain] at hagain
  exact ⟨read, hagain (by decide)⟩

end GrammarForms.IndexedGrammar
