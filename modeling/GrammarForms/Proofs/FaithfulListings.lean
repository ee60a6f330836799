import GrammarForms.Proofs.Indexing
import GrammarForms.Proofs.JsonListings
import GrammarForms.Proofs.LatexListings
import GrammarForms.Proofs.RoundTrip

/-!
# Texts That Lose Nothing

Grammars that were read from texts are the same if they have the same LaTeX text, or the same JSON text.  Both
texts show the listing of the grammar, and such a grammar could be read from its listing.  The positions of
its nonterminals follow from their order.
-/

namespace GrammarForms

open Text

/-! ## Main result -/

namespace Grammar

variable {g h : Grammar}

theorem Writable.legible_line (writable : g.Writable) {line : RuleLine} (mem : line ∈ g.listing.lines) :
    line.Legible := by
  obtain ⟨entry, hentry, hline⟩ := List.mem_map.1 mem
  have legible := writable.legible (List.mem_of_mem_filter hentry)
  obtain ⟨low, high⟩ := visible_of_isUpper legible.isUpper
  subst hline
  constructor
  · exact ⟨entry.name, by simp [RuleLine.ofEntry], isBlank_eq_false_of_visible low high⟩
  · simpa [RuleLine.ofEntry] using legible.rules_ne_nil
  · intro right hright
    obtain ⟨rule, _, hrule⟩ := List.mem_map.1 hright
    exact hrule ▸ Rule.written_ne_nil rule
  · intro right hright c hc
    obtain ⟨rule, mem, hrule⟩ := List.mem_map.1 hright
    subst hrule
    exact Rule.isBlank_eq_false_of_mem_written (legible.symbols rule mem) hc

/-- A grammar that can be written is determined by its listing. -/
theorem Writable.eq_of_listing_eq (writable : g.Writable) (writable' : h.Writable)
    (e : g.listing = h.listing) : g = h := by
  have hread := parse_plain_listing writable
  rw [e, parse_plain_listing writable'] at hread
  exact (Except.ok.inj hread).symm

end Grammar

namespace IndexedGrammar

variable {g h : IndexedGrammar} {text other : String}

/-- Grammars that were read are equal, with all their positions, if their LaTeX texts are equal, and if their
JSON texts are. -/
theorem eq_of_latex_eq_and_of_json_eq (read : parse text = .ok g) (readOther : parse other = .ok h) :
    (g.listed.listing.latex = h.listed.listing.latex → g = h) ∧
      (g.listed.listing.json = h.listed.listing.json → g = h) := by
  have ⟨hg, hindexed⟩ := parse_listed read
  have ⟨hh, hindexedOther⟩ := parse_listed readOther
  have writable := Grammar.writable_of_parse hg
  have writableOther := Grammar.writable_of_parse hh
  have hlisting (e : g.listed.listing = h.listed.listing) : g = h := by
    rw [← hindexed, writable.eq_of_listing_eq writableOther e, hindexedOther]
  refine ⟨fun hlatex ↦ hlisting ?_, fun hjson ↦ hlisting ?_⟩
  · exact Listing.latex_inj (fun _ ↦ writable.legible_line) (fun _ ↦ writableOther.legible_line) hlatex
  · exact Listing.json_injective hjson

/-- One alternative that holds what JSON writes between two. -/
def quoted : IndexedGrammar :=
  ⟨[⟨0, 'S', [[.terminal 'a', .terminal '"', .terminal ',', .terminal '"', .terminal 'b']]⟩], [('S', 0)], 'S'⟩

def parted : IndexedGrammar :=
  ⟨[⟨0, 'S', [[.terminal 'a'], [.terminal 'b']]⟩], [('S', 0)], 'S'⟩

/-- Both formats tell the one alternative from the two. -/
theorem latex_ne_and_json_ne_quoted :
    (parse "S → a\",\"b" = .ok quoted ∧ parse "S → a | b" = .ok parted) ∧
      quoted.listed.listing.latex ≠ parted.listed.listing.latex ∧
      quoted.listed.listing.json ≠ parted.listed.listing.json := by
  have read : parse "S → a\",\"b" = .ok quoted := by cbv
  have readOther : parse "S → a | b" = .ok parted := by cbv
  have hne : quoted ≠ parted := by decide
  obtain ⟨hlatex, hjson⟩ := eq_of_latex_eq_and_of_json_eq read readOther
  exact ⟨⟨read, readOther⟩, fun e ↦ hne (hlatex e), fun e ↦ hne (hjson e)⟩

end IndexedGrammar

end GrammarForms
