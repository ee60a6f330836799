import GrammarForms.IndexedGrammar
import GrammarForms.Proofs.Conversions
import GrammarForms.Proofs.Rebuilding

/-!
# Indexed Grammars as Plain Ones

`Grammar.indexed` writes the positions of a grammar down.  Each operation on the indexed grammar gives what
the plain operation gives, with the positions of the result written down.  The names must differ for that,
since the table leads to one entry only.  A grammar that was rebuilt has such names, whatever it was rebuilt
from and whatever the fresh names in it are.
-/

namespace GrammarForms

namespace Grammar

variable {g : Grammar} {name : Char}

/-! ## Positions -/

theorem nodup_names_alter (nodup : g.names.Nodup) (name : Char) (change : List Rule → List Rule) :
    (g.alter name change).names.Nodup := by
  rw [names_alter]
  exact nodup_names_declare nodup name

theorem isSome_position? : (g.position? name).isSome = true ↔ name ∈ g.names := by
  simp [position?]

/-- With names that differ a position is that of one name only. -/
theorem position?_eq_some_iff (nodup : g.names.Nodup) {position : Nat} :
    g.position? name = some position ↔ g.names[position]? = some name := by
  rw [position?, List.idxOf?_eq_some_iff, List.getElem?_eq_some_iff]
  constructor
  · rintro ⟨hlt, hname, -⟩
    exact ⟨hlt, hname⟩
  · rintro ⟨hlt, hname⟩
    refine ⟨hlt, hname, fun earlier hearlier hsame ↦ ?_⟩
    have hposition := nodup.getElem_inj_iff.1 (hsame.trans hname.symm)
    omega

theorem find?_eq_bind_position? (g : Grammar) (name : Char) :
    g.find? name = (g.position? name).bind fun position ↦ g.entries[position]? := by
  rw [find?, List.find?_eq_bind_findIdx?_getElem?, position?, names, List.idxOf?, List.findIdx?_map]
  rfl

end Grammar

/-- The entry with its position written down. -/
def IndexedEntry.placed (entry : Entry) (position : Nat) : IndexedEntry :=
  ⟨position, entry.name, entry.rules⟩

/-- The grammar with the positions of its nonterminals written down. -/
def Grammar.indexed (g : Grammar) : IndexedGrammar :=
  ⟨g.entries.mapIdx fun position entry ↦ .placed entry position, g.symbolTable, g.start⟩

namespace IndexedGrammar

variable {g : Grammar} {name : Char}

/-! ## Views -/

theorem lookup_zipIdx (names : List Char) (offset : Nat) (name : Char) :
    (names.zipIdx offset).lookup name = (names.idxOf? name).map (· + offset) := by
  induction names generalizing offset with
  | nil => rfl
  | cons first rest ih =>
    rw [List.zipIdx_cons, List.lookup_cons, ih, List.idxOf?_cons, Bool.beq_comm]
    cases h : first == name with
    | true => simp
    | false =>
      simp only [Option.map_map, Bool.false_eq_true, if_false]
      congr 1
      funext position
      simp only [Function.comp_apply]
      omega

/-- Placing entries changes nothing that does not read positions. -/
theorem map_placed {α : Type} (f : IndexedEntry → α) (f' : Entry → α)
    (h : ∀ entry position, f (.placed entry position) = f' entry) (entries : List Entry) :
    (entries.mapIdx fun position entry ↦ IndexedEntry.placed entry position).map f =
      entries.map f' := by
  rw [List.mapIdx_eq_zipIdx_map, List.map_map]
  calc
    _ = entries.zipIdx.map (f' ∘ Prod.fst) := List.map_congr_left fun x _ ↦ h x.1 x.2
    _ = entries.map f' := by rw [← List.map_map, List.zipIdx_map_fst]

/-- Forgetting the index of an indexed grammar gives the grammar back. -/
@[simp]
theorem listed_indexed (g : Grammar) : g.indexed.listed = g := by
  rw [listed, Grammar.indexed, map_placed _ id fun _ _ ↦ rfl, List.map_id]

@[simp]
theorem length_indexed (g : Grammar) : g.indexed.entries.length = g.entries.length :=
  List.length_mapIdx

@[simp]
theorem names_indexed (g : Grammar) : g.indexed.names = g.names :=
  map_placed _ _ (fun _ _ ↦ rfl) g.entries

/-- The table answers every lookup with the position of the name among the entries. -/
@[simp]
theorem position?_indexed (g : Grammar) (name : Char) :
    g.indexed.position? name = g.position? name := by
  simp [position?, Grammar.indexed, Grammar.symbolTable, Grammar.position?, lookup_zipIdx]

theorem rules_indexed (g : Grammar) (name : Char) : g.indexed.rules name = g.rules name := by
  rw [rules, Grammar.rules, Grammar.find?_eq_bind_position?, get?, position?_indexed]
  cases g.position? name with
  | none => rfl
  | some position =>
    simp only [Option.bind_some, Grammar.indexed, List.getElem?_mapIdx, Option.map_map]
    rfl

/-- Reading every entry through the table gives the entries themselves. -/
@[simp]
theorem consulted_indexed (nodup : g.names.Nodup) : g.indexed.consulted = g := by
  simp only [consulted, rules_indexed, names_indexed, Grammar.map_rules nodup]
  rfl

/-! ## Building -/

/-- An entry at the end gets the next position, in the list and in the table. -/
theorem push_indexed (fresh : name ∉ g.names) (rules : List Rule) :
    g.indexed.push name rules =
      ({ g with entries := g.entries ++ [⟨name, rules⟩] } : Grammar).indexed := by
  have htable : g.symbolTable.filter (·.1 != name) = g.symbolTable := by
    rw [List.filter_eq_self]
    intro entry mem
    have hname : entry.1 ∈ g.names := List.fst_mem_of_mem_zipIdx mem
    simpa using ne_of_mem_of_not_mem hname fresh
  simp only [push, enter, Grammar.indexed, htable]
  simp [Grammar.symbolTable, Grammar.names, List.mapIdx_append, List.zipIdx_append,
    IndexedEntry.placed]

/-- Declaring a name keeps the index in step with the entries. -/
theorem declare_indexed (g : Grammar) (name : Char) :
    g.indexed.declare name = (g.declare name).indexed := by
  rw [declare, position?_indexed, Grammar.declare]
  by_cases h : name ∈ g.names
  · rw [if_pos (Grammar.isSome_position?.2 h), if_pos h]
  · rw [if_neg (mt Grammar.isSome_position?.1 h), if_neg h, push_indexed h]

/-- With names that differ the table leads to the only entry of the name. -/
theorem alter_indexed (nodup : g.names.Nodup) (name : Char) (change : List Rule → List Rule) :
    g.indexed.alter name change = (g.alter name change).indexed := by
  have nodup' := Grammar.nodup_names_declare nodup name
  have hname : name ∈ (g.declare name).names := Grammar.mem_names_declare.2 (Or.inr rfl)
  have ⟨position, hposition⟩ := Option.isSome_iff_exists.1 (Grammar.isSome_position?.2 hname)
  simp only [alter, declare_indexed, position?_indexed, hposition]
  have hsymbols : (g.alter name change).symbolTable = (g.declare name).symbolTable := by
    rw [Grammar.symbolTable, Grammar.names_alter, Grammar.symbolTable]
  rw [Grammar.indexed, Grammar.indexed, hsymbols, Grammar.start_alter, Grammar.start_declare]
  congr 1
  -- The changed place is the one of the table on the left, and the places of the name on the right.
  apply List.ext_getElem?
  intro place
  rw [List.getElem?_modify, List.getElem?_mapIdx, List.getElem?_mapIdx, Grammar.alter,
    List.getElem?_map, Option.map_map]
  cases hentry : (g.declare name).entries[place]? with
  | none => rfl
  | some entry =>
    have hplace : (g.declare name).names[place]? = some entry.name := by
      rw [Grammar.names, List.getElem?_map, hentry]
      rfl
    have hiff : position = place ↔ entry.name = name := by
      rw [← Option.some_inj, ← hposition, Grammar.position?_eq_some_iff nodup', hplace, Option.some_inj]
    by_cases e : entry.name = name
    · simp [hiff.2 e, e, IndexedEntry.placed]
    · simp [mt hiff.1 e, e]

theorem addRule_indexed (nodup : g.names.Nodup) (name : Char) (rule : Rule) :
    g.indexed.addRule name rule = (g.addRule name rule).indexed :=
  alter_indexed nodup name _

theorem replaceRules_indexed (nodup : g.names.Nodup) (name : Char) (rules : List Rule) :
    g.indexed.replaceRules name rules = (g.replaceRules name rules).indexed :=
  alter_indexed nodup name _

theorem mapRules_indexed (g : Grammar) (change : Char → List Rule → List Rule) :
    g.indexed.mapRules change =
      ({ g with entries := g.entries.map fun entry ↦
          { entry with rules := change entry.name entry.rules } } : Grammar).indexed := by
  simp [mapRules, Grammar.indexed, Grammar.symbolTable, Grammar.names, List.mapIdx_eq_zipIdx_map,
    List.zipIdx_map, Function.comp_def, IndexedEntry.placed]

theorem keepRules_indexed (g : Grammar) (keep : Rule → Bool) :
    g.indexed.keepRules keep = (g.keepRules keep).indexed :=
  mapRules_indexed g _

/-- Entries that are pushed one after another get the positions they have in the end. -/
theorem foldl_push (keep : IndexedEntry → Bool) {entries : List IndexedEntry} {kept : Grammar}
    (nodup : (kept.names ++ entries.map (·.name)).Nodup) :
    entries.foldl
        (fun kept entry ↦ if keep entry then kept.push entry.name entry.rules else kept)
        kept.indexed =
      ({ kept with entries := kept.entries ++ (entries.filter keep).map (·.plain) } :
        Grammar).indexed := by
  induction entries generalizing kept with
  | nil => simp
  | cons entry rest ih =>
    rw [List.map_cons] at nodup
    rw [List.foldl_cons, List.filter_cons]
    by_cases h : keep entry = true
    · have fresh : entry.name ∉ kept.names := fun mem ↦
        List.disjoint_of_nodup_append nodup mem List.mem_cons_self
      rw [if_pos h, if_pos h, push_indexed fresh, ih]
      · simp [IndexedEntry.plain]
      · simpa [Grammar.names] using nodup
    -- A rejected entry takes no position, so the next one gets the position it would have had.
    · rw [if_neg h, if_neg h, ih]
      exact nodup.sublist ((List.sublist_cons_self _ _).append_left _)

/-- However the entries were numbered, those that stay are numbered anew. -/
theorem keepEntries_eq {g : IndexedGrammar} (nodup : g.names.Nodup) (keep : IndexedEntry → Bool) :
    g.keepEntries keep =
      (⟨(g.entries.filter fun entry ↦ entry.name == g.start || keep entry).map (·.plain), g.start⟩ :
        Grammar).indexed :=
  @foldl_push (fun entry ↦ entry.name == g.start || keep entry) g.entries ⟨[], g.start⟩ nodup

/-- A choice that reads the positions is a choice among plain entries, as each entry has one position. -/
theorem keepEntries_indexed_of_plain (nodup : g.names.Nodup) {keep : IndexedEntry → Bool}
    {keepPlain : Entry → Bool} (h : ∀ entry ∈ g.indexed.entries, keep entry = keepPlain entry.plain) :
    g.indexed.keepEntries keep = (g.keepEntries keepPlain).indexed := by
  have hentries : g.indexed.entries.map (·.plain) = g.entries :=
    congrArg Grammar.entries (listed_indexed g)
  have hfilter :
      (g.indexed.entries.filter fun entry ↦ entry.name == g.start || keep entry).map (·.plain) =
        g.entries.filter fun entry ↦ entry.name == g.start || keepPlain entry := by
    rw [← hentries, List.filter_map]
    congr 1
    exact List.filter_congr fun entry mem ↦ congrArg (entry.name == g.start || ·) (h entry mem)
  rw [keepEntries_eq (names_indexed g ▸ nodup), Grammar.keepEntries, ← hfilter]
  rfl

/-- Dropping entries builds the index anew, and it is again the one of the plain result. -/
theorem keepEntries_indexed (nodup : g.names.Nodup) (keep : Entry → Bool) :
    g.indexed.keepEntries (keep ·.plain) = (g.keepEntries keep).indexed :=
  keepEntries_indexed_of_plain nodup fun _ _ ↦ rfl

theorem mem_entries_indexed {entry : IndexedEntry} :
    entry ∈ g.indexed.entries ↔
      ∃ position : Nat, ∃ plain : Entry, g.entries[position]? = some plain ∧
        entry = .placed plain position := by
  simp only [Grammar.indexed, List.mem_iff_getElem?, List.getElem?_mapIdx, Option.map_eq_some_iff,
    @eq_comm _ entry]

/-- Steps that agree on grammars whose names differ agree over a list. -/
theorem foldl_indexed {α : Type} {stored : IndexedGrammar → α → IndexedGrammar}
    {plain : Grammar → α → Grammar}
    (nodup_plain : ∀ g x, g.names.Nodup → (plain g x).names.Nodup)
    (stored_indexed : ∀ g x, g.names.Nodup → stored g.indexed x = (plain g x).indexed)
    (nodup : g.names.Nodup) (xs : List α) :
    xs.foldl stored g.indexed = (xs.foldl plain g).indexed := by
  induction xs generalizing g with
  | nil => rfl
  | cons x rest ih =>
    rw [List.foldl_cons, List.foldl_cons, stored_indexed g x nodup, ih (nodup_plain g x nodup)]

theorem ofStart_indexed (start : Char) : ofStart start = (Grammar.ofStart start).indexed :=
  declare_indexed ⟨[], start⟩ start

/-- Building a grammar rule by rule keeps the index right at every rule. -/
theorem build_indexed (g : Grammar) (productions : List Production) :
    build g.start g.names productions = (g.rebuild productions).indexed := by
  have hskeleton : g.names.foldl declare (ofStart g.start) = g.skeleton.indexed := by
    rw [ofStart_indexed, Grammar.skeleton]
    exact foldl_indexed (fun _ name nodup ↦ Grammar.nodup_names_declare nodup name)
      (fun g name _ ↦ declare_indexed g name) (Grammar.wellFormed_ofStart g.start).names_nodup _
  rw [build, hskeleton, Grammar.rebuild]
  exact foldl_indexed (fun _ p nodup ↦ Grammar.nodup_names_alter nodup p.left _)
    (fun _ p nodup ↦ addRule_indexed nodup p.left p.right) (Grammar.wellFormed_skeleton g).names_nodup _

theorem rebuild_indexed (g : Grammar) (productions : List Production) :
    g.indexed.rebuild productions = (g.rebuild productions).indexed := by
  rw [rebuild, names_indexed]
  exact build_indexed g productions

theorem skeleton_indexed (g : Grammar) : g.indexed.skeleton = g.skeleton.indexed :=
  rebuild_indexed g []

theorem ofEntries_indexed (start : Char) (entries : List Entry) :
    ofEntries start entries = (Grammar.ofEntries start entries).indexed := by
  rw [ofEntries, ofStart_indexed, Grammar.ofEntries]
  exact foldl_indexed (fun _ entry nodup ↦ Grammar.nodup_names_alter nodup entry.name _)
    (fun _ entry nodup ↦ replaceRules_indexed nodup entry.name entry.rules)
    (Grammar.wellFormed_ofStart start).names_nodup _

/-- Reading a text with an index gives the plain reading with its index. -/
theorem parse_indexed (text : String) : parse text = Grammar.indexed <$> Grammar.parse text := by
  cases h : Grammar.parse text with
  | error error =>
    rw [parse, h]
    rfl
  | ok g =>
    have order := Grammar.inOrder_of_parse h
    have hbuild : build g.start g.names g.productions = g.indexed := by
      rw [build_indexed, Grammar.rebuild_productions order.toWellFormed order.fronted]
    rw [parse, h]
    exact congrArg Except.ok hbuild

/-- A grammar that was read is the index of what walks over its entries see. -/
theorem parse_listed {text : String} {g : IndexedGrammar} (read : parse text = .ok g) :
    Grammar.parse text = .ok g.listed ∧ g.listed.indexed = g := by
  rw [parse_indexed] at read
  cases hplain : Grammar.parse text with
  | error error =>
    rw [hplain] at read
    cases read
  | ok plain =>
    rw [hplain] at read
    have hg : plain.indexed = g := Except.ok.inj read
    rw [← hg, listed_indexed]
    exact ⟨rfl, rfl⟩

/-! ## Eliminations -/

theorem withVariants_indexed (g : Grammar) : g.indexed.withVariants = g.withVariants.indexed := by
  simp only [withVariants, listed_indexed, rebuild_indexed]
  rfl

theorem withoutBarren_indexed (nodup : g.names.Nodup) :
    g.indexed.withoutBarren = g.withoutBarren.indexed := by
  have nodup' : (g.keepRules (!Rule.mentionsAny g.barren ·)).names.Nodup := by
    rwa [Grammar.names_keepRules]
  simp only [withoutBarren, listed_indexed, keepRules_indexed]
  exact keepEntries_indexed nodup' (!g.barren.contains ·.name)

theorem withoutEmptyRules_indexed (g : Grammar) (policy : EmptyWordPolicy) :
    g.indexed.withoutEmptyRules policy = (g.withoutEmptyRules policy).indexed := by
  have wf : g.withVariants.WellFormed := Grammar.wellFormed_rebuild g _
  have hpruned : g.withVariants.withoutBarren.names.Nodup :=
    ((wf.keepRules _).keepEntries _).names_nodup
  simp only [withoutEmptyRules, listed_indexed, withVariants_indexed,
    withoutBarren_indexed wf.names_nodup, Grammar.withoutEmptyRules]
  split
  · exact addRule_indexed hpruned _ _
  · rfl

theorem withoutUnitRules_indexed (nodup : g.names.Nodup) :
    g.indexed.withoutUnitRules = g.withoutUnitRules.indexed := by
  simp only [withoutUnitRules, names_indexed, consulted_indexed nodup, rebuild_indexed]
  rfl

theorem keepGenerating_indexed (nodup : g.names.Nodup) :
    g.indexed.keepGenerating = g.keepGenerating.indexed := by
  have nodup' : (g.keepRules (Rule.isGenerating g.generating)).names.Nodup := by
    rwa [Grammar.names_keepRules]
  simp only [keepGenerating, listed_indexed, keepRules_indexed]
  exact keepEntries_indexed nodup' (g.generating.contains ·.name)

theorem keepReachable_indexed (nodup : g.names.Nodup) :
    g.indexed.keepReachable = g.keepReachable.indexed := by
  simp only [keepReachable, consulted_indexed nodup]
  exact keepEntries_indexed nodup (g.reachable.contains ·.name)

theorem withoutUselessSymbols_indexed (wf : g.WellFormed) :
    g.indexed.withoutUselessSymbols = g.withoutUselessSymbols.indexed := by
  rw [withoutUselessSymbols, keepGenerating_indexed wf.names_nodup,
    keepReachable_indexed (Grammar.nodup_keepGenerating wf.names_nodup)]
  rfl

theorem cleaned_indexed (g : Grammar) (policy : EmptyWordPolicy) :
    g.indexed.cleaned policy = (g.cleaned policy).indexed := by
  rw [cleaned, withoutEmptyRules_indexed,
    withoutUnitRules_indexed (Grammar.wellFormed_withoutEmptyRules g policy).names_nodup,
    withoutUselessSymbols_indexed (Grammar.wellFormed_withoutUnitRules _)]
  rfl

/-- The removal of left recursion draws the same names and gives the indexed form of the plain
result. -/
theorem withoutLeftRecursion_indexed (g : Grammar) (stop : RepetitionStop) :
    g.indexed.withoutLeftRecursion stop = Grammar.indexed <$> g.withoutLeftRecursion stop := by
  simp only [withoutLeftRecursion, listed_indexed, ofEntries_indexed, Grammar.withoutLeftRecursion,
    map_bind, map_pure]
  rfl

/-! ## Normal forms -/

theorem wrapStart_indexed (g : Grammar) (start : Char) :
    g.indexed.wrapStart start = (g.wrapStart start).indexed := by
  rw [wrapStart, listed_indexed, ofEntries_indexed]
  rfl

theorem freshStart_indexed (g : Grammar) (policy : EmptyWordPolicy) :
    g.indexed.freshStart policy = Grammar.indexed <$> g.freshStart policy := by
  rw [freshStart, listed_indexed, Grammar.freshStart]
  split
  · rw [← comp_map]
    congr 1
    funext start
    exact wrapStart_indexed g start
  · rw [map_pure]

/-- Both representations are walked by one function, so the same stand-ins are drawn. -/
theorem isolateTerminals_indexed (g : Grammar) :
    g.indexed.isolateTerminals = Grammar.indexed <$> g.isolateTerminals := by
  simp only [isolateTerminals, listed_indexed, rebuild_indexed, Grammar.isolateTerminals, map_bind, map_pure]

theorem splitLongRules_indexed (g : Grammar) :
    g.indexed.splitLongRules = Grammar.indexed <$> g.splitLongRules := by
  simp only [splitLongRules, listed_indexed, rebuild_indexed, Grammar.splitLongRules, map_bind, map_pure]

/-- Stage by stage, the conversion of an indexed grammar is that of the plain one. -/
theorem toChomsky_indexed (g : Grammar) (policy : EmptyWordPolicy) :
    g.indexed.toChomsky policy = Grammar.indexed <$> (·.grammar) <$> g.toChomsky policy := by
  simp only [toChomsky, freshStart_indexed, bind_map_left, cleaned_indexed, isolateTerminals_indexed,
    splitLongRules_indexed, Grammar.toChomsky, map_bind, bind_pure_comp, Functor.map_map]

theorem expandLeaders_indexed (nodup : g.names.Nodup) (led : List Char) :
    g.indexed.expandLeaders led = (g.expandLeaders led).indexed := by
  simp only [expandLeaders, consulted_indexed nodup, mapRules_indexed, Grammar.expandLeaders]
  congr 2
  apply List.map_congr_left
  intro entry _
  split <;> rfl

theorem backSubstitutePasses_indexed (passes : Nat) (nodup : g.names.Nodup) :
    g.indexed.backSubstitutePasses passes = (g.backSubstitutePasses passes).indexed := by
  induction passes generalizing g with
  | zero => rfl
  | succ passes ih =>
    have nodup' : (g.expandLeaders g.settled).names.Nodup := by rwa [Grammar.names_expandLeaders]
    simp only [backSubstitutePasses, Grammar.backSubstitutePasses, listed_indexed, length_indexed,
      expandLeaders_indexed nodup, ih nodup']
    split
    · rfl
    · split <;> rfl

theorem backSubstitute_indexed (nodup : g.names.Nodup) :
    g.indexed.backSubstitute = g.backSubstitute.indexed := by
  rw [backSubstitute, length_indexed, backSubstitutePasses_indexed _ nodup, Grammar.backSubstitute]

theorem toGreibach_indexed (g : Grammar) :
    g.indexed.toGreibach = Grammar.indexed <$> (·.grammar) <$> g.toGreibach := by
  -- Back-substitution needs names that differ, and gets them from the rebuilding that ends the removal.
  have hback (unwound : Unwound) (start : Char) :
      (Grammar.ofEntries start (unwound.entries ++ unwound.repeaters)).indexed.backSubstitute =
        (Grammar.ofEntries start (unwound.entries ++ unwound.repeaters)).backSubstitute.indexed :=
    backSubstitute_indexed (Grammar.wellFormed_ofEntries _ _).names_nodup
  simp only [toGreibach, cleaned_indexed, withoutLeftRecursion_indexed, Grammar.toGreibach,
    Grammar.withoutLeftRecursion, map_bind, map_pure, bind_assoc, pure_bind, hback]

end IndexedGrammar

end GrammarForms
