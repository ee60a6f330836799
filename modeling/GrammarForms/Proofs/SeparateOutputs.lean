import GrammarForms.CommandLine.Run

/-!
# Outputs on Their Own

Each output of a command line can be asked for alone, by a line with the same options.  The run for
several outputs prints what the runs for the single ones print, one after another.  The first output that
fails on its own ends the run: what stands before it is printed in full, then its error, and nothing of
what follows.
-/

namespace GrammarForms

/-! ## Command lines for one output -/

def Format.arguments : Format → List String
  | .plain => []
  | .latex => ["--latex"]
  | .json => ["--json"]

def EmptyWordPolicy.arguments : EmptyWordPolicy → List String
  | .drop => []
  | .keepAtStart => ["--keep-empty"]

namespace CommandLine

def Output.name : Output → String
  | .asRead => "prod"
  | .nullable => "nullable"
  | .simplified => "simplified"
  | .chomsky => "cnf"
  | .greibach => "gnf"
  | .leftRecursionFree => "elf"

namespace Request

/-- The request with one output in place of all. -/
def only (request : Request) (output : Output) : Request :=
  { request with outputs := [output] }

def fileArguments (request : Request) : List String :=
  (request.file?.map ("--file=" ++ ·)).toList

/-- A command line that asks for one output with the options of the request. -/
def lineFor (request : Request) (output : Output) : List String :=
  request.fileArguments ++ (request.format.arguments ++ (request.policy.arguments ++ [output.name]))

end Request

section

variable {options : Options} {rest : List String} {request : Request}

theorem readArguments_latex (h : options.latex = false) :
    readArguments options ("--latex" :: rest) = readArguments { options with latex := true } rest := by
  have hread : readArgument options "--latex" = .ofOption options.setLatex? := rfl
  rw [readArguments, hread, Options.setLatex?, h]
  · rfl
  · decide

theorem readArguments_json (h : options.json = false) :
    readArguments options ("--json" :: rest) = readArguments { options with json := true } rest := by
  have hread : readArgument options "--json" = .ofOption options.setJson? := rfl
  rw [readArguments, hread, Options.setJson?, h]
  · rfl
  · decide

theorem readArguments_keepEmpty (h : options.keepEmpty = false) :
    readArguments options ("--keep-empty" :: rest) =
      readArguments { options with keepEmpty := true } rest := by
  have hread : readArgument options "--keep-empty" = .ofOption options.setKeepEmpty? := rfl
  rw [readArguments, hread, Options.setKeepEmpty?, h]
  · rfl
  · decide

theorem readArguments_file {file : String} (h : options.file? = none) (hfile : file ≠ "") :
    readArguments options (("--file=" ++ file) :: rest) =
      readArguments { options with file? := some file } rest := by
  have hread : readArgument options ("--file=" ++ file) = .ofOption (options.setFile? file) := by
    simp [readArgument, readLong]
  have hdashes : "--file=" ++ file ≠ "--" := by
    intro e
    have hlength := congrArg String.length e
    rw [String.length_append] at hlength
    have hprefix : "--file=".length = 7 := by decide
    have hshort : "--".length = 2 := by decide
    omega
  rw [readArguments, hread, Options.setFile?, h]
  · simp [hfile, Progress.ofOption]
  · exact hdashes

theorem readArguments_format (format : Format) (hlatex : options.latex = false)
    (hjson : options.json = false) :
    readArguments options (format.arguments ++ rest) =
      readArguments { options with latex := format = .latex, json := format = .json } rest := by
  obtain ⟨outputs, file?, latex, json, keepEmpty⟩ := options
  subst hlatex hjson
  cases format with
  | plain => rfl
  | latex => exact readArguments_latex rfl
  | json => exact readArguments_json rfl

/-- The policy takes one argument or none. -/
theorem readArguments_policy (policy : EmptyWordPolicy) (h : options.keepEmpty = false) :
    readArguments options (policy.arguments ++ rest) =
      readArguments { options with keepEmpty := policy = .keepAtStart } rest := by
  obtain ⟨outputs, file?, latex, json, keepEmpty⟩ := options
  subst h
  cases policy with
  | drop => rfl
  | keepAtStart => exact readArguments_keepEmpty rfl

theorem readArguments_name (output : Output) :
    readArguments options [output.name] =
      Options.finish { options with outputs := options.outputs ++ [output] } := by
  cases output <;> rfl

/-- The line for one output asks for that output. -/
theorem ofArguments_lineFor (hfile : request.file? ≠ some "") (output : Output) :
    Invocation.ofArguments (request.lineFor output) = .run (request.only output) := by
  obtain ⟨outputs, file?, format, policy⟩ := request
  have hnamed : Invocation.ofArguments (Request.lineFor ⟨outputs, file?, format, policy⟩ output) =
      readArguments { Options.none with file? := file? }
        (format.arguments ++ (policy.arguments ++ [output.name])) := by
    cases file? with
    | none => rfl
    | some file => exact readArguments_file rfl fun e ↦ hfile (congrArg some e)
  rw [hnamed, readArguments_format format rfl rfl, readArguments_policy policy rfl, readArguments_name]
  cases format <;> cases policy <;> rfl

end

/-! ## Valid command lines -/

def Options.NamesFile (options : Options) : Prop :=
  options.file? ≠ some ""

/-- No empty file name has been taken, and only the end of the line can make a request. -/
def Progress.NamesFile : Progress → Prop
  | .next options => options.NamesFile
  | .awaitFile options => options.NamesFile
  | .stop invocation => ∀ request, invocation ≠ .run request

namespace Options

variable {options next : Options} {names : List String} {request : Request}

theorem NamesFile.addOutput? (valid : options.NamesFile) {name : String}
    (h : options.addOutput? name = some next) : next.NamesFile := by
  obtain ⟨output, _, rfl⟩ := Option.map_eq_some_iff.1 h
  exact valid

theorem NamesFile.set? (valid : options.NamesFile)
    (h : options.setLatex? = some next ∨ options.setJson? = some next ∨
      options.setKeepEmpty? = some next) : next.NamesFile := by
  rcases h with h | h | h
  all_goals
    obtain ⟨_, e⟩ := Option.ite_none_left_eq_some.1 h
    exact Option.some.inj e ▸ valid

theorem namesFile_of_setFile? {file : String} (h : options.setFile? file = some next) :
    next.NamesFile := by
  obtain ⟨hfile, e⟩ := Option.ite_none_left_eq_some.1 h
  obtain rfl := Option.some.inj e
  intro hempty
  obtain rfl := Option.some.inj hempty
  simp at hfile

theorem namesFile_ofOption {options? : Option Options}
    (h : ∀ options, options? = some options → options.NamesFile) :
    (Progress.ofOption options?).NamesFile := by
  cases options? with
  | none => exact fun request e ↦ by cases e
  | some options => exact h options rfl

theorem NamesFile.readLetters (valid : options.NamesFile) (letters : List Char) :
    (readLetters options letters).NamesFile := by
  fun_induction CommandLine.readLetters options letters with
  | case1 => exact valid
  | case2 => exact fun request e ↦ by cases e
  | case3 => exact fun request e ↦ by cases e
  | case4 => exact valid
  | case5 => exact namesFile_ofOption fun _ ↦ namesFile_of_setFile?
  | case6 options letter rest _ _ _ _ set? next hset ih =>
    refine ih (valid.set? ?_)
    simp only [set?] at hset
    split at hset
    · exact Or.inl hset
    split at hset
    · exact Or.inr (Or.inl hset)
    split at hset
    · exact Or.inr (Or.inr hset)
    · cases hset
  | case7 => exact fun request e ↦ by cases e

theorem NamesFile.readLong (valid : options.NamesFile) (text : List Char) :
    (readLong options text).NamesFile := by
  unfold CommandLine.readLong
  split
  · exact fun request e ↦ by cases e
  · exact fun request e ↦ by cases e
  · exact namesFile_ofOption fun _ h ↦ valid.set? (Or.inl h)
  · exact namesFile_ofOption fun _ h ↦ valid.set? (Or.inr (Or.inl h))
  · exact namesFile_ofOption fun _ h ↦ valid.set? (Or.inr (Or.inr h))
  · exact valid
  · exact namesFile_ofOption fun _ ↦ namesFile_of_setFile?
  · exact fun request e ↦ by cases e

/-- No argument makes the name of the file empty. -/
theorem NamesFile.readArgument (valid : options.NamesFile) (argument : String) :
    (readArgument options argument).NamesFile := by
  unfold CommandLine.readArgument
  split
  · exact valid.readLong _
  · exact valid.readLetters _
  · exact namesFile_ofOption fun _ h ↦ valid.addOutput? h

theorem NamesFile.finish (valid : options.NamesFile) (h : options.finish = .run request) :
    request.file? ≠ some "" := by
  unfold Options.finish at h
  split at h
  · cases h
  · cases h
    exact valid

theorem NamesFile.readOutputs (valid : options.NamesFile)
    (h : readOutputs options names = .run request) : request.file? ≠ some "" := by
  fun_induction CommandLine.readOutputs options names with
  | case1 => exact valid.finish h
  | case2 options name rest next hadd ih => exact ih (valid.addOutput? hadd) h
  | case3 => cases h

theorem NamesFile.readArguments (valid : options.NamesFile) {arguments : List String}
    (h : readArguments options arguments = .run request) : request.file? ≠ some "" := by
  fun_induction CommandLine.readArguments options arguments with
  | case1 => exact valid.finish h
  | case2 => exact valid.readOutputs h
  | case3 options argument rest _ next hread ih =>
    have hnext := valid.readArgument argument
    rw [hread] at hnext
    exact ih hnext h
  | case4 options argument rest _ invocation hread =>
    have hstop := valid.readArgument argument
    rw [hread] at hstop
    exact absurd h (hstop request)
  | case5 => cases h
  | case6 options argument _ awaiting hread file rest next hset ih =>
    exact ih (namesFile_of_setFile? (Option.ite_none_right_eq_some.1 hset).2) h
  | case7 => cases h

end Options

/-- A command line that is accepted names no file without a name. -/
theorem file?_ne_of_ofArguments {arguments : List String} {request : Request}
    (line : Invocation.ofArguments arguments = .run request) : request.file? ≠ some "" := by
  have valid : Options.none.NamesFile := fun h ↦ by cases h
  exact valid.readArguments line

/-! ## Reports -/

/-- What a command line prints if its input is the text. -/
def printed (arguments : List String) (text : String) : Report :=
  (Invocation.ofArguments arguments).report fun _ ↦ .ok text

/-- What the command line for one output prints. -/
def Request.printedFor (request : Request) (text : String) (output : Output) : Report :=
  printed (request.lineFor output) text

theorem foldr_append (reports : List Report) (last : Report) :
    reports.foldr Report.append last =
      ⟨last.status, String.join (reports.map (·.out)) ++ last.out,
        String.join (reports.map (·.err)) ++ last.err⟩ := by
  induction reports with
  | nil => simp
  | cons report rest ih => simp [ih, Report.append, String.append_assoc]

section

variable {g : Grammar} {format : Format} {policy : EmptyWordPolicy} {output : Output}
  {earlier later : List Output} {request : Request} {arguments : List String} {text : String}

theorem printOutputs_singleton {page : Page} (h : output.page g format policy = .ok page) :
    printOutputs g format policy [output] = page.report := by
  simp [printOutputs, h, Report.append, Page.report]

theorem printOutputs_of_error {failure : Failure} (h : output.page g format policy = .error failure) :
    printOutputs g format policy (output :: later) = failure.report := by
  simp only [printOutputs, h]

/-- After an output that succeeds the others are printed as if they had been asked for alone. -/
theorem printOutputs_cons (h : (printOutputs g format policy [output]).status = 0) :
    printOutputs g format policy (output :: later) =
      (printOutputs g format policy [output]).append (printOutputs g format policy later) := by
  cases hpage : output.page g format policy with
  | ok page =>
    rw [printOutputs_singleton hpage]
    simp only [printOutputs, hpage]
  | error failure =>
    rw [printOutputs_of_error hpage] at h
    cases h

/-- Outputs that succeed alone print what they print alone, whatever follows them. -/
theorem printOutputs_append (h : ∀ output ∈ earlier, (printOutputs g format policy [output]).status = 0) :
    printOutputs g format policy (earlier ++ later) =
      (earlier.map fun output ↦ printOutputs g format policy [output]).foldr Report.append
        (printOutputs g format policy later) := by
  induction earlier with
  | nil => rfl
  | cons output rest ih =>
    have ⟨houtput, hrest⟩ := List.forall_mem_cons.1 h
    rw [List.cons_append, printOutputs_cons houtput, ih hrest, List.map_cons, List.foldr_cons]

/-- With a readable grammar, a run prints the outputs it was asked for. -/
theorem printed_eq (line : Invocation.ofArguments arguments = .run request)
    (read : Grammar.parse text = .ok g) :
    printed arguments text = printOutputs g request.format request.policy request.outputs := by
  simp only [printed, line, Invocation.report, Request.run, read]

/-! ## Main result -/

/-- If each output succeeds alone, the run prints what the single runs print, one after another.  Otherwise
it prints that for the outputs before the first that fails alone, and then the error of that one. -/
theorem printed_eq_append_printedFor (line : Invocation.ofArguments arguments = .run request)
    (read : Grammar.parse text = .ok g) :
    (∀ output ∈ request.outputs,
      Invocation.ofArguments (request.lineFor output) = .run (request.only output)) ∧
    ((∀ output ∈ request.outputs, (request.printedFor text output).status = 0) →
      printed arguments text =
        ⟨0, String.join (request.outputs.map fun output ↦ (request.printedFor text output).out),
          String.join (request.outputs.map fun output ↦ (request.printedFor text output).err)⟩) ∧
    ∀ earlier failing later, request.outputs = earlier ++ failing :: later →
      (∀ output ∈ earlier, (request.printedFor text output).status = 0) →
      (request.printedFor text failing).status ≠ 0 →
      ∃ failure : Failure, request.printedFor text failing = failure.report ∧
        printed arguments text =
          ⟨1, String.join (earlier.map fun output ↦ (request.printedFor text output).out),
            String.join (earlier.map fun output ↦ (request.printedFor text output).err) ++
              failure.report.err⟩ := by
  -- An empty file name is misuse, so the single lines can name the file of the request.
  have hfile := file?_ne_of_ofArguments line
  have halone (output : Output) : request.printedFor text output =
      printOutputs g request.format request.policy [output] :=
    printed_eq (ofArguments_lineFor hfile output) read
  simp only [halone, printed_eq line read]
  refine ⟨fun output _ ↦ ofArguments_lineFor hfile output, fun h ↦ ?_, ?_⟩
  · rw [← List.append_nil request.outputs, printOutputs_append h, foldr_append]
    simp [printOutputs, Function.comp_def]
  · intro earlier failing later houtputs h hfailing
    -- What fails alone gives no page, and the run goes no further.
    cases hpage : failing.page g request.format request.policy with
    | ok page =>
      rw [printOutputs_singleton hpage] at hfailing
      exact absurd rfl hfailing
    | error failure =>
      refine ⟨failure, printOutputs_of_error hpage, ?_⟩
      rw [houtputs, printOutputs_append h, printOutputs_of_error hpage, foldr_append]
      simp [Failure.report, Function.comp_def]

end

def alphabet : String :=
  "S → abcdefghijklmnopqrstuvwxyz"

def alphabetical : Grammar :=
  ⟨[⟨'S', ["abcdefghijklmnopqrstuvwxyz".toList.map .terminal]⟩], 'S'⟩

/-- Two outputs that succeed, and three of which the second needs more names than there are. -/
theorem printed_eq_append_printedFor_alphabet :
    printed ["-k", "prod", "elf"] alphabet =
      ⟨0, (printed ["--keep-empty", "prod"] alphabet).out ++
        (printed ["--keep-empty", "elf"] alphabet).out, ""⟩ ∧
    printed ["-k", "prod", "cnf", "elf"] alphabet =
      ⟨1, (printed ["--keep-empty", "prod"] alphabet).out,
        (printed ["--keep-empty", "cnf"] alphabet).err⟩ := by
  have read : Grammar.parse alphabet = .ok alphabetical := by rfl
  constructor
  · have line : Invocation.ofArguments ["-k", "prod", "elf"] =
        .run ⟨[.asRead, .leftRecursionFree], none, .plain, .keepAtStart⟩ := by decide +kernel
    have ⟨_, hwhole, _⟩ := printed_eq_append_printedFor line read
    rw [hwhole (by decide +kernel)]
    decide +kernel
  · have line : Invocation.ofArguments ["-k", "prod", "cnf", "elf"] =
        .run ⟨[.asRead, .chomsky, .leftRecursionFree], none, .plain, .keepAtStart⟩ := by decide +kernel
    have ⟨_, _, hfirst⟩ := printed_eq_append_printedFor line read
    have ⟨failure, halone, hwhole⟩ := hfirst [.asRead] .chomsky [.leftRecursionFree] rfl
      (by decide +kernel) (by decide +kernel)
    have herr : (printed ["--keep-empty", "cnf"] alphabet).err = failure.report.err :=
      congrArg Report.err halone
    have hquiet : (printed ["--keep-empty", "prod"] alphabet).err = "" := by decide +kernel
    rw [hwhole, herr, ← String.empty_append (s := failure.report.err), ← hquiet]
    rfl

end CommandLine

end GrammarForms
