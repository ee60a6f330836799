import GrammarForms.Chomsky
import GrammarForms.CommandLine.Arguments
import GrammarForms.Greibach
import GrammarForms.NullableTable
import GrammarForms.Reading

/-!
# Runs of the Command Line

A run reads one grammar and prints the outputs asked for in order.  Each output starts from the
grammar as read and from a supply of its own, so no output depends on another.  The first output
that fails ends the run; what was printed before it stays.
-/

namespace GrammarForms.CommandLine

/-- What a run leaves: its exit status and the two texts it printed. -/
structure Report where
  status : Nat
  out : String
  err : String
deriving DecidableEq

/-- Why an input could not be read. -/
inductive ReadFailure where
  | notFound
  | isDirectory
  | notText
  | other (text : String)
deriving DecidableEq

def ReadFailure.message : ReadFailure → String
  | .notFound => "No such file or directory (os error 2)"
  | .isDirectory => "Is a directory (os error 21)"
  | .notText => "stream did not contain valid UTF-8"
  | .other text => text

/-- An error with what the run was doing when it arose. -/
structure Failure where
  context : String
  cause : String
deriving DecidableEq

def Failure.report (failure : Failure) : Report :=
  ⟨1, "", "Error: " ++ failure.context ++ "\n\nCaused by:\n    " ++ failure.cause ++ "\n"⟩

/-- The text of an output and the remarks that go with it. -/
structure Page where
  text : String
  remarks : List String
deriving DecidableEq

def Page.report (page : Page) : Report :=
  ⟨0, page.text ++ "\n", String.join (page.remarks.map (· ++ "\n"))⟩

def emptyWordRemarks (n : Normalization) : List String :=
  match n.emptyWord with
  | .absent => []
  | .kept => ["note: ε kept on start symbol " ++ n.grammar.start.toString]
  | .dropped => ["note: ε dropped from the language"]

def Page.ofNormalization (format : Format) (n : Normalization) : Page :=
  ⟨n.render format, n.unitCycles.map ("warning: " ++ ·.message) ++ emptyWordRemarks n⟩

def inContext {α : Type} (context : String) (g : Grammar) (naming : Naming α) :
    Except Failure α :=
  (naming.evalFor g).mapError fun error ↦ ⟨context, error.message⟩

def Output.page (g : Grammar) (format : Format) (policy : EmptyWordPolicy) :
    Output → Except Failure Page
  | .asRead => .ok ⟨g.listing.render format, []⟩
  | .nullable => .ok ⟨g.nullableTable.render format, []⟩
  | .simplified => .ok (.ofNormalization format (g.simplify policy))
  | .chomsky =>
    .ofNormalization format <$> inContext "CNF conversion failed" g (g.toChomsky policy)
  | .greibach =>
    .ofNormalization format <$> inContext "GNF conversion failed" g g.toGreibach
  | .leftRecursionFree =>
    (fun free ↦ ⟨free.listing.render format, []⟩) <$>
      inContext "left recursion elimination failed" g (g.withoutLeftRecursion .emptyRule)

def Report.append (first second : Report) : Report :=
  ⟨second.status, first.out ++ second.out, first.err ++ second.err⟩

def printOutputs (g : Grammar) (format : Format) (policy : EmptyWordPolicy) : List Output → Report
  | [] => ⟨0, "", ""⟩
  | output :: rest =>
    match output.page g format policy with
    | .error failure => failure.report
    | .ok page => page.report.append (printOutputs g format policy rest)

def Request.inputName (request : Request) : String :=
  request.file?.getD "stdin"

def Request.run (request : Request) (input : Except ReadFailure String) : Report :=
  match input with
  | .error failure => Failure.report ⟨"failed to read " ++ request.inputName, failure.message⟩
  | .ok text =>
    match Grammar.parse text with
    | .error error => Failure.report ⟨"invalid grammar", error.message⟩
    | .ok g => printOutputs g request.format request.policy request.outputs

def versionText : String :=
  "cfg-normal-form 0.1.0\n"

/-! The wording of the two texts that follow is this library's own.  They say which outputs and options there
are; no statement depends on how they say it. -/

def usageText : String :=
  "Usage: cfg-normal-form [OPTIONS] <OUTPUTS>...\n"

def helpText : String :=
  usageText ++ "\nOutputs, printed in order:\n" ++
    "  prod        the grammar as read\n" ++
    "  nullable    which nonterminals derive the empty string\n" ++
    "  simplified  without empty rules, unit rules and useless symbols\n" ++
    "  cnf         Chomsky normal form\n" ++
    "  gnf         Greibach normal form\n" ++
    "  elf         without left recursion\n" ++
    "\nOptions:\n" ++
    "  -f, --file <FILE>  read the grammar from a file\n" ++
    "  -l, --latex        print LaTeX\n" ++
    "  -j, --json         print JSON\n" ++
    "  -k, --keep-empty   keep the empty string on the start symbol\n" ++
    "  -h, --help         print this text\n" ++
    "  -V, --version      print the version\n"

/-- Everything a line prints; the input is read only if the line is valid. -/
def Invocation.report : Invocation → (Request → Except ReadFailure String) → Report
  | .run request, read => request.run (read request)
  | .version, _ => ⟨0, versionText, ""⟩
  | .help, _ => ⟨0, helpText, ""⟩
  | .misuse, _ => ⟨2, "", usageText⟩

end GrammarForms.CommandLine
