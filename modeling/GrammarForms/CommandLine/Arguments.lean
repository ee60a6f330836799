import GrammarForms.EmptyWord
import GrammarForms.Listing

/-!
# Arguments of the Command Line

Arguments are read from left to right, and the first that is wrong or asks for the version or the
help decides.  What only the whole line can show, an output that is missing or two formats at once,
is checked at the end.  One-letter options may be joined behind one hyphen.  The file follows its
option as the next argument or is attached to it, to the one-letter option also without a sign
between.  After a double hyphen every argument names an output.
-/

namespace GrammarForms.CommandLine

inductive Output where
  | asRead
  | nullable
  | simplified
  | chomsky
  | greibach
  | leftRecursionFree
deriving DecidableEq

def Output.ofName? : String → Option Output
  | "prod" => some .asRead
  | "nullable" => some .nullable
  | "simplified" => some .simplified
  | "cnf" => some .chomsky
  | "gnf" => some .greibach
  | "elf" => some .leftRecursionFree
  | _ => none

/-- What a valid line asks for. -/
structure Request where
  outputs : List Output
  file? : Option String
  format : Format
  policy : EmptyWordPolicy
deriving DecidableEq

inductive Invocation where
  | run (request : Request)
  | version
  | help
  | misuse
deriving DecidableEq

/-- The options and outputs read so far. -/
structure Options where
  outputs : List Output
  file? : Option String
  latex : Bool
  json : Bool
  keepEmpty : Bool
deriving DecidableEq

namespace Options

def none : Options :=
  ⟨[], .none, false, false, false⟩

def addOutput? (options : Options) (name : String) : Option Options :=
  (Output.ofName? name).map fun output ↦ { options with outputs := options.outputs ++ [output] }

/-- Each option may be given once. -/
def setLatex? (options : Options) : Option Options :=
  if options.latex then .none else some { options with latex := true }

def setJson? (options : Options) : Option Options :=
  if options.json then .none else some { options with json := true }

def setKeepEmpty? (options : Options) : Option Options :=
  if options.keepEmpty then .none else some { options with keepEmpty := true }

/-- The name of the file must not be empty. -/
def setFile? (options : Options) (file : String) : Option Options :=
  if options.file?.isSome || file.isEmpty then .none else some { options with file? := some file }

def format (options : Options) : Format :=
  if options.latex then .latex else if options.json then .json else .plain

def finish (options : Options) : Invocation :=
  if options.outputs.isEmpty || options.latex && options.json then .misuse
  else .run ⟨options.outputs, options.file?, options.format, .ofKeep options.keepEmpty⟩

end Options

/-- How one argument leaves the reading. -/
inductive Progress where
  | next (options : Options)
  | awaitFile (options : Options)
  | stop (invocation : Invocation)

def Progress.ofOption : Option Options → Progress
  | some options => .next options
  | none => .stop .misuse

/-- The value attached to a one-letter option, with or without a sign in front. -/
def attachedValue : List Char → String
  | '=' :: value => String.ofList value
  | value => String.ofList value

/-- One-letter options joined together. -/
def readLetters (options : Options) : List Char → Progress
  | [] => .next options
  | 'V' :: _ => .stop .version
  | 'h' :: _ => .stop .help
  | ['f'] => .awaitFile options
  | 'f' :: value => .ofOption (options.setFile? (attachedValue value))
  | letter :: rest =>
    let set? :=
      if letter = 'l' then options.setLatex?
      else if letter = 'j' then options.setJson?
      else if letter = 'k' then options.setKeepEmpty?
      else none
    match set? with
    | some options => readLetters options rest
    | none => .stop .misuse

/-- An option with a long name; only the file takes a value. -/
def readLong (options : Options) (text : List Char) : Progress :=
  match String.ofList (text.takeWhile (· ≠ '=')), text.dropWhile (· ≠ '=') with
  | "version", [] => .stop .version
  | "help", [] => .stop .help
  | "latex", [] => .ofOption options.setLatex?
  | "json", [] => .ofOption options.setJson?
  | "keep-empty", [] => .ofOption options.setKeepEmpty?
  | "file", [] => .awaitFile options
  | "file", _ :: value => .ofOption (options.setFile? (String.ofList value))
  | _, _ => .stop .misuse

def readArgument (options : Options) (argument : String) : Progress :=
  match argument.toList with
  | '-' :: '-' :: text => readLong options text
  | '-' :: letter :: letters => readLetters options (letter :: letters)
  | _ => .ofOption (options.addOutput? argument)

/-- Whether the next argument can be the file of an option; a lone hyphen can. -/
def isValue (argument : String) : Bool :=
  argument == "-" || argument.toList.head? != some '-'

def readOutputs (options : Options) : List String → Invocation
  | [] => options.finish
  | name :: rest =>
    match options.addOutput? name with
    | some options => readOutputs options rest
    | none => .misuse

def readArguments (options : Options) : List String → Invocation
  | [] => options.finish
  | "--" :: names => readOutputs options names
  | argument :: rest =>
    match readArgument options argument with
    | .next options => readArguments options rest
    | .stop invocation => invocation
    | .awaitFile options =>
      match rest with
      | [] => .misuse
      | file :: rest =>
        match if isValue file then options.setFile? file else none with
        | some options => readArguments options rest
        | none => .misuse

def Invocation.ofArguments (arguments : List String) : Invocation :=
  readArguments .none arguments

end GrammarForms.CommandLine
