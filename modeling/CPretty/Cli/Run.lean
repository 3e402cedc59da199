import CPretty.Cli.Arguments
import CPretty.Doc.Dump
import CPretty.Format
import CPretty.Options.Toml
import CPretty.Syntax.Json

namespace CPretty.Cli

/-- What stands at a path. -/
inductive Entry where
  | file (bytes : ByteArray)
  | directory
  | missing
  /-- A part of the path is a file and not a directory. -/
  | obstructed
  /-- A part of the path is longer than a name may be. -/
  | tooLong

/-- Why a file cannot be read as text. -/
inductive ReadError where
  | missing | directory | obstructed | tooLong | notText
deriving DecidableEq, Repr

def ReadError.message : ReadError → String
  | .missing => "No such file or directory (os error 2)"
  | .directory => "Is a directory (os error 21)"
  | .obstructed => "Not a directory (os error 20)"
  | .tooLong => "File name too long (os error 36)"
  | .notText => "stream did not contain valid UTF-8"

def Entry.read : Entry → Except ReadError String
  | .file bytes =>
    match String.fromUTF8? bytes with
    | some text => .ok text
    | none => .error .notText
  | .directory => .error .directory
  | .missing => .error .missing
  | .obstructed => .error .obstructed
  | .tooLong => .error .tooLong

/-- The exit code of a command and what it prints. -/
structure Outcome where
  code : Nat
  stdout : String := ""
  stderr : String := ""
deriving DecidableEq, Repr

def Outcome.failure (message : String) : Outcome :=
  { code := 1, stderr := "Error: " ++ message ++ "\n" }

/-- The options of a command: those of the settings file, unless the command line gives others. -/
def Flags.options (flags : Flags) (entry : String → Entry) : Except String Options := do
  let base ←
    match flags.config with
    | none => pure {}
    | some path =>
      match (entry path).read with
      | .error e => .error ("cannot read config " ++ path ++ ": " ++ e.message)
      | .ok source => (Options.ofToml source).mapError SettingsError.message
  let chosen : Options := { base with
    printWidth := flags.width.getD base.printWidth
    tabWidth := flags.tabWidth.getD base.tabWidth }
  chosen.validated.mapError SettingsError.message

/-- A source and the name it is reported under. -/
structure Input where
  text : String
  origin : String

/-- The input of a command: the file of that name, or the argument itself where there is none. -/
def readInput (argument : String) (entry : String → Entry) : Except String Input :=
  match entry argument with
  | .file bytes =>
    match (Entry.file bytes).read with
    | .ok text => .ok ⟨text, argument⟩
    | .error e => .error e.message
  | _ => .ok ⟨argument, "<inline>"⟩

def padLeft (width : Nat) (s : String) : String :=
  String.ofList (List.replicate (width - s.length) ' ') ++ s

def padRight (width : Nat) (s : String) : String :=
  s ++ String.ofList (List.replicate (width - s.length) ' ')

def listing (loc : Location) (kind text : String) : String :=
  padLeft 4 (toString loc.line) ++ ":" ++ padRight 4 (toString loc.column) ++ " " ++
    padRight 14 kind ++ " " ++ text ++ "\n"

/-- The tokens of a stream and then its comments, a line each. -/
def listingAll (s : TokenStream) : String :=
  String.join (s.terminated.map fun t => listing t.location t.kind.name t.text) ++
    String.join (s.comments.map fun c => listing c.location c.kind.name c.text)

def report : FormatError → String
  | .badSource errors => String.join (errors.map fun e => e.message ++ "\n")
  | .unsupported e => "Internal error: " ++ e.message ++ "\n"

def present (action : Action) (tree : Node) (o : Options) : Except FormatError String :=
  match action with
  | .ast => return tree.toJson.pretty ++ "\n"
  | .doc => return (← tree.toDoc.mapError .unsupported).dump ++ "\n"
  | .fmt => return (← tree.toDoc.mapError .unsupported).render o
  | .tokens => return ""

/-- The outcome of a command on an input. With `verbose` the progress is noted as well. -/
def process (action : Action) (verbose : Bool) (input : Input) (o : Options) : Outcome :=
  let note (s : String) : String := if verbose then s ++ "\n" else ""
  let reading := note
    ("Reading " ++ input.origin ++ " (" ++ toString input.text.utf8ByteSize ++ " bytes)...")
  match action with
  | .tokens =>
    match tokenize input.text with
    | .error es => { code := 1, stderr := reading ++ report (.badSource (es.map .lex)) }
    | .ok s =>
      { code := 0
        stdout := listingAll s
        stderr := reading ++ note (toString s.terminated.length ++ " tokens, " ++
          toString s.comments.length ++ " comments") }
  | action =>
    match parse input.text o with
    | .error es => { code := 1, stderr := reading ++ report (.badSource es) }
    | .ok parsed =>
      let progress := reading ++ note ("Parsed " ++ input.origin ++ " (" ++
        toString parsed.comments.length ++ " comments set aside)")
      match present action parsed.tree o with
      | .error e => { code := 1, stderr := progress ++ report e }
      | .ok text => { code := 0, stdout := text, stderr := progress ++ note "Done." }

def Invocation.outcome (i : Invocation) (entry : String → Entry) : Outcome :=
  match i.flags.options entry with
  | .error message => .failure message
  | .ok o =>
    match readInput i.input entry with
    | .error message => .failure message
    | .ok input => process i.action i.flags.verbose input o

/-- The files that a request names, and an input that may be one. -/
def Request.paths : Request → List String
  | .run i => i.flags.config.toList ++ [i.input]
  | _ => []

def versionText : String := "cfmt 0.1.0\n"

/-- One line of a help text: a name in a column of the given width, and what it is about. -/
def helpLine (width : Nat) (name about : String) : String :=
  "  " ++ padRight width name ++ "  " ++ about ++ "\n"

def commonOptions : List (String × String) :=
  [("    --config <FILE>", "TOML file with formatting options"),
    ("    --width <WIDTH>", "Print width, overrides the config file"),
    ("    --tab-width <TAB_WIDTH>", "Spaces per indentation level, overrides the config file"),
    ("-v, --verbose", "Report pipeline progress on stderr"),
    ("-h, --help", "Print help")]

def helpLines (width : Nat) (lines : List (String × String)) : String :=
  String.join (lines.map fun (name, about) => helpLine width name about)

def helpAbout : String := "Print this message or the help of the given subcommand(s)"

def helpText : Topic → String
  | .program =>
    "Parse and pretty-print C source\n\nUsage: cfmt [OPTIONS] <COMMAND>\n\nCommands:\n" ++
      helpLines 6 (Action.all.map (fun a => (a.name, a.about)) ++ [("help", helpAbout)]) ++
      "\nOptions:\n" ++ helpLines 27 (commonOptions ++ [("-V, --version", "Print version")])
  | .command action =>
    action.about ++ "\n\nUsage: cfmt " ++ action.name ++ " [OPTIONS] <INPUT>\n\nArguments:\n" ++
      helpLine 7 "<INPUT>" "" ++ "\nOptions:\n" ++ helpLines 27 commonOptions
  | .help =>
    helpAbout ++ "\n\nUsage: cfmt help [COMMAND]...\n\nArguments:\n" ++
      helpLine 12 "[COMMAND]..." "Print help for the subcommand(s)"

def Request.outcome (r : Request) (entry : String → Entry) : Outcome :=
  match r with
  | .run i => i.outcome entry
  | .version => { code := 0, stdout := versionText }
  | .help topic => { code := 0, stdout := helpText topic }

def usageError : Outcome :=
  { code := 2, stderr := "Usage: cfmt [OPTIONS] <COMMAND>\n\nFor more information, try '--help'.\n" }

def run (args : List String) (entry : String → Entry) : Outcome :=
  match request? args with
  | none => usageError
  | some request => request.outcome entry

end CPretty.Cli
