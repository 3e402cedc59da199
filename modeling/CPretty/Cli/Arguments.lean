import CPretty.Options.Basic

namespace CPretty.Cli

/-- What to print about a source. -/
inductive Action where
  | ast | doc | fmt | tokens
deriving DecidableEq, Repr

namespace Action

def all : List Action := [.ast, .doc, .fmt, .tokens]

def name : Action → String
  | .ast => "ast"
  | .doc => "doc"
  | .fmt => "fmt"
  | .tokens => "tokens"

def about : Action → String
  | .ast => "Print the syntax tree as JSON"
  | .doc => "Print the layout instructions"
  | .fmt => "Print the formatted source"
  | .tokens => "List tokens and side-channel comments"

def ofName? (name : String) : Option Action := all.find? (·.name == name)

end Action

/-- A word of 64 bits in decimal digits, maybe after a plus sign. -/
def natural? (text : String) : Option Nat :=
  let digits := match text.toList with
    | '+' :: cs => cs
    | cs => cs
  if !digits.isEmpty && digits.all (fun c => '0' ≤ c && c ≤ '9') then
    let n := digits.foldl (fun n c => n * 10 + (c.toNat - '0'.toNat)) 0
    if n < Options.wordSize then some n else none
  else none

/-- The options that take a value. -/
inductive Setter where
  | config | width | tabWidth
deriving DecidableEq, Repr

namespace Setter

def name : Setter → String
  | .config => "config"
  | .width => "width"
  | .tabWidth => "tab-width"

def ofName? (name : String) : Option Setter := [config, width, tabWidth].find? (·.name == name)

end Setter

/-- The options given on one side of the command name. -/
structure Flags where
  config : Option String := none
  width : Option Nat := none
  tabWidth : Option Nat := none
  verbose : Bool := false
deriving DecidableEq, Repr

namespace Flags

/-- The options after the command name win over those before it. -/
def override (before after : Flags) : Flags where
  config := after.config <|> before.config
  width := after.width <|> before.width
  tabWidth := after.tabWidth <|> before.tabWidth
  verbose := before.verbose || after.verbose

/-- The options with one more value, which none of them has yet. -/
def set? (flags : Flags) (value : String) : Setter → Option Flags
  | .config =>
    if flags.config.isNone && !value.isEmpty then some { flags with config := some value }
    else none
  | .width => do
    let n ← natural? value
    if flags.width.isNone then some { flags with width := some n } else none
  | .tabWidth => do
    let n ← natural? value
    if flags.tabWidth.isNone then some { flags with tabWidth := some n } else none

def setVerbose? (flags : Flags) : Option Flags :=
  if flags.verbose then none else some { flags with verbose := true }

end Flags

structure Invocation where
  action : Action
  input : String
  flags : Flags
deriving DecidableEq, Repr

/-- What a help text is about. -/
inductive Topic where
  | program
  | command (action : Action)
  /-- The command that prints help texts. -/
  | help
deriving DecidableEq, Repr

/-- What a command line asks for. -/
inductive Request where
  | run (invocation : Invocation)
  | version
  | help (topic : Topic)
deriving DecidableEq, Repr

/-- How far the reading of a command line has come. -/
inductive Stage where
  | start
  | command (action : Action)
  | help (topic : Topic)
deriving DecidableEq, Repr

/-- What the arguments read so far have given. The value of an option is checked when the next
option comes, so that the last value before the command name is checked after all that follows the
name, and never when that asks for help. -/
structure Reading where
  stage : Stage := .start
  /-- The options before the command name. -/
  before : Flags := {}
  /-- The last option before the command name, while its value is not checked. -/
  held : Option (Setter × String) := none
  /-- The options after the command name. -/
  after : Flags := {}
  /-- An option that the next argument is the value of. -/
  pending : Option Setter := none
  input : Option String := none
  /-- Whether the options have ended. -/
  ended : Bool := false
deriving DecidableEq, Repr

/-- Why the reading of a command line stops early. -/
inductive Stop where
  | misuse
  | answer (request : Request)
deriving DecidableEq, Repr

def orMisuse {α : Type} : Option α → Except Stop α
  | some a => .ok a
  | none => .error .misuse

namespace Reading

def action? (r : Reading) : Option Action :=
  match r.stage with
  | .command action => some action
  | _ => none

/-- The options on the side of the command name that is being read. -/
def flags (r : Reading) : Flags := if r.action?.isSome then r.after else r.before

def withFlags (r : Reading) (flags : Flags) : Reading :=
  if r.action?.isSome then { r with after := flags } else { r with before := flags }

def set (r : Reading) (setter : Setter) (value : String) : Except Stop Reading :=
  return r.withFlags (← orMisuse (r.flags.set? value setter))

/-- Gives an option the argument after it as its value, which before the command name is held. -/
def give (r : Reading) (setter : Setter) (value : String) : Except Stop Reading :=
  if r.action?.isSome then { r with pending := none }.set setter value
  else .ok { r with pending := none, held := some (setter, value) }

def settle (r : Reading) : Except Stop Reading :=
  match r.held with
  | some (setter, value) =>
    return { r with before := ← orMisuse (r.before.set? value setter), held := none }
  | none => .ok r

def setVerbose (r : Reading) : Except Stop Reading :=
  return r.withFlags (← orMisuse r.flags.setVerbose?)

def version (r : Reading) : Except Stop Reading :=
  .error (if r.action?.isNone then .answer .version else .misuse)

def help (r : Reading) : Except Stop Reading :=
  .error (.answer (.help (r.action?.elim .program .command)))

/-- A long option, after its two dashes; its value may follow an equals sign. -/
def long (r : Reading) (cs : List Char) : Except Stop Reading :=
  let name := String.ofList (cs.takeWhile (· != '='))
  match cs.dropWhile (· != '='), Setter.ofName? name with
  | _ :: value, some setter => r.set setter (String.ofList value)
  | _ :: _, none => .error .misuse
  | [], some setter => .ok { r with pending := some setter }
  | [], none =>
    if name == "verbose" then r.setVerbose
    else if name == "help" then r.help
    else if name == "version" then r.version
    else .error .misuse

def short (r : Reading) : List Char → Except Stop Reading
  | [] => .ok r
  | c :: cs => do
    if c = 'v' then short (← r.setVerbose) cs
    else if c = 'h' then r.help
    else if c = 'V' then r.version
    else .error .misuse

/-- An argument that is no option: the command name, then the input or the topic of a help text. -/
def positional (r : Reading) (arg : String) : Except Stop Reading :=
  match r.stage with
  | .start =>
    if arg == "help" then .ok { r with stage := .help .program, ended := true }
    else return { r with stage := .command (← orMisuse (Action.ofName? arg)) }
  | .command _ => if r.input.isNone then .ok { r with input := some arg } else .error .misuse
  | .help .program =>
    if arg == "help" then .ok { r with stage := .help .help }
    else return { r with stage := .help (.command (← orMisuse (Action.ofName? arg))) }
  | .help _ => .error .misuse

/-- The end of the options, which comes after the command name. -/
def close (r : Reading) : Except Stop Reading :=
  if r.action?.isSome then .ok { r with ended := true } else .error .misuse

/-- The reading before an option: all values on this side of the command name are checked. -/
def beforeOption (r : Reading) : Except Stop Reading :=
  if r.action?.isSome then .ok r else r.settle

/-- Whether an argument has the form of an option, so that it is no value. -/
def isOption (arg : String) : Bool :=
  match arg.toList with
  | '-' :: _ :: _ => true
  | _ => false

def step (r : Reading) (arg : String) : Except Stop Reading :=
  match r.pending with
  | some setter => if isOption arg then .error .misuse else r.give setter arg
  | none =>
    if r.ended then r.positional arg
    else
      match arg.toList with
      | ['-', '-'] => r.close
      | '-' :: '-' :: cs => do (← r.beforeOption).long cs
      | '-' :: c :: cs => do (← r.beforeOption).short (c :: cs)
      | _ => r.positional arg

def finish (r : Reading) : Except Stop Request :=
  match r.pending, r.stage with
  | none, .command action => do
    let r ← r.settle
    return .run ⟨action, ← orMisuse r.input, r.before.override r.after⟩
  | none, .help topic => .ok (.help topic)
  | _, _ => .error .misuse

end Reading

/-- The request that a command line makes, or nothing when it is not one. -/
def request? (args : List String) : Option Request :=
  match args.foldlM Reading.step {} >>= Reading.finish with
  | .ok request | .error (.answer request) => some request
  | .error .misuse => none

end CPretty.Cli
