import CPretty.Doc.Layout
import CPretty.Grammar.SourceFile
import CPretty.Syntax.ToDoc
import CPretty.Token.Lexer

namespace CPretty

/-- A fault of a source, in its characters or in its tokens. -/
inductive SyntaxError where
  | lex (error : LexError)
  | parse (error : ParseError)
deriving DecidableEq, Repr

namespace SyntaxError

def location : SyntaxError → Location
  | .lex e => e.location
  | .parse e => e.location

def message : SyntaxError → String
  | .lex e => e.message
  | .parse e => e.message

end SyntaxError

/-- Why a source has no formatted text. -/
inductive FormatError where
  | badSource (errors : List SyntaxError)
  | unsupported (error : Unsupported)
deriving DecidableEq, Repr

def FormatError.message : FormatError → String
  | .badSource errors => "\n".intercalate (errors.map SyntaxError.message)
  | .unsupported e => e.message

/-- The tree of a source and the comments set aside. -/
structure Parsed where
  tree : Node
  comments : List Comment

/-- The tree of a source, or every fault of its characters, or the fault of its tokens. -/
def parse (source : String) (o : Options) : Except (List SyntaxError) Parsed :=
  match tokenize source with
  | .error es => .error (es.map .lex)
  | .ok stream =>
    match stream.parse o.nestingLimit with
    | .error e => .error [.parse e]
    | .ok tree => .ok ⟨tree, stream.comments⟩

def layoutDoc (source : String) (o : Options) : Except FormatError Doc :=
  match parse source o with
  | .error es => .error (.badSource es)
  | .ok parsed =>
    match parsed.tree.toDoc with
    | .error e => .error (.unsupported e)
    | .ok doc => .ok doc

def format (source : String) (o : Options) : Except FormatError String :=
  return (← layoutDoc source o).render o

end CPretty
