import CPretty.Source.Location
import CPretty.Token.Category

namespace CPretty

/-- A token with its source text and the place of its first character. -/
structure Token where
  kind : Kind
  text : String
  location : Location
deriving DecidableEq, Repr

namespace Token

/-- The place of the last character, or of the token itself when its text is empty. -/
def lastLocation (t : Token) : Location :=
  t.location.after t.text.toList.dropLast

def span (t : Token) : Span := ⟨t.location, t.lastLocation⟩

def describe (t : Token) : String :=
  match t.kind with
  | .eof => "end of file"
  | .ident => "identifier '" ++ t.text ++ "'"
  | .constant => "constant " ++ t.text
  | .stringLiteral => "string literal " ++ t.text
  | _ => "'" ++ t.text ++ "'"

/-- The marker that stands after the last token of a source. -/
def eof (location : Location) : Token := ⟨.eof, "", location⟩

end Token

/-- The kinds of text that the grammar does not see. -/
inductive CommentKind where
  | line | block | directive
deriving DecidableEq, Repr

def CommentKind.name : CommentKind → String
  | .line => "Line"
  | .block => "Block"
  | .directive => "Directive"

/-- A comment or a preprocessor directive, kept as written. -/
structure Comment where
  kind : CommentKind
  text : String
  location : Location
deriving DecidableEq, Repr

/-- The tokens of a source, the comments between them and the place just past its end. -/
structure TokenStream where
  tokens : List Token
  comments : List Comment
  finish : Location
deriving DecidableEq, Repr

def TokenStream.terminated (s : TokenStream) : List Token :=
  s.tokens ++ [Token.eof s.finish]

end CPretty
