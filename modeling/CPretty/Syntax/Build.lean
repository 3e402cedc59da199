import CPretty.Syntax.Basic
import CPretty.Token.Basic

namespace CPretty

def Node.between (first last : Span) (shape : Shape Node) : Node := ⟨first.through last, shape⟩

namespace Token

def leaf (t : Token) (shape : Shape Node) : Node := ⟨t.span, shape⟩

def identNode (t : Token) : Node := t.leaf (.ident t.text)

def keywordNode (t : Token) : Node := t.leaf (.keyword t.text)

/-- The texts of several tokens with a space between each two. -/
def texts (ts : List Token) : String := " ".intercalate (ts.map Token.text)

end Token

namespace Node

/-- The range of a list of nodes, or `otherwise` when there are none. -/
def spanOf (ns : List Node) (otherwise : Span) : Span :=
  match ns.head?, ns.getLast? with
  | some first, some last => first.span.through last.span
  | _, _ => otherwise

/-- A list of one is its element; any other list is wrapped. -/
def collect (wrap : List Node → Shape Node) : List Node → Node
  | [n] => n
  | ns => ⟨spanOf ns default, wrap ns⟩

def spanOr (n : Option Node) (otherwise : Span) : Span := (n.map span).getD otherwise

def nonempty? (ns : List Node) : Option (List Node) := if ns.isEmpty then none else some ns

def binary (lhs : Node) (op : Token) (rhs : Node) : Node :=
  between lhs.span rhs.span (.binary lhs op.text rhs)

def assign (lhs : Node) (op : Token) (rhs : Node) : Node :=
  between lhs.span rhs.span (.assign lhs op.text rhs)

def prefixed (op : Token) (operand : Node) : Node :=
  between op.span operand.span (.unary op.text operand false)

def cast (opening : Token) (type operand : Node) : Node :=
  between opening.span operand.span (.cast type operand)

/-- A pointer level with its qualifiers around what it points to. -/
def pointer (star : Token) (quals : List Node) (inner : Option Node) : Node :=
  between star.span (spanOr (inner <|> quals.getLast?) star.span) (.pointer quals inner)

end Node

end CPretty
