import CPretty.Doc.Basic
import CPretty.Syntax.Header

namespace CPretty

open Doc (text)

/-- A node at a place where its form cannot be printed. -/
structure Unsupported where
  tag : String
  span : Span
deriving DecidableEq, Repr

def Unsupported.message (e : Unsupported) : String :=
  e.span.first.describe ++ ": no printer for a `" ++ e.tag ++ "` node in this position"

namespace Doc

def comma : Doc := .concat [text ",", .line]

/-- Parts between an opening and a closing text, each on its own line when they do not fit. -/
def enclosed (opening closing : String) (edge : Doc) (parts : List Doc) : List Doc :=
  [text opening, .indent (.concat [edge, join comma parts]), edge, text closing]

/-- Items on indented lines of their own between braces. -/
def block (separator : Doc) : List Doc → Doc
  | [] => text "\x7b\x7d"
  | items =>
    .concat [text "\x7b", .indent (.concat [.hardLine, join separator items]), .hardLine,
      text "\x7d"]

def parameters : List Doc → Doc
  | [] => text "()"
  | params => .group (.concat (enclosed "(" ")" .softLine params))

def optionalName : Option String → List Doc
  | none => []
  | some name => [text " ", text name]

end Doc

namespace Node

/-- The gap before a declarator: none before one that starts with a suffix. -/
def declaratorGap (decl : Node) : Doc :=
  match decl.shape with
  | .array none _ | .function none _ => text ""
  | _ => text " "

/-- Whether a unary operator stands directly before its operand. -/
def isTight (op : String) (operand : Node) : Bool :=
  op == "++" || op == "--" || op == "*" ||
    match operand.shape with
    | .parens _ => true
    | _ => false

/-- Whether the middle part of a `for` header holds an expression. -/
def hasExpression (n : Node) : Bool :=
  match n.shape with
  | .exprStmt (some _) => true
  | _ => false

/-- A pointer level: a star, its qualifiers and what it points to. -/
def pointerDoc (quals : List Doc) (decl : Option Doc) : Doc :=
  .concat ([text "*", Doc.join (text " ") quals] ++
    match decl with
    | some decl => (if quals.isEmpty then [] else [text " "]) ++ [decl]
    | none => [])

def arrayDoc (decl size : Option Doc) : Doc :=
  .concat (decl.toList ++ [text "["] ++ size.toList ++ [text "]"])

def functionDoc (decl : Option Doc) (params : Option (List Doc)) : Doc :=
  .concat (decl.toList ++ [Doc.parameters (params.getD [])])

mutual

/-- The document of a node inside a tree. -/
@[simp] def innerDoc : Node → Except Unsupported Doc
  | ⟨span, .root _⟩ => .error ⟨"root", span⟩
  | ⟨span, .func ..⟩ => .error ⟨"func", span⟩
  | ⟨_, .decl specs inits⟩ => do
    let specs ← innerDoc specs
    let inits ← innerDocs? inits
    return .concat ([specs] ++
      (match inits with
      | some inits => [text " ", Doc.join (text ", ") inits]
      | none => []) ++ [text ";"])
  | ⟨_, .declSpecs specs⟩ => return Doc.join (text " ") (← innerDocs specs)
  | ⟨_, .specQuals quals⟩ => return Doc.join (text " ") (← innerDocs quals)
  | ⟨_, .initDecl decl none⟩ => innerDoc decl
  | ⟨_, .initDecl decl (some init)⟩ => do
    let decl ← innerDoc decl
    return .concat [decl, text " = ", ← innerDoc init]
  | ⟨_, .keyword word⟩ => return text word
  | ⟨_, .atomic name⟩ => return .concat [text "_Atomic(", ← innerDoc name, text ")"]
  | ⟨_, .staticAssert cond message⟩ =>
    return .concat [text "_Static_assert(", ← innerDoc cond, text ", ", text message, text ");"]
  | ⟨_, .struct keyword name members⟩ => do
    let members ← innerDocs? members
    return .concat ([text keyword] ++ Doc.optionalName name ++
      match members with
      | some members => [text " ", Doc.block .hardLine members]
      | none => [])
  | ⟨_, .member quals decls⟩ => do
    let quals ← innerDoc quals
    let decls ← innerDocs decls
    return .concat ([quals] ++
      (if decls.isEmpty then [] else [text " ", Doc.join (text ", ") decls]) ++ [text ";"])
  | ⟨_, .bitfield none width⟩ => return .concat [text ": ", ← innerDoc width]
  | ⟨_, .bitfield (some decl) width⟩ => do
    let decl ← innerDoc decl
    return .concat [decl, text " : ", ← innerDoc width]
  | ⟨_, .enum name enumerators⟩ => do
    let enumerators ← innerDocs? enumerators
    return .concat ([text "enum"] ++ Doc.optionalName name ++
      match enumerators with
      | some items => [text " ", Doc.block (.concat [text ",", .hardLine]) items]
      | none => [])
  | ⟨_, .enumerator name none⟩ => return text name
  | ⟨_, .enumerator name (some value)⟩ =>
    return .concat [text name, text " = ", ← innerDoc value]
  | ⟨_, .initList items⟩ => do
    match ← innerDocs items with
    | [] => return text "\x7b\x7d"
    | items => return .group (.concat (Doc.enclosed "\x7b" "\x7d" .line items))
  | ⟨_, .typeName quals decl⟩ => do
    let quals ← innerDoc quals
    return .concat [quals, declaratorGap decl, ← innerDoc decl]
  | ⟨_, .pointer quals decl⟩ => do
    let quals ← innerDocs quals
    let decl ← innerDoc? decl
    return pointerDoc quals decl
  | ⟨_, .array decl size⟩ => do
    let decl ← innerDoc? decl
    let size ← innerDoc? size
    return arrayDoc decl size
  | ⟨_, .function decl params⟩ => do
    let decl ← innerDoc? decl
    let params ← innerDocs? params
    return functionDoc decl params
  | ⟨_, .nested decl⟩ => return .concat [text "(", ← innerDoc decl, text ")"]
  | ⟨_, .param specs none⟩ => innerDoc specs
  | ⟨_, .param specs (some decl)⟩ => do
    let specs ← innerDoc specs
    return .concat [specs, declaratorGap decl, ← innerDoc decl]
  | ⟨_, .ellipsis⟩ => return text "..."
  | ⟨_, .binary lhs op rhs⟩ => do
    let lhs ← innerDoc lhs
    let rhs ← innerDoc rhs
    return .group (.concat [lhs, text " ", text op, .indent (.concat [.line, rhs])])
  | ⟨_, .assign lhs op rhs⟩ => do
    let lhs ← innerDoc lhs
    let rhs ← innerDoc rhs
    return .group (.concat [lhs, text " ", text op, .group (.indent (.concat [.line, rhs]))])
  | ⟨_, .ternary cond yes no⟩ => do
    let cond ← innerDoc cond
    let yes ← innerDoc yes
    let no ← innerDoc no
    return .group (.concat [cond,
      .indent (.concat [.line, text "? ", yes, .line, text ": ", no])])
  | ⟨_, .unary op operand parens⟩ => do
    let doc ← innerDoc operand
    return .concat (
      if parens then [text op, text "(", doc, text ")"]
      else [text op, text (if isTight op operand then "" else " "), doc])
  | ⟨_, .postUnary operand op⟩ => return .concat [← innerDoc operand, text op]
  | ⟨_, .call callee args⟩ => do
    let callee ← innerDoc callee
    match ← innerDocs? args with
    | none | some [] => return .concat [callee, text "()"]
    | some args => return .group (.concat (callee :: Doc.enclosed "(" ")" .softLine args))
  | ⟨_, .cast type operand⟩ => do
    let type ← innerDoc type
    return .concat [text "(", type, text ") ", ← innerDoc operand]
  | ⟨_, .field object op name⟩ => return .concat [← innerDoc object, text op, text name]
  | ⟨_, .index object place⟩ => do
    let object ← innerDoc object
    return .concat [object, text "[", ← innerDoc place, text "]"]
  | ⟨_, .parens inner⟩ => return .concat [text "(", ← innerDoc inner, text ")"]
  | ⟨_, .ident name⟩ => return text name
  | ⟨_, .const value⟩ => return text value
  | ⟨_, .exprs items⟩ => return Doc.join (text ", ") (← innerDocs items)
  | ⟨_, .compound items⟩ => return Doc.block .hardLine ((← innerDocs? items).getD [])
  | ⟨_, .exprStmt none⟩ => return text ";"
  | ⟨_, .exprStmt (some expr)⟩ => return .concat [← innerDoc expr, text ";"]
  | ⟨_, .ifStmt cond yes no⟩ => do
    let cond ← innerDoc cond
    let yes ← innerDoc yes
    let no ← innerDoc? no
    return .concat ([text "if (", cond, text ") ", yes] ++
      match no with
      | some no => [text " else ", no]
      | none => [])
  | ⟨_, .switchStmt value body⟩ => do
    let value ← innerDoc value
    return .concat [text "switch (", value, text ") ", ← innerDoc body]
  | ⟨_, .whileStmt cond body⟩ => do
    let cond ← innerDoc cond
    return .concat [text "while (", cond, text ") ", ← innerDoc body]
  | ⟨_, .doStmt body cond⟩ => do
    let body ← innerDoc body
    return .concat [text "do ", body, text " while (", ← innerDoc cond, text ");"]
  | ⟨_, .forStmt init cond step body⟩ => do
    let init ← innerDoc init
    let middle ← innerDoc cond
    let step ← innerDoc? step
    let body ← innerDoc body
    return .concat ([text "for (", init] ++ (if hasExpression cond then [text " "] else []) ++
      [middle] ++
      (match step with
      | some step => [text " ", step]
      | none => []) ++ [text ") ", body])
  | ⟨_, .returnStmt none⟩ => return text "return;"
  | ⟨_, .returnStmt (some value)⟩ =>
    return .concat [text "return ", ← innerDoc value, text ";"]
  | ⟨_, .breakStmt⟩ => return text "break;"
  | ⟨_, .continueStmt⟩ => return text "continue;"
  | ⟨_, .gotoStmt label⟩ => return .concat [text "goto ", text label, text ";"]
  | ⟨_, .labelStmt label body⟩ =>
    return .concat [text label, text ":", .hardLine, ← innerDoc body]
  | ⟨_, .caseStmt value body⟩ => do
    let value ← innerDoc value
    return .concat [text "case ", value, text ":", .hardLine, ← innerDoc body]
  | ⟨_, .defaultStmt body⟩ => return .concat [text "default:", .hardLine, ← innerDoc body]

@[simp] def innerDocs : List Node → Except Unsupported (List Doc)
  | [] => return []
  | n :: ns => do
    let doc ← innerDoc n
    return doc :: (← innerDocs ns)

@[simp] def innerDoc? : Option Node → Except Unsupported (Option Doc)
  | none => return none
  | some n => return some (← innerDoc n)

@[simp] def innerDocs? : Option (List Node) → Except Unsupported (Option (List Doc))
  | none => return none
  | some ns => return some (← innerDocs ns)

end

/-- The document of a declarator with a parameter list put back after its name. -/
def headerDoc (params : Option (List Node)) : Node → Except Unsupported Doc
  | ⟨span, .nested decl⟩ => do
    if decl.isBareName then
      let decl ← innerDoc ⟨span, .nested decl⟩
      return functionDoc (some decl) (← innerDocs? params)
    else return .concat [text "(", ← headerDoc params decl, text ")"]
  | ⟨_, .pointer quals (some decl)⟩ => do
    let quals ← innerDocs quals
    return pointerDoc quals (some (← headerDoc params decl))
  | ⟨_, .array (some decl) size⟩ => do
    let decl ← headerDoc params decl
    return arrayDoc (some decl) (← innerDoc? size)
  | ⟨_, .function (some decl) outer⟩ => do
    let decl ← headerDoc params decl
    return functionDoc (some decl) (← innerDocs? outer)
  | n => do
    let decl ← innerDoc n
    return functionDoc (some decl) (← innerDocs? params)

/-- The document of a node directly in a root. -/
def outerDoc : Node → Except Unsupported Doc
  | ⟨_, .func specs name params decls body⟩ => do
    let specs ← innerDoc? specs
    let header ← headerDoc params name
    let decls ← innerDocs decls
    let body ← innerDoc body
    return .concat (
      (match specs with
      | some specs => [specs, text " "]
      | none => []) ++
      [header] ++ decls.flatMap (fun decl => [text " ", decl]) ++ [text " ", body])
  | n => innerDoc n

/-- The document of a tree. Every tree has one, except that a root stands only at the top and a
function definition only directly in such a root. -/
def toDoc : Node → Except Unsupported Doc
  | ⟨_, .root []⟩ => return .concat []
  | ⟨_, .root decls⟩ => do
    let docs ← decls.mapM outerDoc
    return .concat [Doc.join .hardLine docs, .hardLine]
  | n => innerDoc n

end Node

end CPretty
