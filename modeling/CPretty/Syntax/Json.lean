import CPretty.Json
import CPretty.Syntax.Basic

namespace CPretty

def Location.toJson (loc : Location) : Json :=
  .obj [("line", .num loc.line), ("column", .num loc.column)]

def Span.toJson (s : Span) : Json :=
  .obj [("start", s.first.toJson), ("end", s.last.toJson)]

namespace Shape

/-- The fields of a form whose children are already in JSON form. -/
def jsonFields : Shape Json → List (String × Json)
  | .root decls => [("decls", .arr decls)]
  | .func specs name params decls body =>
    [("declSpecs", .optional specs), ("name", name), ("params", .optional (params.map .arr)),
      ("decls", .arr decls), ("body", body)]
  | .decl specs inits => [("declSpecs", specs), ("initDecls", .optional (inits.map .arr))]
  | .declSpecs specs => [("specs", .arr specs)]
  | .initDecl d init => [("decl", d), ("init", .optional init)]
  | .keyword text => [("keyword", .str text)]
  | .atomic name => [("name", name)]
  | .specQuals quals => [("quals", .arr quals)]
  | .staticAssert cond message => [("expr", cond), ("msg", .str message)]
  | .struct word name members =>
    [("kind", .str word), ("name", .optional (name.map .str)),
      ("members", .optional (members.map .arr))]
  | .member quals decls => [("specQuals", quals), ("decls", .arr decls)]
  | .bitfield d width => [("decl", .optional d), ("width", width)]
  | .enum name enumerators =>
    [("name", .optional (name.map .str)), ("enumerators", .optional (enumerators.map .arr))]
  | .enumerator name value => [("name", .str name), ("value", .optional value)]
  | .initList items => [("items", .arr items)]
  | .typeName quals d => [("specQuals", quals), ("decl", d)]
  | .pointer quals d => [("quals", .arr quals), ("decl", .optional d)]
  | .array d size => [("decl", .optional d), ("size", .optional size)]
  | .function d params => [("decl", .optional d), ("params", .optional (params.map .arr))]
  | .nested d => [("decl", d)]
  | .param specs d => [("declSpecs", specs), ("decl", .optional d)]
  | .ellipsis => []
  | .binary lhs op rhs => [("lhs", lhs), ("oper", .str op), ("rhs", rhs)]
  | .unary op operand wrapped => [("oper", .str op), ("expr", operand), ("parens", .bool wrapped)]
  | .postUnary operand op => [("expr", operand), ("oper", .str op)]
  | .assign lhs op rhs => [("lhs", lhs), ("oper", .str op), ("rhs", rhs)]
  | .ternary cond yes no => [("pred", cond), ("truthy", yes), ("falsy", no)]
  | .call callee args => [("recv", callee), ("args", .optional (args.map .arr))]
  | .cast type operand => [("value", type), ("expr", operand)]
  | .field object op name => [("recv", object), ("oper", .str op), ("ident", .str name)]
  | .index object place => [("recv", object), ("index", place)]
  | .parens inner => [("expr", inner)]
  | .ident name => [("value", .str name)]
  | .const text => [("value", .str text)]
  | .exprs items => [("exprs", .arr items)]
  | .compound items => [("items", .optional (items.map .arr))]
  | .exprStmt expr => [("expr", .optional expr)]
  | .ifStmt cond yes no => [("expr", cond), ("stmt", yes), ("consequent", .optional no)]
  | .switchStmt value body => [("expr", value), ("stmt", body)]
  | .whileStmt cond body => [("pred", cond), ("stmt", body)]
  | .doStmt body cond => [("stmt", body), ("expr", cond)]
  | .forStmt init cond step body =>
    [("init", init), ("pred", cond), ("incr", .optional step), ("stmt", body)]
  | .returnStmt value => [("expr", .optional value)]
  | .breakStmt => []
  | .continueStmt => []
  | .gotoStmt label => [("ident", .str label)]
  | .labelStmt label body => [("ident", .str label), ("stmt", body)]
  | .caseStmt value body => [("expr", value), ("stmt", body)]
  | .defaultStmt body => [("stmt", body)]

end Shape

/-- The JSON form of a tree: for each node its source range, the name of the form and its fields. An
absent field is null. -/
def Node.toJson : Node → Json :=
  fold fun span shape =>
    .obj (("span", span.toJson) :: ("type", .str shape.tag) :: shape.jsonFields)

end CPretty
