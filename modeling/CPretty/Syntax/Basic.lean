import CPretty.Source.Location

namespace CPretty

/-- The forms of a node, over the type `α` of its children. Fields stand in source order, the
parameters of `func` apart, which belong inside the declarator `name`. -/
inductive Shape (α : Type) where
  | root (decls : List α)
  | func (specs : Option α) (name : α) (params : Option (List α)) (decls : List α) (body : α)
  -- Declarations
  | decl (specs : α) (inits : Option (List α))
  | declSpecs (specs : List α)
  | initDecl (decl : α) (init : Option α)
  | keyword (text : String)
  | atomic (name : α)
  | specQuals (quals : List α)
  | staticAssert (cond : α) (message : String)
  | struct (keyword : String) (name : Option String) (members : Option (List α))
  | member (quals : α) (decls : List α)
  | bitfield (decl : Option α) (width : α)
  | enum (name : Option String) (enumerators : Option (List α))
  | enumerator (name : String) (value : Option α)
  | initList (items : List α)
  | typeName (quals decl : α)
  -- Declarators
  | pointer (quals : List α) (decl : Option α)
  | array (decl size : Option α)
  | function (decl : Option α) (params : Option (List α))
  | nested (decl : α)
  | param (specs : α) (decl : Option α)
  | ellipsis
  -- Expressions
  | binary (lhs : α) (op : String) (rhs : α)
  | unary (op : String) (operand : α) (parens : Bool)
  | postUnary (operand : α) (op : String)
  | assign (lhs : α) (op : String) (rhs : α)
  | ternary (cond yes no : α)
  | call (callee : α) (args : Option (List α))
  | cast (type operand : α)
  | field (object : α) (op name : String)
  | index (object place : α)
  | parens (inner : α)
  | ident (name : String)
  | const (text : String)
  | exprs (items : List α)
  -- Statements
  | compound (items : Option (List α))
  | exprStmt (expr : Option α)
  | ifStmt (cond yes : α) (no : Option α)
  | switchStmt (value body : α)
  | whileStmt (cond body : α)
  | doStmt (body cond : α)
  | forStmt (init cond : α) (step : Option α) (body : α)
  | returnStmt (value : Option α)
  | breakStmt
  | continueStmt
  | gotoStmt (label : String)
  | labelStmt (label : String) (body : α)
  | caseStmt (value body : α)
  | defaultStmt (body : α)

/-- A node: a form and the range of source that it covers. A tree need not be one that parsing
builds. -/
inductive Node where
  | mk (span : Span) (shape : Shape Node)

namespace Shape

variable {α β : Type}

def tag : Shape α → String
  | .root .. => "root"
  | .func .. => "func"
  | .decl .. => "decl"
  | .declSpecs .. => "declSpecs"
  | .initDecl .. => "initDecl"
  | .keyword .. => "keyword"
  | .atomic .. => "atomic"
  | .specQuals .. => "specQuals"
  | .staticAssert .. => "assert"
  | .struct .. => "struct"
  | .member .. => "member"
  | .bitfield .. => "bitfield"
  | .enum .. => "enum"
  | .enumerator .. => "enumerator"
  | .initList .. => "initList"
  | .typeName .. => "typeName"
  | .pointer .. => "pointer"
  | .array .. => "array"
  | .function .. => "function"
  | .nested .. => "nested"
  | .param .. => "param"
  | .ellipsis => "ellipsis"
  | .binary .. => "binary"
  | .unary .. => "unary"
  | .postUnary .. => "postUnary"
  | .assign .. => "assign"
  | .ternary .. => "ternary"
  | .call .. => "call"
  | .cast .. => "cast"
  | .field .. => "field"
  | .index .. => "index"
  | .parens .. => "parens"
  | .ident .. => "ident"
  | .const .. => "const"
  | .exprs .. => "exprs"
  | .compound .. => "compound"
  | .exprStmt .. => "stmt"
  | .ifStmt .. => "if"
  | .switchStmt .. => "switch"
  | .whileStmt .. => "while"
  | .doStmt .. => "do"
  | .forStmt .. => "for"
  | .returnStmt .. => "return"
  | .breakStmt => "break"
  | .continueStmt => "continue"
  | .gotoStmt .. => "goto"
  | .labelStmt .. => "label"
  | .caseStmt .. => "case"
  | .defaultStmt .. => "default"

/-- The children of a form, in the order of its fields. -/
def children : Shape α → List α
  | .root decls => decls
  | .func specs name params decls body =>
    specs.toList ++ [name] ++ params.getD [] ++ decls ++ [body]
  | .decl specs inits => [specs] ++ inits.getD []
  | .declSpecs specs => specs
  | .initDecl d init => [d] ++ init.toList
  | .keyword _ => []
  | .atomic name => [name]
  | .specQuals quals => quals
  | .staticAssert cond _ => [cond]
  | .struct _ _ members => members.getD []
  | .member quals decls => [quals] ++ decls
  | .bitfield d width => d.toList ++ [width]
  | .enum _ enumerators => enumerators.getD []
  | .enumerator _ value => value.toList
  | .initList items => items
  | .typeName quals d => [quals, d]
  | .pointer quals d => quals ++ d.toList
  | .array d size => d.toList ++ size.toList
  | .function d params => d.toList ++ params.getD []
  | .nested d => [d]
  | .param specs d => [specs] ++ d.toList
  | .ellipsis => []
  | .binary lhs _ rhs => [lhs, rhs]
  | .unary _ operand _ => [operand]
  | .postUnary operand _ => [operand]
  | .assign lhs _ rhs => [lhs, rhs]
  | .ternary cond yes no => [cond, yes, no]
  | .call callee args => [callee] ++ args.getD []
  | .cast type operand => [type, operand]
  | .field object _ _ => [object]
  | .index object place => [object, place]
  | .parens inner => [inner]
  | .ident _ => []
  | .const _ => []
  | .exprs items => items
  | .compound items => items.getD []
  | .exprStmt expr => expr.toList
  | .ifStmt cond yes no => [cond, yes] ++ no.toList
  | .switchStmt value body => [value, body]
  | .whileStmt cond body => [cond, body]
  | .doStmt body cond => [body, cond]
  | .forStmt init cond step body => [init, cond] ++ step.toList ++ [body]
  | .returnStmt value => value.toList
  | .breakStmt => []
  | .continueStmt => []
  | .gotoStmt _ => []
  | .labelStmt _ body => [body]
  | .caseStmt value body => [value, body]
  | .defaultStmt body => [body]

end Shape

namespace Node

def span : Node → Span
  | ⟨span, _⟩ => span

def shape : Node → Shape Node
  | ⟨_, shape⟩ => shape

def tag (n : Node) : String := n.shape.tag

def children (n : Node) : List Node := n.shape.children

mutual

/-- The value of a tree, computed from its leaves up. -/
def fold {β : Type} (f : Span → Shape β → β) : Node → β
  | ⟨span, .root decls⟩ => f span (.root (foldList f decls))
  | ⟨span, .func specs name params decls body⟩ =>
    f span (.func (foldOption f specs) (fold f name) (foldOptionList f params)
      (foldList f decls) (fold f body))
  | ⟨span, .decl specs inits⟩ => f span (.decl (fold f specs) (foldOptionList f inits))
  | ⟨span, .declSpecs specs⟩ => f span (.declSpecs (foldList f specs))
  | ⟨span, .initDecl decl init⟩ => f span (.initDecl (fold f decl) (foldOption f init))
  | ⟨span, .keyword text⟩ => f span (.keyword text)
  | ⟨span, .atomic name⟩ => f span (.atomic (fold f name))
  | ⟨span, .specQuals quals⟩ => f span (.specQuals (foldList f quals))
  | ⟨span, .staticAssert cond message⟩ => f span (.staticAssert (fold f cond) message)
  | ⟨span, .struct keyword name members⟩ => f span (.struct keyword name (foldOptionList f members))
  | ⟨span, .member quals decls⟩ => f span (.member (fold f quals) (foldList f decls))
  | ⟨span, .bitfield decl width⟩ => f span (.bitfield (foldOption f decl) (fold f width))
  | ⟨span, .enum name enumerators⟩ => f span (.enum name (foldOptionList f enumerators))
  | ⟨span, .enumerator name value⟩ => f span (.enumerator name (foldOption f value))
  | ⟨span, .initList items⟩ => f span (.initList (foldList f items))
  | ⟨span, .typeName quals decl⟩ => f span (.typeName (fold f quals) (fold f decl))
  | ⟨span, .pointer quals decl⟩ => f span (.pointer (foldList f quals) (foldOption f decl))
  | ⟨span, .array decl size⟩ => f span (.array (foldOption f decl) (foldOption f size))
  | ⟨span, .function decl params⟩ =>
    f span (.function (foldOption f decl) (foldOptionList f params))
  | ⟨span, .nested decl⟩ => f span (.nested (fold f decl))
  | ⟨span, .param specs decl⟩ => f span (.param (fold f specs) (foldOption f decl))
  | ⟨span, .ellipsis⟩ => f span .ellipsis
  | ⟨span, .binary lhs op rhs⟩ => f span (.binary (fold f lhs) op (fold f rhs))
  | ⟨span, .unary op operand parens⟩ => f span (.unary op (fold f operand) parens)
  | ⟨span, .postUnary operand op⟩ => f span (.postUnary (fold f operand) op)
  | ⟨span, .assign lhs op rhs⟩ => f span (.assign (fold f lhs) op (fold f rhs))
  | ⟨span, .ternary cond yes no⟩ => f span (.ternary (fold f cond) (fold f yes) (fold f no))
  | ⟨span, .call callee args⟩ => f span (.call (fold f callee) (foldOptionList f args))
  | ⟨span, .cast type operand⟩ => f span (.cast (fold f type) (fold f operand))
  | ⟨span, .field object op name⟩ => f span (.field (fold f object) op name)
  | ⟨span, .index object place⟩ => f span (.index (fold f object) (fold f place))
  | ⟨span, .parens inner⟩ => f span (.parens (fold f inner))
  | ⟨span, .ident name⟩ => f span (.ident name)
  | ⟨span, .const text⟩ => f span (.const text)
  | ⟨span, .exprs items⟩ => f span (.exprs (foldList f items))
  | ⟨span, .compound items⟩ => f span (.compound (foldOptionList f items))
  | ⟨span, .exprStmt expr⟩ => f span (.exprStmt (foldOption f expr))
  | ⟨span, .ifStmt cond yes no⟩ => f span (.ifStmt (fold f cond) (fold f yes) (foldOption f no))
  | ⟨span, .switchStmt value body⟩ => f span (.switchStmt (fold f value) (fold f body))
  | ⟨span, .whileStmt cond body⟩ => f span (.whileStmt (fold f cond) (fold f body))
  | ⟨span, .doStmt body cond⟩ => f span (.doStmt (fold f body) (fold f cond))
  | ⟨span, .forStmt init cond step body⟩ =>
    f span (.forStmt (fold f init) (fold f cond) (foldOption f step) (fold f body))
  | ⟨span, .returnStmt value⟩ => f span (.returnStmt (foldOption f value))
  | ⟨span, .breakStmt⟩ => f span .breakStmt
  | ⟨span, .continueStmt⟩ => f span .continueStmt
  | ⟨span, .gotoStmt label⟩ => f span (.gotoStmt label)
  | ⟨span, .labelStmt label body⟩ => f span (.labelStmt label (fold f body))
  | ⟨span, .caseStmt value body⟩ => f span (.caseStmt (fold f value) (fold f body))
  | ⟨span, .defaultStmt body⟩ => f span (.defaultStmt (fold f body))

def foldList {β : Type} (f : Span → Shape β → β) : List Node → List β
  | [] => []
  | n :: ns => fold f n :: foldList f ns

def foldOption {β : Type} (f : Span → Shape β → β) : Option Node → Option β
  | none => none
  | some n => some (fold f n)

def foldOptionList {β : Type} (f : Span → Shape β → β) : Option (List Node) → Option (List β)
  | none => none
  | some ns => some (foldList f ns)

end

/-- The tree without its source ranges. Two trees are the same code when these agree. -/
def bare : Node → Node := fold fun _ shape => ⟨default, shape⟩

end Node

end CPretty
