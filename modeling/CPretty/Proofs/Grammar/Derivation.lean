import CPretty.Grammar.SourceFile

namespace CPretty

set_option autoImplicit true

abbrev Token.Of (k : Kind) (t : Token) : Prop := t.kind = k

abbrev Token.In (g : Category) (t : Token) : Prop := t.kind.is g = true

/-- What a run of tokens is read as. -/
inductive Phrase where
  -- Expressions
  | primary | postfixed | unary | operand | binary (levels : List Expected) | conditional
  | assignment | expression
  -- Types
  | name | qualifier | enumerator | enumeration | record | specifier | declSpecs | specQuals
  | typeName
  -- Declarators
  | direct | declarator | abstractDirect | pointed | abstractDeclarator | params | paramList
  | param | paramDeclarator
  -- Declarations
  | memberDeclarator | member | initializer | initDeclarator | declaration
  -- Statements
  | exprStatement | compound | statement | blockItem | forInit
  | external
  -- Lists
  /-- One or more phrases with a comma between each two. -/
  | commas (item : Phrase)
  /-- Phrases with a comma between each two, and maybe one after the last. -/
  | braced (item : Phrase)
  /-- Phrases one after another. -/
  | sequence (item : Phrase)
  | optional (item : Phrase)

def Token.isSpecifierWord (t : Token) : Bool :=
  t.kind.is .storageClass || t.kind.is .typeQualifier || t.kind.is .functionSpecifier ||
    t.kind.is .typeKeyword

/-- The name of a declared function and its parameters, apart. -/
def Node.header (decl : Node) : Node × Option (List Node) := decl.detachParams?.getD (decl, none)

/-- The tokens of a phrase and the nodes they stand for. A phrase that is one node has a list of
one. The relation leaves open which of several readings the parser prefers, and which source range a
node covers. -/
inductive Derives : Phrase → List Token → List Node → Prop
  -- Lists
  | one : Derives p xs [n] → Derives (.commas p) xs [n]
  | more : Derives p xs [n] → Token.Of .comma t → Derives (.commas p) ys ns →
      Derives (.commas p) (xs ++ t :: ys) (n :: ns)
  | bracedNil : Derives (.braced p) [] []
  | bracedLast : Derives p xs [n] → Derives (.braced p) xs [n]
  | bracedMore : Derives p xs [n] → Token.Of .comma t → Derives (.braced p) ys ns →
      Derives (.braced p) (xs ++ t :: ys) (n :: ns)
  | sequenceNil : Derives (.sequence p) [] []
  | sequenceMore : Derives p xs [n] → Derives (.sequence p) ys ns →
      Derives (.sequence p) (xs ++ ys) (n :: ns)
  | absent : Derives (.optional p) [] []
  | present : Derives p xs ns → Derives (.optional p) xs ns
  -- Expressions
  | ident : Token.Of .ident t → Derives .primary [t] [⟨sp, .ident t.text⟩]
  | constant : Token.Of .constant t → Derives .primary [t] [⟨sp, .const t.text⟩]
  | strings : (∀ s ∈ t :: ts, Token.Of .stringLiteral s) →
      Derives .primary (t :: ts) [⟨sp, .const (Token.texts (t :: ts))⟩]
  | parens : Token.Of .lParen l → Derives .expression xs [e] → Token.Of .rParen r →
      Derives .primary (l :: xs ++ [r]) [⟨sp, .parens e⟩]
  | ofPrimary : Derives .primary xs [e] → Derives .postfixed xs [e]
  | index : Derives .postfixed xs [e] → Token.Of .lBracket l → Derives .expression ys [i] →
      Token.Of .rBracket r → Derives .postfixed (xs ++ l :: ys ++ [r]) [⟨sp, .index e i⟩]
  | call : Derives .postfixed xs [e] → Token.Of .lParen l →
      Derives (.optional (.commas .assignment)) ys args → Token.Of .rParen r →
      Derives .postfixed (xs ++ l :: ys ++ [r]) [⟨sp, .call e (Node.nonempty? args)⟩]
  | field : Derives .postfixed xs [e] → Token.Of .dot op ∨ Token.Of .arrow op →
      Token.Of .ident t → Derives .postfixed (xs ++ [op, t]) [⟨sp, .field e op.text t.text⟩]
  | postUnary : Derives .postfixed xs [e] → Token.In .count op →
      Derives .postfixed (xs ++ [op]) [⟨sp, .postUnary e op.text⟩]
  | ofPostfixed : Derives .postfixed xs [e] → Derives .unary xs [e]
  | prefixed : Token.In .count op ∨ Token.Of .kwSizeof op → Derives .unary xs [e] →
      Derives .unary (op :: xs) [⟨sp, .unary op.text e false⟩]
  | sizeofType : Token.Of .kwSizeof op → Token.Of .lParen l → Derives .typeName xs [e] →
      Token.Of .rParen r → Derives .unary (op :: l :: xs ++ [r]) [⟨sp, .unary op.text e true⟩]
  | operator : Token.In .unary op → Derives .operand xs [e] →
      Derives .unary (op :: xs) [⟨sp, .unary op.text e false⟩]
  | ofUnary : Derives .unary xs [e] → Derives .operand xs [e]
  | cast : Token.Of .lParen l → Derives .typeName xs [ty] → Token.Of .rParen r →
      Derives .operand ys [e] → Derives .operand (l :: xs ++ r :: ys) [⟨sp, .cast ty e⟩]
  | ofOperand : Derives .operand xs [e] → Derives (.binary []) xs [e]
  | tighter : Derives (.binary ls) xs [e] → Derives (.binary (l :: ls)) xs [e]
  | binary : l ∈ Grammar.ladder → Derives (.binary (l :: ls)) xs [e] →
      l.accepts (Token.kind op) = true → Derives (.binary ls) ys [e'] →
      Derives (.binary (l :: ls)) (xs ++ op :: ys) [⟨sp, .binary e op.text e'⟩]
  | ofBinary : Derives (.binary Grammar.ladder) xs [e] → Derives .conditional xs [e]
  | ternary : Derives (.binary Grammar.ladder) xs [e] → Token.Of .question q →
      Derives .expression ys [yes] → Token.Of .colon t → Derives .conditional zs [no] →
      Derives .conditional (xs ++ q :: ys ++ t :: zs) [⟨sp, .ternary e yes no⟩]
  | ofConditional : Derives .conditional xs [e] → Derives .assignment xs [e]
  | assign : Derives .conditional xs [e] → Grammar.isTarget e = true → Token.In .assignment op →
      Derives .assignment ys [e'] →
      Derives .assignment (xs ++ op :: ys) [⟨sp, .assign e op.text e'⟩]
  | expression : Derives (.commas .assignment) xs ns →
      Derives .expression xs [Node.collect .exprs ns]
  -- Types
  | name : Token.Of .ident t → Derives .name [t] [⟨sp, .ident t.text⟩]
  | qualifier : Token.In .typeQualifier t → Derives .qualifier [t] [⟨sp, .keyword t.text⟩]
  | enumerator : Token.Of .ident t → Derives .enumerator [t] [⟨sp, .enumerator t.text none⟩]
  | enumeratorValue : Token.Of .ident t → Token.Of .eq q → Derives .conditional xs [v] →
      Derives .enumerator (t :: q :: xs) [⟨sp, .enumerator t.text (some v)⟩]
  | enumName : Token.Of .kwEnum kw → Token.Of .ident t →
      Derives .enumeration [kw, t] [⟨sp, .enum (some t.text) none⟩]
  | enumBody {name : Option Token} : Token.Of .kwEnum kw → (∀ t ∈ name, Token.Of .ident t) →
      Token.Of .lBrace l → Derives (.braced .enumerator) xs items → Token.Of .rBrace r →
      Derives .enumeration (kw :: name.toList ++ l :: xs ++ [r])
        [⟨sp, .enum (name.map Token.text) (some items)⟩]
  | structName : Token.In .structOrUnion kw → Token.Of .ident t →
      Derives .record [kw, t] [⟨sp, .struct kw.text (some t.text) none⟩]
  | structBody {name : Option Token} : Token.In .structOrUnion kw →
      (∀ t ∈ name, Token.Of .ident t) → Token.Of .lBrace l →
      Derives (.sequence .member) xs members → Token.Of .rBrace r →
      Derives .record (kw :: name.toList ++ l :: xs ++ [r])
        [⟨sp, .struct kw.text (name.map Token.text) (some members)⟩]
  | word : Token.isSpecifierWord t = true → Derives .specifier [t] [⟨sp, .keyword t.text⟩]
  | typedefName : Token.Of .ident t → Derives .specifier [t] [⟨sp, .ident t.text⟩]
  | atomic : Token.Of .kwAtomic kw → Token.Of .lParen l → Derives .typeName xs [n] →
      Token.Of .rParen r → Derives .specifier (kw :: l :: xs ++ [r]) [⟨sp, .atomic n⟩]
  | ofRecord : Derives .record xs [n] → Derives .specifier xs [n]
  | ofEnumeration : Derives .enumeration xs [n] → Derives .specifier xs [n]
  | declSpecs : Derives (.sequence .specifier) xs ns → ns ≠ [] →
      Derives .declSpecs xs [Node.collect .declSpecs ns]
  | specQuals : Derives (.sequence .specifier) xs ns → ns ≠ [] →
      Derives .specQuals xs [Node.collect .specQuals ns]
  | ofSpecQuals : Derives .specQuals xs [q] → Derives .typeName xs [q]
  | typeName : Derives .specQuals xs [q] → Derives .abstractDeclarator ys [d] →
      Derives .typeName (xs ++ ys) [⟨sp, .typeName q d⟩]
  -- Declarators
  | directName : Token.Of .ident t → Derives .direct [t] [⟨sp, .ident t.text⟩]
  | directNested : Token.Of .lParen l → Derives .declarator xs [d] → Token.Of .rParen r →
      Derives .direct (l :: xs ++ [r]) [⟨sp, .nested d⟩]
  | array : Derives .direct xs [d] → Token.Of .lBracket l →
      Derives (.optional .assignment) ys size → Token.Of .rBracket r →
      Derives .direct (xs ++ l :: ys ++ [r]) [⟨sp, .array (some d) size.head?⟩]
  | function : Derives .direct xs [d] → Token.Of .lParen l →
      Derives (.optional .params) ys ps → Token.Of .rParen r →
      Derives .direct (xs ++ l :: ys ++ [r]) [⟨sp, .function (some d) (Node.nonempty? ps)⟩]
  | ofDirect : Derives .direct xs [d] → Derives .declarator xs [d]
  | pointer : Token.Of .star t → Derives (.sequence .qualifier) xs qs → Derives .declarator ys [d] →
      Derives .declarator (t :: xs ++ ys) [⟨sp, .pointer qs (some d)⟩]
  | abstractNone : Derives .abstractDirect [] []
  | abstractNested : Token.Of .lParen l → Derives .abstractDeclarator xs [d] →
      Token.Of .rParen r → Derives .abstractDirect (l :: xs ++ [r]) [⟨sp, .nested d⟩]
  | abstractArray : Derives .abstractDirect xs ds → Token.Of .lBracket l →
      Derives (.optional .assignment) ys size → Token.Of .rBracket r →
      Derives .abstractDirect (xs ++ l :: ys ++ [r]) [⟨sp, .array ds.head? size.head?⟩]
  | abstractFunction : Derives .abstractDirect xs ds → Token.Of .lParen l →
      Derives (.optional .params) ys ps → Token.Of .rParen r →
      Derives .abstractDirect (xs ++ l :: ys ++ [r])
        [⟨sp, .function ds.head? (Node.nonempty? ps)⟩]
  | ofAbstractDirect : Derives .abstractDirect xs ds → Derives .pointed xs ds
  | abstractPointer : Token.Of .star t → Derives (.sequence .qualifier) xs qs →
      Derives .pointed ys ds → Derives .pointed (t :: xs ++ ys) [⟨sp, .pointer qs ds.head?⟩]
  | abstractDeclarator : Derives .pointed xs [d] → Derives .abstractDeclarator xs [d]
  | names : Derives (.commas .name) xs ns → Derives .params xs ns
  | typedParams : Derives .paramList xs ns → Derives .params xs ns
  | lastParam : Derives .param xs [n] → Derives .paramList xs [n]
  | ellipsis : Derives .param xs [n] → Token.Of .comma t → Token.Of .ellipsis dots →
      Derives .paramList (xs ++ [t, dots]) [n, ⟨sp, .ellipsis⟩]
  | moreParams : Derives .param xs [n] → Token.Of .comma t → Derives .paramList ys ns →
      Derives .paramList (xs ++ t :: ys) (n :: ns)
  | param : Derives .declSpecs xs [s] → Derives (.optional .paramDeclarator) ys ds →
      Derives .param (xs ++ ys) [⟨sp, .param s ds.head?⟩]
  | paramNamed : Derives .declarator xs [d] → Derives .paramDeclarator xs [d]
  | paramUnnamed : Derives .abstractDeclarator xs [d] → Derives .paramDeclarator xs [d]
  -- Declarations
  | plainMember : Derives .declarator xs [d] → Derives .memberDeclarator xs [d]
  | bitfield : Derives (.optional .declarator) xs ds → Token.Of .colon t →
      Derives .conditional ys [w] →
      Derives .memberDeclarator (xs ++ t :: ys) [⟨sp, .bitfield ds.head? w⟩]
  | member : Derives .specQuals xs [q] → Derives (.optional (.commas .memberDeclarator)) ys ds →
      Token.Of .semicolon t → Derives .member (xs ++ ys ++ [t]) [⟨sp, .member q ds⟩]
  | ofAssignment : Derives .assignment xs [e] → Derives .initializer xs [e]
  | initList : Token.Of .lBrace l → Derives (.braced .initializer) xs ns → Token.Of .rBrace r →
      Derives .initializer (l :: xs ++ [r]) [⟨sp, .initList ns⟩]
  | plainInit : Derives .declarator xs [d] →
      Derives .initDeclarator xs [⟨sp, .initDecl d none⟩]
  | initValue : Derives .declarator xs [d] → Token.Of .eq q → Derives .initializer ys [v] →
      Derives .initDeclarator (xs ++ q :: ys) [⟨sp, .initDecl d (some v)⟩]
  | declaration : Derives .declSpecs xs [s] →
      Derives (.optional (.commas .initDeclarator)) ys inits → Token.Of .semicolon t →
      Derives .declaration (xs ++ ys ++ [t]) [⟨sp, .decl s (Node.nonempty? inits)⟩]
  | staticAssert : Token.Of .kwStaticAssert kw → Token.Of .lParen l → Derives .conditional xs [e] →
      Token.Of .comma t → (∀ s ∈ m :: ms, Token.Of .stringLiteral s) → Token.Of .rParen r →
      Token.Of .semicolon semi →
      Derives .declaration (kw :: l :: xs ++ t :: (m :: ms) ++ [r, semi])
        [⟨sp, .staticAssert e (Token.texts (m :: ms))⟩]
  -- Statements
  | exprStatement : Derives (.optional .expression) xs es → Token.Of .semicolon t →
      Derives .exprStatement (xs ++ [t]) [⟨sp, .exprStmt es.head?⟩]
  | compound : Token.Of .lBrace l → Derives (.sequence .blockItem) xs ns → Token.Of .rBrace r →
      Derives .compound (l :: xs ++ [r]) [⟨sp, .compound (Node.nonempty? ns)⟩]
  | itemDeclaration : Derives .declaration xs [n] → Derives .blockItem xs [n]
  | itemStatement : Derives .statement xs [n] → Derives .blockItem xs [n]
  | ofExprStatement : Derives .exprStatement xs [n] → Derives .statement xs [n]
  | ofCompound : Derives .compound xs [n] → Derives .statement xs [n]
  | label : Token.Of .ident t → Token.Of .colon q → Derives .statement xs [n] →
      Derives .statement (t :: q :: xs) [⟨sp, .labelStmt t.text n⟩]
  | caseStmt : Token.Of .kwCase kw → Derives .conditional xs [e] → Token.Of .colon q →
      Derives .statement ys [n] → Derives .statement (kw :: xs ++ q :: ys) [⟨sp, .caseStmt e n⟩]
  | defaultStmt : Token.Of .kwDefault kw → Token.Of .colon q → Derives .statement xs [n] →
      Derives .statement (kw :: q :: xs) [⟨sp, .defaultStmt n⟩]
  | ifStmt : Token.Of .kwIf kw → Token.Of .lParen l → Derives .expression xs [e] →
      Token.Of .rParen r → Derives .statement ys [n] →
      Derives .statement (kw :: l :: xs ++ r :: ys) [⟨sp, .ifStmt e n none⟩]
  | ifElse : Token.Of .kwIf kw → Token.Of .lParen l → Derives .expression xs [e] →
      Token.Of .rParen r → Derives .statement ys [n] → Token.Of .kwElse t →
      Derives .statement zs [m] →
      Derives .statement (kw :: l :: xs ++ r :: ys ++ t :: zs) [⟨sp, .ifStmt e n (some m)⟩]
  | switchStmt : Token.Of .kwSwitch kw → Token.Of .lParen l → Derives .expression xs [e] →
      Token.Of .rParen r → Derives .statement ys [n] →
      Derives .statement (kw :: l :: xs ++ r :: ys) [⟨sp, .switchStmt e n⟩]
  | whileStmt : Token.Of .kwWhile kw → Token.Of .lParen l → Derives .expression xs [e] →
      Token.Of .rParen r → Derives .statement ys [n] →
      Derives .statement (kw :: l :: xs ++ r :: ys) [⟨sp, .whileStmt e n⟩]
  | doStmt : Token.Of .kwDo kw → Derives .statement xs [n] → Token.Of .kwWhile w →
      Token.Of .lParen l → Derives .expression ys [e] → Token.Of .rParen r →
      Token.Of .semicolon t →
      Derives .statement (kw :: xs ++ w :: l :: ys ++ [r, t]) [⟨sp, .doStmt n e⟩]
  | forStmt : Token.Of .kwFor kw → Token.Of .lParen l → Derives .forInit xs [i] →
      Derives .exprStatement ys [e] → Derives (.optional .expression) zs step →
      Token.Of .rParen r → Derives .statement ws [n] →
      Derives .statement (kw :: l :: xs ++ ys ++ zs ++ r :: ws)
        [⟨sp, .forStmt i e step.head? n⟩]
  | initDeclaration : Derives .declaration xs [n] → Derives .forInit xs [n]
  | initStatement : Derives .exprStatement xs [n] → Derives .forInit xs [n]
  | gotoStmt : Token.Of .kwGoto kw → Token.Of .ident t → Token.Of .semicolon semi →
      Derives .statement [kw, t, semi] [⟨sp, .gotoStmt t.text⟩]
  | continueStmt : Token.Of .kwContinue kw → Token.Of .semicolon semi →
      Derives .statement [kw, semi] [⟨sp, .continueStmt⟩]
  | breakStmt : Token.Of .kwBreak kw → Token.Of .semicolon semi →
      Derives .statement [kw, semi] [⟨sp, .breakStmt⟩]
  | returnStmt : Token.Of .kwReturn kw → Derives (.optional .expression) xs es →
      Token.Of .semicolon semi →
      Derives .statement (kw :: xs ++ [semi]) [⟨sp, .returnStmt es.head?⟩]
  -- Whole sources
  | definition : Derives (.optional .declSpecs) xs specs → Derives .declarator ys [d] →
      d.declaresFunction = true → Derives (.sequence .declaration) zs ds →
      Derives .compound ws [body] →
      Derives .external (xs ++ ys ++ zs ++ ws)
        [⟨sp, .func specs.head? d.header.1 d.header.2 ds body⟩]
  | ofDeclaration : Derives .declaration xs [n] → Derives .external xs [n]

/-- The tokens of a function definition with the declarator `a`, and its node. -/
inductive Defines (a : Node) : List Token → Node → Prop
  | mk {xs ys zs ws : List Token} {specs ds : List Node} {body : Node} {sp : Span} :
      Derives (.optional .declSpecs) xs specs → Derives .declarator ys [a] →
      a.declaresFunction = true → Derives (.sequence .declaration) zs ds →
      Derives .compound ws [body] →
      Defines a (xs ++ ys ++ zs ++ ws) ⟨sp, .func specs.head? a.header.1 a.header.2 ds body⟩

theorem Defines.declaresFunction {a n : Node} {xs : List Token} (h : Defines a xs n) :
    a.declaresFunction = true := by
  cases h
  assumption

theorem Defines.external {a n : Node} {xs : List Token} (h : Defines a xs n) :
    Derives .external xs [n] := by
  cases h with
  | mk hs ha hf hds hbody => exact .definition hs ha hf hds hbody

theorem Kind.of_is {P : Kind → Prop} {k : Kind} {g : Category} (h : k.is g = true)
    (hP : ∀ k ∈ g.members, P k) : P k :=
  hP k (List.contains_iff_mem.mp h)

/-- The kinds that can be the first of a phrase: none that closes, joins or assigns. -/
def Kind.leads (k : Kind) : Bool :=
  !([.rBrace, .rParen, .rBracket, .comma, .dot, .eq, .eqEq, .eof].contains k)

/-- The list starts with a token that can be the first of a phrase. -/
def Led (xs : List Token) : Prop := ∃ t ts, xs = t :: ts ∧ t.kind.leads = true

namespace Led

theorem append {xs : List Token} (h : Led xs) (ys : List Token) : Led (xs ++ ys) := by
  obtain ⟨t, ts, rfl, ht⟩ := h
  exact ⟨t, ts ++ ys, rfl, ht⟩

theorem of_kind {t : Token} {k : Kind} (h : Token.Of k t) (hk : k.leads = true)
    (ts : List Token) : Led (t :: ts) :=
  ⟨t, ts, rfl, h ▸ hk⟩

theorem of_is {t : Token} {g : Category} (h : Token.In g t)
    (hg : ∀ k ∈ g.members, k.leads = true) (ts : List Token) : Led (t :: ts) :=
  ⟨t, ts, rfl, Kind.of_is h hg⟩

theorem append_optional {xs ys : List Token} {ns : List Node}
    (h : (xs = [] ∧ ns = []) ∨ (Led xs ∧ ns ≠ [])) (hy : Led ys) : Led (xs ++ ys) := by
  obtain ⟨rfl, -⟩ | ⟨h, -⟩ := h
  · exact hy
  · exact h.append ys

end Led

theorem Derives.commas_ne_nil {p : Phrase} {xs : List Token} {ns : List Node}
    (h : Derives (.commas p) xs ns) : ns ≠ [] := by
  cases h <;> exact List.cons_ne_nil _ _

/-- A phrase without nodes has no tokens; any other starts with a token that can lead. -/
theorem Derives.lead {p : Phrase} {xs : List Token} {ns : List Node} (h : Derives p xs ns) :
    (xs = [] ∧ ns = []) ∨ (Led xs ∧ ns ≠ []) := by
  induction h with
  | strings hs => exact .inr ⟨.of_kind (hs _ List.mem_cons_self) rfl _, List.cons_ne_nil _ _⟩
  | prefixed hop _ _ =>
    refine .inr ⟨?_, List.cons_ne_nil _ _⟩
    exact hop.elim (fun h => .of_is h (by decide) _) fun h => .of_kind h rfl _
  | expression h ih =>
    exact .inr ⟨(ih.resolve_left fun hn => h.commas_ne_nil hn.2).1, List.cons_ne_nil _ _⟩
  | word ht =>
    refine .inr ⟨⟨_, [], rfl, ?_⟩, List.cons_ne_nil _ _⟩
    simp only [Token.isSpecifierWord, Bool.or_eq_true] at ht
    obtain ((h | h) | h) | h := ht <;> exact Kind.of_is (P := fun k => k.leads = true) h (by decide)
  | abstractArray _ hl _ _ ih _ =>
    rw [List.append_assoc]
    exact .inr ⟨.append_optional ih (.of_kind hl rfl _), List.cons_ne_nil _ _⟩
  | abstractFunction _ hl _ _ ih _ =>
    rw [List.append_assoc]
    exact .inr ⟨.append_optional ih (.of_kind hl rfl _), List.cons_ne_nil _ _⟩
  | bitfield _ ht _ ih _ =>
    exact .inr ⟨.append_optional ih (.of_kind ht rfl _), List.cons_ne_nil _ _⟩
  | exprStatement _ ht ih =>
    exact .inr ⟨.append_optional ih (.of_kind ht rfl _), List.cons_ne_nil _ _⟩
  | _ =>
    -- The phrase starts with another phrase, or with a token of its own.
    first
      | grind [Led.append]
      | exact .inr ⟨.of_kind ‹_› rfl _, List.cons_ne_nil _ _⟩
      | exact .inr ⟨.of_is ‹_› (by decide) _, List.cons_ne_nil _ _⟩

theorem Derives.led {p : Phrase} {xs : List Token} {ns : List Node} (h : Derives p xs ns)
    (hn : ns ≠ []) : Led xs :=
  (h.lead.resolve_left fun he => hn he.2).1

theorem Derives.ne_nil {p : Phrase} {xs : List Token} {n : Node} (h : Derives p xs [n]) :
    xs ≠ [] := by
  obtain ⟨t, ts, rfl, -⟩ := h.led (List.cons_ne_nil n [])
  exact List.cons_ne_nil t ts

end CPretty
