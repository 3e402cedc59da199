import CPretty.Proofs.Format.Expression
import CPretty.Proofs.Grammar.Concat
import CPretty.Proofs.Grammar.Parentheses
import CPretty.Proofs.Token.Respaced

namespace CPretty

open Parse Grammar

variable {limit m n : Nat} {c d : Cursor} {e : ParseError} {i : Node} {k : Kind} {l : List Char}

/-- The source `int x = (…(1)…);` with `n` pairs of parentheses. -/
def parenthesized (n : Nat) : String :=
  "int x = " ++ String.ofList (List.replicate n '(') ++ "1" ++
    String.ofList (List.replicate n ')') ++ ";"

def Node.initialized (i : Node) : Node :=
  ⟨default, .root [⟨default, .decl ⟨default, .keyword "int"⟩
    (some [⟨default, .initDecl ⟨default, .ident "x"⟩ (some i)⟩])⟩]⟩

theorem Node.bare_initialized_bare (i : Node) : i.bare.initialized.bare = i.initialized.bare := by
  simp [initialized, bare_mk, Shape.map, bare_bare]

def startTokens : List Token :=
  [⟨.kwInt, "int", ⟨1, 1⟩⟩, ⟨.ident, "x", ⟨1, 5⟩⟩, ⟨.eq, "=", ⟨1, 7⟩⟩]

def columnTokens (k : Kind) (column n : Nat) : List Token :=
  (List.range' column n).map fun i => ⟨k, k.spelling.getD "", ⟨1, i⟩⟩

/-- The tokens of the source with `n` pairs of parentheses. -/
def parenthesizedTokens (n : Nat) : List Token :=
  startTokens ++ (columnTokens .lParen 9 n ++ ⟨.constant, "1", ⟨1, 9 + n⟩⟩ ::
    columnTokens .rParen (10 + n) n ++ [⟨.semicolon, ";", ⟨1, 10 + 2 * n⟩⟩])

theorem kind_of_mem_columnTokens {column : Nat} {t : Token} (h : t ∈ columnTokens k column n) :
    t.kind = k := by
  obtain ⟨i, -, rfl⟩ := List.mem_map.mp h
  rfl

theorem lexed_of_spelling {t : Token} (h : t.kind.spelling = some t.text) : t.Lexed := by
  have lexical := (Key.canonical_of (k := t.kind) (by rw [h]; rfl)).lexical
  rwa [Key.of, h, Option.getD_some] at lexical

/-- A run of equal tokens of one character each. -/
theorem lexemesFrom_columnTokens {c : Char} (hk : k.isWhole = true)
    (hs : k.spelling = some (String.ofList [c])) (hc : c ≠ '\n') (column : Nat) (b : Bool) :
    ∃ b', lexemesFrom ⟨1, column⟩ b 0 (List.replicate n c ++ l) =
      (columnTokens k column n).map Token.located ++ lexemesFrom ⟨1, column + n⟩ b' 0 l := by
  induction n generalizing column b with
  | zero => exact ⟨b, rfl⟩
  | succ n ih =>
    obtain ⟨b', ih⟩ := ih (column + 1) false
    let t : Token := ⟨k, k.spelling.getD "", ⟨1, column⟩⟩
    have text : t.text.toList = [c] := by simp [t, hs]
    have lexed : t.Lexed := lexed_of_spelling (by simp [t, hs])
    have ends : Ends t.kind t.text.toList (List.replicate n c ++ l) :=
      fun x _ => Apart.of_isWhole hk x
    have first := lexed.lexemesFrom_ends ends ⟨1, column⟩ b
    have next : Location.after ⟨1, column⟩ [c] = ⟨1, column + 1⟩ := if_neg hc
    rw [text, next] at first
    refine ⟨b', first.trans (congrArg (t.located :: ·) ?_)⟩
    rw [show column + (n + 1) = column + 1 + n by omega]
    exact ih

theorem lexemesFrom_blank_behind {t : Token} (h : t.Lexed) (b : Bool) :
    ∃ b', lexemesFrom t.location b 0 (t.text.toList ++ ' ' :: l) =
      t.located :: lexemesFrom ((t.location.after t.text.toList).next ' ') b' 0 l := by
  have ends : Ends t.kind t.text.toList (' ' :: l) := by
    rintro _ ⟨⟩
    exact h.apart_blank rfl
  exact ⟨_, (h.lexemesFrom_ends ends _ b).trans (congrArg (t.located :: ·) rfl)⟩

theorem lexemesFrom_last {t : Token} (h : t.Lexed) (b : Bool) :
    lexemesFrom t.location b 0 t.text.toList = [t.located] := by
  have ends : Ends t.kind t.text.toList [] := nofun
  have last := h.lexemesFrom_ends ends t.location b
  rw [List.append_nil, lexemesFrom] at last
  exact last

theorem lexemesFrom_start (b : Bool) : ∃ b',
    lexemesFrom .start b 0 ("int x = ".toList ++ l) =
      startTokens.map Token.located ++ lexemesFrom ⟨1, 9⟩ b' 0 l := by
  have name : (⟨.ident, "x", ⟨1, 5⟩⟩ : Token).Lexed :=
    (Lexical.word rfl nofun : Lexical _ ('x' :: []))
  obtain ⟨b₁, h₁⟩ := lexemesFrom_blank_behind (t := ⟨.kwInt, "int", ⟨1, 1⟩⟩)
    (l := "x = ".toList ++ l) (lexed_of_spelling rfl) b
  obtain ⟨b₂, h₂⟩ := lexemesFrom_blank_behind (l := "= ".toList ++ l) name b₁
  obtain ⟨b₃, h₃⟩ := lexemesFrom_blank_behind (t := ⟨.eq, "=", ⟨1, 7⟩⟩) (l := l)
    (lexed_of_spelling rfl) b₂
  exact ⟨b₃, h₁.trans (congrArg (_ :: ·) (h₂.trans (congrArg (_ :: ·) h₃)))⟩

theorem lexemes_parenthesized (n : Nat) :
    lexemes (parenthesized n) = (parenthesizedTokens n).map Token.located := by
  let rest : List Char := List.replicate n ')' ++ [';']
  have text : (parenthesized n).toList =
      "int x = ".toList ++ (List.replicate n '(' ++ (['1'] ++ rest)) := by
    simp [parenthesized, rest]
  have one : "1".toList = ['1'] := by simp
  have semicolon : ";".toList = [';'] := by simp
  have read : Scan.token '1' [] = (.token .constant, ['1']) := by decide
  have lexed : (⟨.constant, "1", ⟨1, 9 + n⟩⟩ : Token).Lexed := by
    rw [Token.Lexed, one]
    exact token_ok read
  have ends : Ends .constant "1".toList rest := by
    intro x hx
    have hx : x = ')' ∨ x = ';' := by
      cases n with
      | zero => exact .inr (Option.some.inj hx).symm
      | succ n => exact .inl (Option.some.inj hx).symm
    obtain rfl | rfl := hx <;> exact .of_quiet lexed rfl (by decide) (by decide)
  obtain ⟨b₁, h₁⟩ := lexemesFrom_start (l := List.replicate n '(' ++ (['1'] ++ rest)) true
  obtain ⟨b₂, h₂⟩ := lexemesFrom_columnTokens (k := .lParen) (n := n)
    (l := ['1'] ++ rest) rfl rfl (by decide) 9 b₁
  have h₃ := lexed.lexemesFrom_ends ends ⟨1, 9 + n⟩ b₂
  obtain ⟨b₄, h₄⟩ := lexemesFrom_columnTokens (k := .rParen) (n := n)
    (l := [';']) rfl rfl (by decide) (10 + n) false
  have h₅ := lexemesFrom_last (t := ⟨.semicolon, ";", ⟨1, 10 + n + n⟩⟩) (lexed_of_spelling rfl) b₄
  have behind : Location.after ⟨1, 9 + n⟩ ['1'] = ⟨1, 10 + n⟩ := by
    rw [show 10 + n = 9 + n + 1 by omega]
    rfl
  have last : 10 + 2 * n = 10 + n + n := by omega
  rw [one] at h₃
  rw [semicolon] at h₅
  rw [lexemes, text, h₁, h₂, h₃, behind]
  simp only [parenthesizedTokens, List.map_append, List.map_cons, List.map_nil, List.append_assoc,
    List.cons_append, last]
  exact congrArg (_ ++ ·) (congrArg (_ ++ ·) (congrArg (_ :: ·) (h₄.trans (congrArg (_ ++ ·) h₅))))

theorem tokenize_parenthesized (n : Nat) : ∃ loc,
    tokenize (parenthesized n) = .ok ⟨parenthesizedTokens n, [], loc⟩ := by
  have tokens : ((parenthesizedTokens n).map Token.located).filterMap Located.token? =
      parenthesizedTokens n := by
    rw [List.filterMap_map]
    exact List.filterMap_some
  have errors : ((parenthesizedTokens n).map Token.located).filterMap Located.error? = [] := by
    rw [List.filterMap_map]
    exact List.filterMap_eq_nil_iff.mpr fun _ _ => rfl
  have comments : ((parenthesizedTokens n).map Token.located).filterMap Located.comment? = [] := by
    rw [List.filterMap_map]
    exact List.filterMap_eq_nil_iff.mpr fun _ _ => rfl
  rw [tokenize, lexemes_parenthesized, errors, tokens, comments]
  exact ⟨_, rfl⟩

theorem initializer_widens {deep : Nested} (hc : c.peek.kind ≠ .lBrace) :
    Widens extendsAssignment deep.operand (initializer deep) c := by
  have same : initializer deep c = assignment deep c := by
    rw [initializer, eat?, bind_assoc, bind_of_ok (check_apply _ c), if_neg (by simpa using hc)]
    rfl
  have h := assignment_widens deep c
  exact ⟨fun hp hd => same.trans (h.ok hp hd), fun hp => same.trans (h.error hp)⟩

theorem declarator_name (limit m : Nat) (d : Cursor) : ∃ sp,
    (Nested.levels limit (m + 1)).declarator (d.before startTokens.tail) =
      .ok (⟨sp, .ident "x"⟩, d.before (startTokens.drop 2)) :=
  ⟨_, rfl⟩

theorem initDeclarator_start (limit m : Nat) (d : Cursor) : ∃ sp,
    initDeclarator (.levels limit (m + 1)) (d.before startTokens.tail) =
      ((fun i => Node.between sp i.span (.initDecl ⟨sp, .ident "x"⟩ (some i))) <$>
        (Nested.levels limit (m + 1)).initializer) d := by
  obtain ⟨sp, name⟩ := declarator_name limit m d
  have equals : eat .eq (d.before (startTokens.drop 2)) = .ok (true, d) := eat_of_eq rfl
  rw [initDeclarator, bind_of_ok name, bind_of_ok equals, if_pos rfl]
  simp only [map_eq_pure_bind, bind_assoc, pure_bind]
  exact ⟨sp, rfl⟩

theorem declSpecs_start (deep : Nested) (d : Cursor) : ∃ sp,
    declSpecs deep (d.before startTokens) =
      .ok (⟨sp, .keyword "int"⟩, d.before startTokens.tail) :=
  ⟨_, rfl⟩

theorem typed_start (limit m : Nat) (d : Cursor) : ∃ e, e.isTooDeep = false ∧
    typed (.levels limit (m + 1)) (d.before startTokens) = .error e := by
  obtain ⟨sp, specs⟩ := declSpecs_start (.levels limit (m + 1)) d
  obtain ⟨sp', name⟩ := declarator_name limit m d
  rw [typed, bind_of_ok specs, functionDefinition, bind_of_ok name]
  exact ⟨_, rfl, rfl⟩

/-- The declaration is read from its list of declarators on. -/
theorem declaration_start (deep : Nested) (d : Cursor) : ∃ rest : List Node → Parse Node,
    (∀ inits semi (c : Cursor), semi.kind = .semicolon → ∃ sp sp', rest inits (c.before [semi]) =
      .ok (⟨sp, .decl ⟨sp', .keyword "int"⟩ (Node.nonempty? inits)⟩, c)) ∧
    declaration deep (d.before startTokens) =
      (commaList (initDeclarator deep) >>= rest) (d.before startTokens.tail) := by
  obtain ⟨sp, specs⟩ := declSpecs_start deep d
  have noAssert : check .kwStaticAssert (d.before startTokens) = .ok (false, _) := rfl
  have listed : check .semicolon (d.before startTokens.tail) = .ok (false, _) := rfl
  rw [declaration, bind_of_ok noAssert, if_neg Bool.false_ne_true, bind_of_ok specs,
    bind_of_ok listed, if_neg Bool.false_ne_true]
  refine ⟨_, fun inits semi c hs => ?_, rfl⟩
  have finish : eat? .semicolon (c.before [semi]) = .ok (some semi, c) := by
    rw [eat?_apply, if_pos (by simp [hs])]
    rfl
  dsimp only
  rw [bind_of_ok finish]
  exact ⟨_, _, rfl⟩

theorem declaration_ok {semi : Token} (hs : semi.kind = .semicolon)
    (h : (Nested.levels limit (m + 1)).initializer d = .ok (i, c.before [semi])) :
    ∃ sp sp₁ sp₂ sp₃, declaration (.levels limit (m + 1)) (d.before startTokens) =
      .ok (⟨sp, .decl ⟨sp₁, .keyword "int"⟩
        (some [⟨sp₂, .initDecl ⟨sp₃, .ident "x"⟩ (some i)⟩])⟩, c) := by
  obtain ⟨rest, hrest, whole⟩ := declaration_start (.levels limit (m + 1)) d
  obtain ⟨sp₃, first⟩ := initDeclarator_start limit m d
  rw [map_eq_pure_bind, bind_of_ok h, pure_apply] at first
  have more : commaItems (initDeclarator (.levels limit (m + 1))) (c.before [semi]) =
      .ok ([], c.before [semi]) := by
    refine many_of_none ?_
    rw [bind_of_ok (eat_of_ne (by simp [hs]))]
    rfl
  have list : commaList (initDeclarator (.levels limit (m + 1))) (d.before startTokens.tail) =
      .ok ([Node.between sp₃ i.span (.initDecl ⟨sp₃, .ident "x"⟩ (some i))], c.before [semi]) := by
    rw [commaList, bind_of_ok first, bind_of_ok more]
    rfl
  obtain ⟨sp, sp₁, finish⟩ := hrest _ semi c hs
  rw [whole, bind_of_ok list, finish]
  exact ⟨_, _, _, _, rfl⟩

theorem declaration_error (h : (Nested.levels limit (m + 1)).initializer d = .error e) :
    declaration (.levels limit (m + 1)) (d.before startTokens) = .error e := by
  obtain ⟨rest, -, whole⟩ := declaration_start (.levels limit (m + 1)) d
  obtain ⟨sp, first⟩ := initDeclarator_start limit m d
  rw [map_eq_pure_bind, bind_of_error h] at first
  have list : commaList (initDeclarator (.levels limit (m + 1))) (d.before startTokens.tail) =
      .error e := bind_of_error first
  rw [whole]
  exact bind_of_error list

theorem parse_start_ok {s : TokenStream} {t : Token} (hs : t.kind = .semicolon)
    (ht : s.tokens = startTokens ++ d.ahead) (hf : d.finish = Token.eof s.finish)
    (h : (Nested.levels (m + 1) (m + 1)).initializer d =
      .ok (i, ⟨[t], Token.eof s.finish⟩)) :
    ∃ tree, s.parse (m + 1) = .ok tree ∧ tree.bare = i.initialized.bare := by
  have start : (⟨s.tokens, Token.eof s.finish⟩ : Cursor) = d.before startTokens := by
    rw [ht, ← hf]
    rfl
  obtain ⟨e, notDeep, header⟩ := typed_start (m + 1) m d
  obtain ⟨sp, sp₁, sp₂, sp₃, decl⟩ := declaration_ok (c := ⟨[], Token.eof s.finish⟩) hs h
  have external : externalDeclaration (.levels (m + 1) (m + 1)) (d.before startTokens) = _ :=
    either_of_ok (either_of_error header (by simp [notDeep]) decl)
      (functionDefinition (.levels (m + 1) (m + 1)) none)
  have ended : (d.before startTokens).Ended := by
    rw [Cursor.Ended, Cursor.before, hf]
    rfl
  have all := externals_of_first (.levels (m + 1) (m + 1)) ended external
  rw [map_eq_pure_bind, bind_of_ok (many_of_none rfl), ← start] at all
  obtain ⟨sp', tree⟩ := TokenStream.parse_of_externals all
  refine ⟨_, tree, ?_⟩
  simp [Node.initialized, Node.bare_mk, Shape.map]

theorem parse_start_error {s : TokenStream} (ht : s.tokens = startTokens ++ d.ahead)
    (hf : d.finish = Token.eof s.finish) (deep : e.fault = .tooDeep limit)
    (h : (Nested.levels (m + 1) (m + 1)).initializer d = .error e) :
    s.parse (m + 1) = .error e := by
  have start : (⟨s.tokens, Token.eof s.finish⟩ : Cursor) = d.before startTokens := by
    rw [ht, ← hf]
    rfl
  obtain ⟨e', notDeep, header⟩ := typed_start (m + 1) m d
  have isDeep : e.isTooDeep = true := by rw [ParseError.isTooDeep, deep]
  have typed_or : either (typed (.levels (m + 1) (m + 1))) (declaration (.levels (m + 1) (m + 1)))
      (d.before startTokens) = .error e := by
    simp only [either, header, notDeep, declaration_error h, Bool.false_eq_true, if_false]
    rw [ParseError.furthest_of_tooDeep (by simp [notDeep]) deep]
  have external : externalDeclaration (.levels (m + 1) (m + 1)) (d.before startTokens) =
      .error e := by
    rw [externalDeclaration, either, typed_or]
    simp only [isDeep, if_true]
  have first : external? (.levels (m + 1) (m + 1)) (d.before startTokens) = .error e := by
    have tokens : atEnd (d.before startTokens) = .ok (false, _) := rfl
    rw [external?, bind_of_ok tokens, if_neg Bool.false_ne_true]
    exact bind_of_error external
  have all : many (external? (.levels (m + 1) (m + 1))) (d.before startTokens) = .error e := by
    rw [many, bind_of_ok (ahead_apply _)]
    exact bind_of_error first
  rw [TokenStream.parse, start, sourceFile, bind_of_error all]
  rfl

theorem getElem?_columnTokens {column : Nat} (h : m < n) :
    (columnTokens k column n)[m]? = some ⟨k, k.spelling.getD "", ⟨1, column + m⟩⟩ := by
  simp [columnTokens, h]

/-- The first token that `m` levels do not let in. -/
theorem peek_drop_parens (h : m ≤ n) (one : Token) (closes : List Token)
    (at_one : one.location = ⟨1, 9 + n⟩) :
    (d.before ((columnTokens .lParen 9 n ++ one :: closes).drop m)).peek.location = ⟨1, 9 + m⟩ := by
  have len : (columnTokens .lParen 9 n).length = n := by simp [columnTokens]
  have found : (d.before ((columnTokens .lParen 9 n ++ one :: closes).drop m)).peek =
      (columnTokens .lParen 9 n ++ one :: closes)[m]?.getD d.peek := by
    rw [← List.head?_drop]
    cases (columnTokens .lParen 9 n ++ one :: closes).drop m <;> rfl
  rw [found]
  obtain rfl | lt := Nat.eq_or_lt_of_le h
  · rw [List.getElem?_append_right (by omega), len, Nat.sub_self]
    exact at_one
  · rw [List.getElem?_append_left (by omega), getElem?_columnTokens lt]
    rfl

/-- With `m` levels inside the initializer, the declaration is read when they are more than the
pairs of parentheses, and otherwise the error stands behind `m` of them. -/
theorem TokenStream.parse_parenthesizedTokens (n m : Nat) (s : TokenStream)
    (hs : s.tokens = parenthesizedTokens n) :
    (n < m → ∃ tree, s.parse (m + 1) = .ok tree ∧
      tree.bare = (Node.initialized (Node.inParens ⟨default, .const "1"⟩ n)).bare) ∧
    (m ≤ n → ∃ e, s.parse (m + 1) = .error e ∧ e.fault = .tooDeep (m + 1) ∧
      e.location = ⟨1, 9 + m⟩) := by
  let semi : Token := ⟨.semicolon, ";", ⟨1, 10 + 2 * n⟩⟩
  let one : Token := ⟨.constant, "1", ⟨1, 9 + n⟩⟩
  let closes := columnTokens .rParen (10 + n) n
  let c : Cursor := ⟨[semi], Token.eof s.finish⟩
  let inner := columnTokens .lParen 9 n ++ one :: closes
  have semicolon : c.peek.kind = .semicolon := rfl
  have ends : c.peek.kind ∉ extendsExpression := by rw [semicolon]; decide
  have len : (columnTokens .lParen 9 n).length = n := by simp [columnTokens]
  have same : (columnTokens .lParen 9 n).length = closes.length := by simp [closes, columnTokens]
  have tokens : s.tokens = startTokens ++ (c.before inner).ahead := by
    rw [hs, parenthesizedTokens, Cursor.ahead_before]
  have noBrace : (c.before inner).peek.kind ≠ .lBrace := by
    cases n <;> nofun
  have widens : Widens extendsAssignment (Nested.levels (m + 1) m).operand
      (Nested.levels (m + 1) (m + 1)).initializer (c.before inner) :=
    initializer_widens noBrace
  obtain ⟨fits, exceeds⟩ := operand_inParens (m + 1) (fun _ => kind_of_mem_columnTokens)
    (fun _ => kind_of_mem_columnTokens) (rfl : one.kind = .constant) same m c ends
  rw [len] at fits exceeds
  refine ⟨fun h => ?_, fun h => ⟨(c.before (inner.drop m)).excess (m + 1), ?_, rfl, ?_⟩⟩
  · obtain ⟨i, read, bare⟩ := fits h
    obtain ⟨tree, parsed, tree_bare⟩ := parse_start_ok (t := semi) rfl tokens rfl
      (widens.ok read (by rw [semicolon]; decide))
    exact ⟨tree, parsed, by rw [tree_bare, ← Node.bare_initialized_bare, bare]⟩
  · exact parse_start_error tokens rfl rfl (widens.error (exceeds h))
  · exact peek_drop_parens h one closes rfl

/-- The source with `n` pairs of parentheses parses if and only if the limit leaves a level for each
of them, one for the constant and one for the initializer, and then its tree has `n` nodes for them
around the constant. Otherwise its only error is an excess of nesting behind as many parentheses as
the limit lets in. -/
theorem parse_parenthesized (n : Nat) (o : Options) (h : 1 ≤ o.maxNestingDepth) :
    ((∃ parsed, parse (parenthesized n) o = .ok parsed) ↔ n + 2 ≤ min o.maxNestingDepth 256) ∧
      (∀ parsed, parse (parenthesized n) o = .ok parsed → parsed.tree.bare =
        (Node.initialized (Node.inParens ⟨default, .const "1"⟩ n)).bare) ∧
      ∀ es, parse (parenthesized n) o = .error es → ∃ e, es = [.parse e] ∧
        e.fault = .tooDeep (min o.maxNestingDepth 256) ∧
        e.location = ⟨1, 8 + min o.maxNestingDepth 256⟩ := by
  obtain ⟨loc, tokens⟩ := tokenize_parenthesized n
  obtain ⟨m, limit⟩ : ∃ m, min o.maxNestingDepth 256 = m + 1 :=
    Nat.exists_eq_add_one.mpr (by omega)
  have nesting : o.nestingLimit = m + 1 := limit
  obtain ⟨fits, exceeds⟩ := TokenStream.parse_parenthesizedTokens n m ⟨_, [], loc⟩ rfl
  rw [limit]
  obtain lt | ge := Nat.lt_or_ge n m
  · obtain ⟨tree, parsed, bare⟩ := fits lt
    have whole := parse_of_ok tokens (nesting ▸ parsed)
    simp only [whole, Except.ok.injEq, reduceCtorEq, false_implies, implies_true, and_true]
    exact ⟨⟨fun _ => by omega, fun _ => ⟨_, rfl⟩⟩, fun _ hp => hp ▸ bare⟩
  · obtain ⟨e, failed, fault, location⟩ := exceeds ge
    have whole := parse_of_error tokens (nesting ▸ failed)
    simp only [whole, Except.error.injEq, reduceCtorEq, false_implies, implies_true, true_and,
      exists_false, false_iff]
    exact ⟨by omega, fun _ hp => ⟨e, hp.symm, fault, by rw [location]; congr 1; omega⟩⟩

theorem parse_parenthesized_six : 1 ≤ (Options.mk 80 2 8).maxNestingDepth ∧
    (∃ parsed, parse (parenthesized 6) ⟨80, 2, 8⟩ = .ok parsed) ∧
    ¬ ∃ parsed, parse (parenthesized 7) ⟨80, 2, 8⟩ = .ok parsed :=
  ⟨by decide, (parse_parenthesized 6 ⟨80, 2, 8⟩ (by decide)).1.mpr (by decide),
    fun h => absurd ((parse_parenthesized 7 ⟨80, 2, 8⟩ (by decide)).1.mp h) (by decide)⟩

end CPretty
