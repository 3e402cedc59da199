import CPretty.Proofs.Format.Independence
import CPretty.Proofs.Format.Relexed
import CPretty.Proofs.Grammar.Completeness
import CPretty.Proofs.Grammar.Spelling

namespace CPretty

open Parse Grammar

variable {limit k : Nat} {c : Cursor} {xs ys : List Token} {e : Node}

/-- A function body that returns the value of an expression. -/
def Node.returning (e : Node) : Node :=
  ⟨default, .compound (some [⟨default, .returnStmt (some e)⟩])⟩

/-- The definition of a `main` that returns the value of an expression. -/
def Node.main (e : Node) : Node :=
  ⟨default, .func (some ⟨default, .keyword "int"⟩) ⟨default, .ident "main"⟩ none [] e.returning⟩

def Node.program (e : Node) : Node := ⟨default, .root [e.main]⟩

def mainToken : Token := ⟨.ident, "main", default⟩

def bodyTokens (xs : List Token) : List Token :=
  .of .lBrace :: .of .kwReturn :: (xs ++ [.of .semicolon, .of .rBrace])

def programTokens (xs : List Token) : List Token :=
  .of .kwInt :: mainToken :: .of .lParen :: .of .rParen :: bodyTokens xs

theorem derives_body (h : Derives .expression xs [e]) :
    Derives .compound (bodyTokens xs) [e.returning] := by
  have value : Derives .statement (.of .kwReturn :: xs ++ [.of .semicolon])
      [⟨default, .returnStmt (some e)⟩] := .returnStmt rfl (.present h) rfl
  have block : Derives .compound _ [e.returning] :=
    .compound (l := .of .lBrace) (r := .of .rBrace) rfl
      (.sequenceMore (.itemStatement value) .sequenceNil) rfl
  rw [List.append_nil, List.cons_append, List.cons_append, List.cons_append, List.append_assoc]
    at block
  exact block

theorem derives_program (h : Derives .expression xs [e]) :
    Derives (.sequence .external) (programTokens xs) [e.main] := by
  have specs : Derives (.optional .declSpecs) [.of .kwInt] [⟨default, .keyword "int"⟩] :=
    .present (.declSpecs (.sequenceMore (.word rfl) .sequenceNil) (List.cons_ne_nil _ _))
  have header : Derives .declarator [mainToken, .of .lParen, .of .rParen]
      [⟨default, .function (some ⟨default, .ident "main"⟩) none⟩] :=
    .ofDirect (.function (.directName (t := mainToken) rfl) rfl .absent rfl)
  have whole : Derives .external _ [e.main] :=
    .definition specs header rfl .sequenceNil (derives_body h)
  have source := Derives.sequenceMore whole .sequenceNil
  rwa [List.append_nil, List.append_nil] at source

theorem semicolon_not_extends (c : Cursor) :
    (c.before [.of .semicolon]).peek.kind ∉ extendsExpression := by
  rw [Cursor.peek_before_cons]
  decide

theorem statement_completes (h : Accepts limit .expression xs [e])
    (hx : ∃ t ts, xs = t :: ts ∧ t.kind ≠ .semicolon) :
    Completes (statement (.levels limit k) (c.before (.of .kwReturn :: (xs ++ [.of .semicolon]))))
      (Yields ⟨default, .returnStmt (some e)⟩ c) := by
  obtain ⟨t, ts, rfl, ht⟩ := hx
  refine .peekKind rfl (.advance (.check ?_))
  rw [Cursor.before_append, Cursor.peek_before_cons, if_neg (by simpa using ht)]
  have value := h k _ (semicolon_not_extends c)
  refine Completes.bind (value.map (R := fun o d => ∃ n ∈ o,
    Yields e (c.before [.of .semicolon]) n d)
    fun n d hn => ⟨n, rfl, hn⟩) ?_
  rintro _ _ ⟨n, rfl, hn, rfl⟩
  exact .expect rfl (.pure ⟨by simp [Node.between, Node.bare_mk, Shape.map, hn], rfl⟩)

theorem Completes.statement {Q : Node → Cursor → Prop}
    (h : ∀ k, Completes (Grammar.statement (.levels limit k) c) Q) :
    Completes ((Nested.levels limit k).statement c) Q := by
  cases k with
  | zero => exact tooDeep rfl
  | succ k => exact h k

theorem compound_completes (h : Accepts limit .expression xs [e])
    (hx : ∃ t ts, xs = t :: ts ∧ t.kind ≠ .semicolon) :
    Completes (compound (.levels limit k) (c.before (bodyTokens xs))) (Yields e.returning c) := by
  refine .expect rfl ?_
  have front : c.before (.of .kwReturn :: (xs ++ [.of .semicolon, .of .rBrace])) =
      (c.before [.of .rBrace]).before (.of .kwReturn :: (xs ++ [.of .semicolon])) := by
    simp [Cursor.before]
  have items : Completes (manyUntil .rBrace
      (declarationOr (.levels limit k) (Nested.levels limit k).statement)
      (c.before (.of .kwReturn :: (xs ++ [.of .semicolon, .of .rBrace]))))
      (YieldsAll [⟨default, .returnStmt (some e)⟩] (c.before [.of .rBrace])) := by
    rw [front]
    refine .many (.manyUpTo_some (Nat.succ_pos _) (.check (.atEnd ?_)))
    refine Completes.bind (.ahead (.statement fun k => statement_completes h hx)) ?_
    rintro n _ ⟨hn, rfl⟩
    refine .pure ⟨n, rfl, ?_⟩
    rw [manyUpTo_of_none rfl]
    exact .ok ⟨by rw [List.map_cons, hn]; rfl, rfl⟩
  refine items.bind ?_
  rintro ns _ ⟨hn, rfl⟩
  refine .expect rfl (.pure ⟨?_, rfl⟩)
  have list := nonempty?_map_bare hn
  rw [Node.between, Node.bare_mk, Node.returning, Node.bare_mk, Shape.map, Shape.map, list]
  rfl

theorem Completes.declarator {Q : Node → Cursor → Prop}
    (h : ∀ k, Completes (Grammar.declarator (.levels limit k) c) Q) :
    Completes ((Nested.levels limit k).declarator c) Q := by
  cases k with
  | zero => exact tooDeep rfl
  | succ k => exact h k

theorem declarator_main (xs : List Token) (c : Cursor) : ∃ sp sp', declarator (.levels limit k)
    (c.before (mainToken :: .of .lParen :: .of .rParen :: bodyTokens xs)) =
    .ok (⟨sp, .function (some ⟨sp', .ident "main"⟩) none⟩, c.before (bodyTokens xs)) :=
  ⟨_, _, rfl⟩

theorem declSpecs_int (deep : Nested) (ys : List Token) (c : Cursor) : ∃ sp,
    declSpecs deep (c.before (.of .kwInt :: mainToken :: ys)) =
      .ok (⟨sp, .keyword "int"⟩, c.before (mainToken :: ys)) :=
  ⟨_, rfl⟩

theorem externalDeclaration_completes (h : Accepts limit .expression xs [e])
    (hx : ∃ t ts, xs = t :: ts ∧ t.kind ≠ .semicolon) :
    Completes (externalDeclaration (.levels limit k) (c.before (programTokens xs)))
      (Yields e.main c) := by
  refine .either (.either ?_)
  obtain ⟨sp, hs⟩ :=
    declSpecs_int (.levels limit k) (.of .lParen :: .of .rParen :: bodyTokens xs) c
  rw [programTokens, bind_of_ok hs]
  have header : Completes ((Nested.levels limit k).declarator
      (c.before (mainToken :: .of .lParen :: .of .rParen :: bodyTokens xs))) fun n d =>
      (∃ sp sp', n = ⟨sp, .function (some ⟨sp', .ident "main"⟩) none⟩) ∧
        d = c.before (bodyTokens xs) := by
    refine .declarator fun k => ?_
    obtain ⟨sp, sp', hd⟩ := declarator_main xs c
    rw [hd]
    exact .ok ⟨⟨sp, sp', rfl⟩, rfl⟩
  refine header.bind ?_
  rintro _ _ ⟨⟨sp', sp'', rfl⟩, rfl⟩
  rw [if_pos (by rw [Node.declaresFunction]), bind_of_ok (many_of_none rfl)]
  refine (compound_completes h hx).bind ?_
  rintro body _ ⟨hb, rfl⟩
  refine .pure ⟨?_, rfl⟩
  simp [Node.between, Node.bare_mk, Node.main, Shape.map, hb]

theorem sourceFile_completes (h : Accepts limit .expression xs [e])
    (hx : ∃ t ts, xs = t :: ts ∧ t.kind ≠ .semicolon) (t : Token) :
    Completes (sourceFile (.levels limit k) (Cursor.before (programTokens xs) ⟨[], t⟩))
      (Yields e.program ⟨[], t⟩) := by
  have items : Completes (many (do
        if ← atEnd then return none else return some (← externalDeclaration (.levels limit k)))
      (Cursor.before (programTokens xs) ⟨[], t⟩)) (YieldsAll [e.main] ⟨[], t⟩) := by
    refine .many (.manyUpTo_some (Nat.succ_pos _) (.atEnd ?_))
    refine Completes.bind (externalDeclaration_completes h hx) ?_
    rintro n _ ⟨hn, rfl⟩
    refine .pure ⟨n, rfl, ?_⟩
    rw [manyUpTo_of_none rfl]
    exact .ok ⟨by rw [List.map_cons, hn]; rfl, rfl⟩
  refine items.bind ?_
  rintro ns _ ⟨hn, rfl⟩
  refine .pure ⟨?_, rfl⟩
  rw [Node.bare_mk, Node.program, Node.bare_mk, Shape.map, Shape.map, hn]

theorem Key.Canonical.canonicalKey_eq {t : Token} (h : t.key.Canonical) :
    t.canonicalKey = t.key := by
  by_cases hb : t.kind ∈ Kind.brackets
  · have spelled : ∀ k ∈ Kind.brackets, k.spelling.isSome = true := by decide
    have lexed : t.Lexed := h.lexical
    rw [lexed.canonicalKey_eq rfl (spelled _ hb), h.eq_of (spelled _ hb)]
    rfl
  · rw [Token.canonicalKey, if_neg hb]

/-- Written tokens keep their keys, where what follows them does. -/
theorem canonicalKeys_of_written {ys : List Token} (h : AllWritten xs)
    (hy : ∀ u ∈ ys.head?, u.kind ≠ .rBrace) :
    canonicalKeys (xs ++ ys) = xs.map Token.key ++ canonicalKeys ys := by
  induction xs with
  | nil => rfl
  | cons t ts ih =>
    rw [allWritten_cons] at h
    have next : ∀ u ∈ (ts ++ ys).head?, u.kind ≠ .rBrace := by
      cases ts with
      | nil => exact hy
      | cons u us =>
        rintro _ ⟨⟩
        exact (h.2 u List.mem_cons_self).ne_rBrace
    rw [List.cons_append, canonicalKeys_comma next, ih h.2, h.1.canonical.canonicalKey_eq]
    rfl

theorem programTokens_eq (xs : List Token) : programTokens xs =
    (.of .kwInt :: mainToken :: .of .lParen :: .of .rParen :: .of .lBrace :: .of .kwReturn :: xs) ++
      [.of .semicolon, .of .rBrace] := rfl

theorem written_front (h : AllWritten xs) : AllWritten (.of .kwInt :: mainToken :: .of .lParen ::
    .of .rParen :: .of .lBrace :: .of .kwReturn :: xs) := by
  have name : mainToken.Written :=
    .mk' (Lexical.word rfl (List.all_eq_true.mp rfl) : Lexical _ ('m' :: ['a', 'i', 'n'])) rfl
  simp (disch := decide) [h, name, Token.Written.of]

theorem canonicalKeys_programTokens (h : AllWritten xs) :
    canonicalKeys (programTokens xs) = (programTokens xs).map Token.key := by
  rw [programTokens_eq, canonicalKeys_of_written (written_front h) (by rintro _ ⟨⟩; decide),
    List.map_append]
  rfl

theorem canonical_programTokens (h : AllWritten xs) :
    ∀ t ∈ programTokens xs, t.key.Canonical := by
  rw [programTokens_eq, List.forall_mem_append]
  refine ⟨fun t ht => (written_front h t ht).canonical, ?_⟩
  exact List.forall_mem_cons.mpr
    ⟨Key.canonical_of rfl, List.forall_mem_singleton.mpr (Key.canonical_of rfl)⟩

theorem Node.every_keepsDots_main (h : e.Every Shape.KeepsDots) : e.main.Every Shape.KeepsDots := by
  have leaf (s : Shape Node) (hs : s.KeepsDots) (hc : s.children = []) :
      Node.Every Shape.KeepsDots ⟨default, s⟩ :=
    .mk hs (by simp [hc])
  have value : Node.Every Shape.KeepsDots ⟨default, .returnStmt (some e)⟩ :=
    .mk trivial (List.forall_mem_singleton.mpr h)
  refine .mk trivial (List.forall_mem_cons.mpr ⟨leaf _ trivial rfl, List.forall_mem_cons.mpr
    ⟨leaf _ trivial rfl, List.forall_mem_singleton.mpr ?_⟩⟩)
  exact .mk trivial (List.forall_mem_singleton.mpr value)

/-- The text of a program is read as its tokens. -/
theorem tokenize_program (hx : AllWritten xs) (h : Derives .expression xs [e])
    (hd : e.Every Shape.KeepsDots) (o : Options) :
    ∃ doc stream, e.program.toDoc = .ok doc ∧ tokenize (doc.render o) = .ok stream ∧
      stream.tokens.map Token.key = (programTokens xs).map Token.key := by
  have canonical := canonical_programTokens hx
  have lexed : AllLexed (programTokens xs) := fun t ht => (canonical t ht).lexical
  have source := derives_program h
  obtain ⟨doc, ms, hdoc, hm, hw, hr⟩ :=
    (source.printout_plain (List.forall_mem_singleton.mpr rfl)).toDoc lexed default
  have hw := hw.trans (canonicalKeys_programTokens hx)
  have keys : ∀ k ∈ words ms, k.Canonical := by
    rw [hw]
    simpa using canonical
  have apart : dotsApart (words ms) = true := by
    rw [hw]
    exact (source.keepDots lexed
      (List.forall_mem_singleton.mpr (Node.every_keepsDots_main hd))).apart
  obtain ⟨stream, hs, hk, -⟩ :=
    (hm.render (fun k hk => (keys k hk).solid) o).tokenize keys (abutting_of_run hr) apart
  exact ⟨doc, stream, hdoc, hs, hk.trans hw⟩

theorem Node.bare_program_bare (e : Node) : e.bare.program.bare = e.program.bare := by
  simp [program, main, returning, bare_mk, Shape.map, bare_bare]

namespace Node.IsExpression

theorem keepsDots (h : e.IsExpression) : e.bare.Every Shape.KeepsDots := by
  refine (h.imp (Q := Shape.KeepsDots) fun s hs => ?_).bare fun s hs => ?_
  · cases s with
    | field object op name =>
      rintro rfl
      obtain ⟨⟨ho | ⟨-, ho⟩, -⟩, -⟩ := hs
      · simp at ho
      · exact ho
    | _ => trivial
  · cases s with
    | field object op name => exact fun hop => (isDigits_bare object).trans (hs hop)
    | _ => trivial

theorem takesNoType (h : e.IsExpression) : e.bare.Every Shape.TakesNoType := by
  refine (h.imp (Q := Shape.TakesNoType) fun s hs => ?_).bare fun s hs => ?_
  · cases s with
    | cast => exact hs.1
    | unary op e inParens =>
      obtain rfl : inParens = false := hs.1
      trivial
    | _ => trivial
  · cases s with
    | unary op e inParens => cases inParens <;> exact hs
    | cast => exact hs
    | _ => trivial

end Node.IsExpression

/-- Every expression tree survives printing and parsing: the text of a program that returns the
expression is read as that program, or it nests too deeply for the limit. -/
theorem parse_render_program {e : Node} (he : e.IsExpression) (o o' : Options) :
    ∃ doc, e.program.toDoc = .ok doc ∧
      ((∃ err, parse (doc.render o) o' = .error [.parse err] ∧ err.isTooDeep = true) ∨
        ∃ parsed, parse (doc.render o) o' = .ok parsed ∧ parsed.tree.bare = e.program.bare) := by
  obtain ⟨xs, hx⟩ := Spells.exists_of_isExpression he
  obtain ⟨doc, stream, hdoc, hs, hk⟩ := tokenize_program hx.written hx.expression he.keepsDots o
  have takes : ∀ n ∈ [e.bare], n.Every Shape.TakesNoType :=
    List.forall_mem_singleton.mpr he.takesNoType
  have starts : ∃ t ts, xs = t :: ts ∧ t.kind ≠ .semicolon := by
    obtain ⟨t, ts, rfl, ht⟩ := (hx.expression.plain rfl takes).head
    refine ⟨t, ts, rfl, fun hsemi => ?_⟩
    rw [hsemi] at ht
    revert ht
    decide
  have accepts : Accepts o'.nestingLimit .expression xs [e.bare] :=
    hx.expression.accepted trivial takes
  let spelled : TokenStream := ⟨programTokens xs, [], default⟩
  have same := TokenStream.parse_of_keys_eq (show _ = spelled.tokens.map _ from hk) o'.nestingLimit
  have source : Completes (Grammar.sourceFile (.levels o'.nestingLimit o'.nestingLimit)
      ⟨spelled.tokens, Token.eof spelled.finish⟩)
      (Yields e.bare.program ⟨[], Token.eof spelled.finish⟩) := by
    have := sourceFile_completes (k := o'.nestingLimit) accepts starts (Token.eof spelled.finish)
    rwa [Cursor.before, List.append_nil] at this
  refine ⟨doc, Node.toDoc_of_bare_eq (Node.bare_program_bare e) hdoc, ?_⟩
  obtain ⟨err, hr, deep⟩ | ⟨tree, c, hr, hb, -⟩ := source
  · have hr : spelled.parse o'.nestingLimit = .error err := by rw [TokenStream.parse, hr]; rfl
    obtain ⟨_, _, -, hn, -⟩ | ⟨err', _, hp, hp', hf, -⟩ := same
    · rw [hr] at hn
      cases hn
    · rw [hr] at hp'
      cases hp'
      exact .inl ⟨err', parse_of_error hs hp, by rw [ParseError.isTooDeep, hf]; exact deep⟩
  · have hr : spelled.parse o'.nestingLimit = .ok tree := by rw [TokenStream.parse, hr]; rfl
    obtain ⟨n, _, hn, hn', hnb⟩ | ⟨_, _, -, hp', -⟩ := same
    · rw [hr] at hn'
      cases hn'
      exact .inr ⟨_, parse_of_ok hs hn, hnb.trans (hb.trans (Node.bare_program_bare e))⟩
    · rw [hr] at hp'
      cases hp'

namespace Node

namespace IsExpression

theorem name {c : Char} (hc : Scan.isWordStart c = true)
    (hk : Kind.ofWord (String.ofList [c]) = .ident) :
    Node.IsExpression ⟨default, .ident (String.ofList [c])⟩ := by
  have word : Lexical .ident [c] := by
    rw [← hk]
    exact .word hc nofun
  exact .mk ⟨by rwa [Shape.IsExpression, String.toList_ofList], trivial⟩ nofun

end IsExpression

def product : Node :=
  let call : Node := ⟨default, .call ⟨default, .ident "f"⟩ none⟩
  let pair : Node := ⟨default, .parens ⟨default, .exprs [⟨default, .const "1"⟩, call]⟩⟩
  ⟨default, .binary ⟨default, .unary "-" ⟨default, .ident "b"⟩ false⟩ "*" pair⟩

def assignment : Node :=
  ⟨default, .assign ⟨default, .field ⟨default, .ident "a"⟩ "." "x"⟩ "+=" product⟩

theorem product_isExpression : product.IsExpression := by
  have one : IsExpression ⟨default, .const "1"⟩ := by
    have number : Lexical .constant (['1'] ++ [] ++ [] ++ []) :=
      .decimal (List.forall_mem_singleton.mpr rfl) (.inl rfl) (.inl (List.cons_ne_nil _ _))
        (.inl rfl) nofun
    exact .mk ⟨.inl number, trivial⟩ nofun
  have f : IsExpression ⟨default, .ident "f"⟩ := .name (c := 'f') rfl (by decide)
  have b : IsExpression ⟨default, .ident "b"⟩ := .name (c := 'b') rfl (by decide)
  have call : IsExpression ⟨default, .call ⟨default, .ident "f"⟩ none⟩ :=
    .mk ⟨⟨nofun, nofun⟩, rfl⟩ (List.forall_mem_singleton.mpr f)
  refine .mk ⟨trivial, 9, rfl, tight_of_isCast rfl _, tight_of_isCast rfl _⟩ ?_
  refine List.forall_mem_cons.mpr ⟨?_, List.forall_mem_singleton.mpr ?_⟩
  · exact .mk ⟨rfl, .inr ⟨by decide, rfl⟩⟩ (List.forall_mem_singleton.mpr b)
  · refine .mk ⟨trivial, trivial⟩ (List.forall_mem_singleton.mpr (.mk ⟨trivial, ?_⟩ ?_))
    · exact ⟨Nat.le_refl 2, by decide⟩
    · exact List.forall_mem_cons.mpr ⟨one, List.forall_mem_singleton.mpr call⟩

theorem assignment_isExpression : assignment.IsExpression := by
  have x : IsExpression ⟨default, .ident "x"⟩ := .name (c := 'x') rfl (by decide)
  have a : IsExpression ⟨default, .ident "a"⟩ := .name (c := 'a') rfl (by decide)
  have target : IsExpression ⟨default, .field ⟨default, .ident "a"⟩ "." "x"⟩ :=
    .mk ⟨⟨.inr ⟨rfl, rfl⟩, x.shape.1⟩, rfl⟩ (List.forall_mem_singleton.mpr a)
  have op : "+=" ∈ ["=", "+=", "-=", "*=", "/=", "%=", "&=", "|=", "^=", "<<=", ">>="] := by decide
  refine .mk ⟨op, by decide, by decide⟩ ?_
  exact List.forall_mem_cons.mpr ⟨target, List.forall_mem_singleton.mpr product_isExpression⟩

end Node

/-- The value of `a.x += -b * (1, f())` is kept with lines of three columns. -/
theorem parse_render_program_assign : Node.assignment.IsExpression ∧
    ∃ doc parsed, Node.assignment.program.toDoc = .ok doc ∧
      parse (doc.render ⟨3, 8, 256⟩) {} = .ok parsed ∧
      parsed.tree.bare = Node.assignment.program.bare := by
  have reads : (Node.assignment.program.toDoc.toOption.any fun doc =>
      (parse (doc.render ⟨3, 8, 256⟩) {}).toOption.isSome) = true := by decide +kernel
  obtain ⟨doc, hdoc, hread⟩ := exists_ok_of_any reads
  obtain ⟨doc', hdoc', ⟨err, herr, -⟩ | ⟨parsed, hp, hb⟩⟩ :=
    parse_render_program Node.assignment_isExpression ⟨3, 8, 256⟩ {}
  · cases hdoc.symm.trans hdoc'
    rw [herr] at hread
    cases hread
  · exact ⟨Node.assignment_isExpression, doc', parsed, hdoc', hp, hb⟩

end CPretty
