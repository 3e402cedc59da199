import CPretty.Proofs.Format.Ranges
import CPretty.Proofs.Grammar.Concat
import CPretty.Proofs.Grammar.Ladder
import CPretty.Proofs.Token.Respaced

namespace CPretty

open Parse Grammar

variable {limit m : Nat} {c d : Cursor} {f : Token} {ts : List Token} {n : Node} {ks : List Key}
  {o : Options} {a : Arm}

def headerTokens (l : Nat → Location) : List Token :=
  [⟨.kwVoid, "void", l 0⟩, ⟨.ident, "f", l 1⟩, ⟨.lParen, "(", l 2⟩, ⟨.rParen, ")", l 3⟩,
    ⟨.lBrace, "\x7b", l 4⟩]

def voidKeys (ks : List Key) : List Key :=
  .of .kwVoid :: ⟨.ident, "f"⟩ :: .of .lParen :: .of .rParen :: .of .lBrace :: (ks ++ [.of .rBrace])

def Node.voidF (s : Node) : Node :=
  ⟨default, .root [⟨default, .func (some ⟨default, .keyword "void"⟩) ⟨default, .ident "f"⟩ none []
    ⟨default, .compound (some [s])⟩⟩]⟩

/-- What stands in the body of a function, if that is all there is in the source. -/
def Node.bodyItems? : Node → Option (List Node)
  | ⟨_, .root [⟨_, .func _ _ _ _ ⟨_, .compound items⟩⟩]⟩ => items
  | _ => none

def TokenStream.inside (s : TokenStream) (sp : Span) : List Token :=
  s.tokens.filter fun t => sp.Holds t.location

/-- The source `void f() { if (c) s }` parses as a single `if` statement without `else`. Its
condition and its body go over exactly the tokens of the arm. -/
def Arm.Parses (a : Arm) (o : Options) : Prop :=
  ∃ source stream parsed sp, tokenize source = .ok stream ∧
    stream.tokens.map Token.key = voidKeys a.keys ∧ parse source o = .ok parsed ∧
    parsed.tree.bodyItems? = some [⟨sp, .ifStmt a.cond a.body none⟩] ∧
    (stream.inside a.cond.span).map Token.key = a.condKeys ∧
    (stream.inside a.body.span).map Token.key = a.bodyKeys

theorem exists_header (h : ts.map Token.key = voidKeys ks) :
    ∃ l us, ts = headerTokens l ++ us ∧ us.map Token.key = ks ++ [.of .rBrace] := by
  obtain ⟨t₁, ts, rfl, h₁, h⟩ := List.map_eq_cons_iff.mp h
  obtain ⟨t₂, ts, rfl, h₂, h⟩ := List.map_eq_cons_iff.mp h
  obtain ⟨t₃, ts, rfl, h₃, h⟩ := List.map_eq_cons_iff.mp h
  obtain ⟨t₄, ts, rfl, h₄, h⟩ := List.map_eq_cons_iff.mp h
  obtain ⟨t₅, ts, rfl, h₅, h⟩ := List.map_eq_cons_iff.mp h
  have literal {u : Token} {k : Kind} {x : String} (h : u.key = ⟨k, x⟩) :
      u = ⟨k, x, u.location⟩ := by
    obtain ⟨_, _, _⟩ := u
    cases h
    rfl
  refine ⟨fun i => ([t₁, t₂, t₃, t₄, t₅].map Token.location).getD i default, ts, ?_, h⟩
  rw [literal h₁, literal h₂, literal h₃, literal h₄, literal h₅]
  rfl

theorem typed_header (limit m : Nat) (l : Nat → Location) (ts : List Token) (f : Token) :
    ∃ w : Node → Node, (∀ b, ∃ sp sp₁ sp₂,
      w b = ⟨sp, .func (some ⟨sp₁, .keyword "void"⟩) ⟨sp₂, .ident "f"⟩ none [] b⟩) ∧
    typed (.levels limit (m + 1)) ⟨headerTokens l ++ ts, f⟩ =
      (w <$> compound (.levels limit (m + 1))) ⟨⟨.lBrace, "\x7b", l 4⟩ :: ts, f⟩ := by
  obtain ⟨sp, hs⟩ : ∃ sp, declSpecs (.levels limit (m + 1)) ⟨headerTokens l ++ ts, f⟩ =
      .ok (⟨sp, .keyword "void"⟩, ⟨(headerTokens l).tail ++ ts, f⟩) := ⟨_, rfl⟩
  obtain ⟨sp₁, sp₂, hd⟩ : ∃ sp₁ sp₂, (Nested.levels limit (m + 1)).declarator
      ⟨(headerTokens l).tail ++ ts, f⟩ = .ok (⟨sp₁, .function (some ⟨sp₂, .ident "f"⟩) none⟩,
        ⟨⟨.lBrace, "\x7b", l 4⟩ :: ts, f⟩) := ⟨_, _, rfl⟩
  refine ⟨fun b => Node.between sp b.span
    (.func (some ⟨sp, .keyword "void"⟩) ⟨sp₂, .ident "f"⟩ none [] b), fun b => ⟨_, _, _, rfl⟩, ?_⟩
  rw [typed, bind_of_ok hs, functionDefinition, bind_of_ok hd,
    if_pos (by rw [Node.declaresFunction]), bind_of_ok (many_of_none rfl), map_eq_pure_bind]
  rfl

theorem typed_zero (l : Nat → Location) (n : Node) :
    typed (.levels limit 0) ⟨headerTokens l ++ ts, f⟩ ≠ .ok (n, d) := nofun

theorem untyped_header (l : Nat → Location) (n : Node) :
    functionDefinition (.levels limit m) none ⟨headerTokens l ++ ts, f⟩ ≠ .ok (n, d) := by
  cases m <;> exact nofun

theorem Node.bodyItems?_cases {ns : List Node} (h : n.bodyItems? = some ns) :
    ∃ sp sp' specs name params ds sp'', n =
      ⟨sp, .root [⟨sp', .func specs name params ds ⟨sp'', .compound (some ns)⟩⟩]⟩ := by
  unfold Node.bodyItems? at h
  split at h
  · cases h
    exact ⟨_, _, _, _, _, _, _, rfl⟩
  · cases h

theorem external?_ok {deep : Nested} (h : external? deep c = .ok (some n, d)) :
    externalDeclaration deep c = .ok (n, d) := by
  obtain ⟨b, c₁, h₁, h⟩ := bind_ok h
  cases h₁
  split at h
  · cases h
  · obtain ⟨n', c₁, h₁, h⟩ := bind_ok h
    cases h
    exact h₁

theorem compound_first {deep : Nested} {sp : Span} {ns : List Node}
    (h : compound deep c = .ok (⟨sp, .compound (some (n :: ns))⟩, d)) :
    ∃ b, declarationOr deep deep.statement c.advance = .ok (n, b) := by
  obtain ⟨l, c₁, h₁, h⟩ := bind_ok h
  rw [expect_apply] at h₁
  split at h₁
  · cases h₁
    obtain ⟨items, c₂, h₂, h⟩ := bind_ok h
    obtain ⟨_, c₃, -, h⟩ := bind_ok h
    obtain ⟨he, -⟩ := pure_ok h
    cases items with
    | nil => cases he
    | cons item items =>
      cases he
      obtain ⟨b, h₂⟩ := many_first h₂
      rw [bind_of_ok (check_apply _ _), bind_of_ok (atEnd_apply _)] at h₂
      split at h₂
      · cases h₂
      · obtain ⟨n', c₄, h₄, h₂⟩ := bind_ok h₂
        cases h₂
        exact ⟨b, h₄⟩
  · cases h₁

section

variable {u : Token} {deep : Nested}

theorem declarationOr_if (hu : u.kind = .kwIf) (p : Parse Node) :
    declarationOr deep p ⟨u :: ts, f⟩ = p ⟨u :: ts, f⟩ := by
  obtain ⟨k, x, l⟩ := u
  obtain rfl : k = .kwIf := hu
  rfl

theorem statement_if (hu : u.kind = .kwIf) : statement deep ⟨u :: ts, f⟩ =
    ifStatementUpTo deep ((u :: ts).length + 1) ⟨u :: ts, f⟩ := by
  obtain ⟨k, x, l⟩ := u
  obtain rfl : k = .kwIf := hu
  rfl

end

/-- The statement in the body of the function, where an `if` stands there. -/
theorem TokenStream.if_of_parse {s : TokenStream} {l : Nat → Location} {u : Token} {sp : Span}
    {cond yes : Node} (h : s.parse limit = .ok n) (hs : s.tokens = headerTokens l ++ u :: ts)
    (hu : u.kind = .kwIf) (hn : n.bodyItems? = some [⟨sp, .ifStmt cond yes none⟩]) :
    ∃ m d, limit = m + 1 ∧ ifStatementUpTo (.levels limit m) ((u :: ts).length + 1)
      ⟨u :: ts, Token.eof s.finish⟩ = .ok (⟨sp, .ifStmt cond yes none⟩, d) := by
  have ended : (⟨s.tokens, Token.eof s.finish⟩ : Cursor).Ended := rfl
  obtain ⟨d, h⟩ := sourceFile_of_parse h
  obtain ⟨-, sp₀, ns, hm, rfl⟩ := sourceFile_cases (.levels limit limit) ended h
  obtain ⟨_, _, _, _, _, _, _, he⟩ := Node.bodyItems?_cases hn
  cases he
  obtain ⟨d₁, hx⟩ := many_first hm
  have hx := external?_ok hx
  rw [hs] at hx ended
  obtain hx | hx := either_ok hx
  · obtain hx | hx := either_ok hx
    · cases limit with
      | zero => exact absurd hx (typed_zero l _)
      | succ m =>
        obtain ⟨w, hw, ht⟩ := typed_header (m + 1) m l (u :: ts) (Token.eof s.finish)
        obtain ⟨body, hx, he⟩ := map_ok (ht.symm.trans hx)
        obtain ⟨_, _, _, hb⟩ := hw body
        cases he.trans hb
        obtain ⟨b, hx⟩ := compound_first hx
        have hx : statement (.levels (m + 1) m) ⟨u :: ts, Token.eof s.finish⟩ = _ :=
          (declarationOr_if hu _).symm.trans hx
        exact ⟨m, b, rfl, (statement_if hu).symm.trans hx⟩
    · obtain ⟨_, -, hx⟩ := declaration_reads (.levels limit limit) ended hx
      cases hx
  · exact absurd hx (untyped_header l _)

/-- An arm that parses by itself is read alike whatever comes behind. -/
theorem Arm.Parses.reads (h : a.Parses o) : ∃ m, o.nestingLimit = m + 1 ∧
    ∃ cs ys, a.Reads (.levels o.nestingLimit m) cs ys := by
  obtain ⟨source, stream, parsed, sp, hs, hk, hp, hn, hcond, hyes⟩ := h
  obtain ⟨stream', hs', ht, -⟩ := parse_cases hp
  cases hs.symm.trans hs'
  have order := inOrder_of_tokenize hs
  obtain ⟨l, us, htok, hus⟩ := exists_header hk
  obtain ⟨u, us, rfl, hu, hus⟩ := List.map_eq_cons_iff.mp hus
  obtain ⟨m, d, hm, hr⟩ := TokenStream.if_of_parse ht htok (congrArg Key.kind hu) hn
  have ended : (⟨u :: us, Token.eof stream.finish⟩ : Cursor).Ended := rfl
  obtain ⟨kw, p, xs, r, ys, px, hx, hy, cond, body⟩ :=
    ifStatementUpTo_cases (.levels _ m) ended (congrArg Key.kind hu) hr
  have whole : u :: us = kw :: (p :: xs ++ [r] ++ ys) ++ d.ahead := px.ahead
  have split : stream.tokens = headerTokens l ++ [kw, p] ++ xs ++ (r :: ys ++ d.ahead) := by
    rw [htok, whole]
    simp
  have split' : stream.tokens = headerTokens l ++ kw :: p :: xs ++ [r] ++ ys ++ d.ahead := by
    rw [htok, whole]
    simp
  rw [TokenStream.inside, split, hx.filter_eq (split ▸ order)] at hcond
  rw [TokenStream.inside, split', hy.filter_eq (split' ▸ order)] at hyes
  have keys : (u :: us).map Token.key = a.keys ++ [.of .rBrace] := congrArg₂ List.cons hu hus
  rw [whole, Arm.keys] at keys
  simp only [List.cons_append, List.map_cons, List.map_append, List.append_assoc, hcond,
    List.cons.injEq, List.append_cancel_left_eq] at keys
  refine ⟨m, hm, p :: xs ++ [r], ys, ?_, hyes, hy.starts.ne_nil, cond, body⟩
  simp [hcond, keys]

section

variable {u : Token} {us : List Token} (hu : u.kind = .kwIf)
include hu

/-- A block of one `if` statement. -/
theorem compound_if {t : Token} (ht : t.kind = .lBrace)
    (h : ifStatementUpTo (.levels limit m) ((u :: us).length + 1) ⟨u :: us, f⟩ =
      .ok (n, ⟨[.of .rBrace], f⟩)) :
    ∃ sp, compound (.levels limit (m + 1)) ⟨t :: u :: us, f⟩ =
      .ok (⟨sp, .compound (some [n])⟩, ⟨[], f⟩) := by
  let deep : Nested := .levels limit (m + 1)
  have item : declarationOr deep deep.statement ⟨u :: us, f⟩ = .ok (n, ⟨[.of .rBrace], f⟩) := by
    rw [declarationOr_if hu]
    exact (statement_if hu).trans h
  have step : (do
      if (← check .rBrace) || (← atEnd) then return none
      else return some (← declarationOr deep deep.statement)) ⟨u :: us, f⟩ =
      .ok (some n, ⟨[.of .rBrace], f⟩) := by
    rw [bind_of_ok (check_apply _ _), bind_of_ok (atEnd_apply _),
      if_neg (by simp [Cursor.peek, hu]), bind_of_ok item]
    rfl
  have items : manyUntil .rBrace (declarationOr deep deep.statement) ⟨u :: us, f⟩ =
      .ok ([n], ⟨[.of .rBrace], f⟩) := by
    rw [manyUntil, many, bind_of_ok (ahead_apply _), manyUpTo, bind_of_ok step]
    dsimp only
    rw [bind_of_ok (manyUpTo_of_none rfl _)]
    rfl
  have first : expect .lBrace ⟨t :: u :: us, f⟩ = .ok (t, ⟨u :: us, f⟩) :=
    expect_before (c := ⟨u :: us, f⟩) ht
  have last : expect .rBrace ⟨[.of .rBrace], f⟩ = .ok (Token.of .rBrace, ⟨[], f⟩) := rfl
  rw [compound, bind_of_ok first, bind_of_ok items, bind_of_ok last]
  exact ⟨_, rfl⟩

theorem TokenStream.parse_of_if (l : Nat → Location) (loc : Location)
    (h : ifStatementUpTo (.levels (m + 1) m) ((u :: us).length + 1) ⟨u :: us, Token.eof loc⟩ =
      .ok (n, ⟨[.of .rBrace], Token.eof loc⟩)) :
    ∃ tree, TokenStream.parse ⟨headerTokens l ++ u :: us, [], loc⟩ (m + 1) = .ok tree ∧
      tree.bare = (Node.voidF n).bare := by
  obtain ⟨w, hw, ht⟩ := typed_header (m + 1) m l (u :: us) (Token.eof loc)
  obtain ⟨sp, hb⟩ := compound_if hu (t := ⟨.lBrace, "\x7b", l 4⟩) rfl h
  obtain ⟨_, _, _, hw⟩ := hw ⟨sp, .compound (some [n])⟩
  rw [map_eq_pure_bind, bind_of_ok hb, hw] at ht
  have external := either_of_ok (either_of_ok ht (declaration (.levels (m + 1) (m + 1))))
    (functionDefinition (.levels (m + 1) (m + 1)) none)
  have ended : (⟨headerTokens l ++ u :: us, Token.eof loc⟩ : Cursor).Ended := rfl
  have all := externals_of_first (.levels (m + 1) (m + 1)) ended external
  rw [map_eq_pure_bind, bind_of_ok (many_of_none rfl)] at all
  obtain ⟨sp', tree⟩ :=
    TokenStream.parse_of_externals (s := ⟨headerTokens l ++ u :: us, [], loc⟩) all
  refine ⟨_, tree, ?_⟩
  simp [Node.voidF, Node.bare_mk, Shape.map]

end

theorem mem_ladderKeys {k : Key} {arms : List Arm} {alt : Option (List Key)}
    (h : k ∈ ladderKeys a arms alt) :
    (∃ b ∈ a :: arms, k ∈ b.keys) ∨ k = .of .kwElse ∨ ∃ ks ∈ alt, k ∈ ks := by
  induction arms generalizing a with
  | nil =>
    cases alt with
    | none => exact .inl ⟨a, List.mem_cons_self, h⟩
    | some ks =>
      obtain h | h := List.mem_append.mp h
      · exact .inl ⟨a, List.mem_cons_self, h⟩
      · exact .inr ((List.mem_cons.mp h).imp_right fun h => ⟨ks, rfl, h⟩)
  | cons b arms ih =>
    obtain h | h := List.mem_append.mp h
    · exact .inl ⟨a, List.mem_cons_self, h⟩
    · obtain h | h := List.mem_cons.mp h
      · exact .inr (.inl h)
      · exact (ih h).imp_left fun ⟨b', hb, hk⟩ => ⟨b', List.mem_cons_of_mem a hb, hk⟩

theorem Arm.Parses.lexical (h : a.Parses o) :
    ∀ k ∈ voidKeys a.keys, Lexical k.kind k.text.toList := by
  obtain ⟨source, stream, _, _, hs, hk, -⟩ := h
  rw [← hk, List.forall_mem_map]
  exact lexed_of_tokenize hs

theorem lexical_ladderKeys {arms : List Arm} {alt : Option Arm}
    (harms : ∀ b ∈ a :: arms, b.Parses o) (halt : ∀ b ∈ alt, b.Parses o) :
    ∀ k ∈ voidKeys (ladderKeys a arms (alt.map Arm.bodyKeys)), Lexical k.kind k.text.toList := by
  have within {ks : List Key} {k : Key} (h : k ∈ ks) : k ∈ voidKeys ks := by simp [voidKeys, h]
  have frame {ks : List Key} {k : Key} (h : k ∈ voidKeys ks) : k ∈ ks ∨ k ∈ voidKeys a.keys := by
    simp only [voidKeys, List.mem_cons, List.mem_append] at h ⊢
    tauto
  intro k hk
  obtain hk | hk := frame hk
  · obtain ⟨b, hb, hk⟩ | rfl | ⟨ks, hks, hk⟩ := mem_ladderKeys hk
    · exact (harms b hb).lexical k (within hk)
    · exact (Key.canonical_of rfl).lexical
    · obtain ⟨b, hb, rfl⟩ := Option.map_eq_some_iff.mp hks
      exact (halt b hb).lexical k (within (by simp [Arm.keys, hk]))
  · exact (harms a List.mem_cons_self).lexical k hk

/-- A ladder of `if` statements parses under a nesting limit that suits each of its arms and its
last alternative, read by themselves. Its tree is the chain of the `if` statements, linked through
their alternatives, with the conditions and bodies as they were read. -/
theorem parse_ladder {arms : List Arm} {alt : Option Arm}
    (harms : ∀ b ∈ a :: arms, b.Parses o ∧ ¬ b.body.EndsOpen)
    (halt : ∀ b ∈ alt, b.Parses o ∧ ∀ k ∈ b.bodyKeys.head?, k.kind ≠ .kwIf) :
    let keys := voidKeys (ladderKeys a arms (alt.map Arm.bodyKeys))
    (∃ source stream, tokenize source = .ok stream ∧ stream.tokens.map Token.key = keys) ∧
      ∀ source stream, tokenize source = .ok stream → stream.tokens.map Token.key = keys →
        ∃ parsed, parse source o = .ok parsed ∧
          parsed.tree.bare = (Node.voidF (.ladder a arms (alt.map Arm.body))).bare := by
  intro keys
  obtain ⟨m, hm, -⟩ := (harms a List.mem_cons_self).1.reads
  have reads {b : Arm} (hb : b.Parses o) : ∃ cs ys, b.Reads (.levels (m + 1) m) cs ys := by
    obtain ⟨m', hm', cs, ys, h⟩ := hb.reads
    obtain rfl : m' = m := by omega
    exact ⟨cs, ys, hm' ▸ h⟩
  obtain ⟨xs, hkeys, run⟩ := Node.ladder_reads (fun b hb => ⟨(harms b hb).2, reads (harms b hb).1⟩)
    fun b hb => ⟨(halt b hb).2, reads (halt b hb).1⟩
  let rest : Cursor := ⟨[.of .rBrace], Token.eof default⟩
  have ended : rest.Ended := rfl
  obtain ⟨n, hn, bare⟩ := run ended (by decide) _ (Nat.lt_succ_self _)
  obtain ⟨tree, htree, hbare⟩ :=
    TokenStream.parse_of_if (u := .of .kwIf) rfl (fun _ => default) _ hn
  let spelled : TokenStream :=
    ⟨headerTokens (fun _ => default) ++ .of .kwIf :: (xs ++ [.of .rBrace]), [], default⟩
  have spelled_keys : spelled.tokens.map Token.key = keys := by
    rw [List.map_append, ← List.cons_append, List.map_append, hkeys]
    rfl
  refine ⟨?_, fun source stream hs hk => ?_⟩
  · rw [← spelled_keys]
    refine exists_tokenize fun t ht => ?_
    have word : t.key ∈ keys := by
      rw [← spelled_keys]
      exact List.mem_map_of_mem ht
    exact lexical_ladderKeys (fun b hb => (harms b hb).1) (fun b hb => (halt b hb).1) _ word
  · obtain ⟨n₁, n₂, h₁, h₂, hb⟩ | ⟨_, _, -, he, -⟩ :=
      TokenStream.parse_of_keys_eq (hk.trans spelled_keys.symm) (m + 1)
    · cases htree.symm.trans h₂
      refine ⟨_, parse_of_ok hs (hm ▸ h₁), ?_⟩
      rw [hb, hbare]
      simp [Node.voidF, Node.bare_mk, Shape.map, bare]
    · cases htree.symm.trans he

theorem exists_arm (source : String) (o : Options) (cond body : List Key)
    (h : ((tokenize source).toOption.any fun stream => (parse source o).toOption.any fun parsed =>
      match parsed.tree.bodyItems? with
      | some [⟨_, .ifStmt c s none⟩] =>
        stream.tokens.map Token.key == voidKeys (Arm.keys ⟨cond, body, c, s⟩) &&
          (stream.inside c.span).map Token.key == cond &&
          (stream.inside s.span).map Token.key == body && !s.isOpenIf && s.lastPart?.isNone
      | _ => false) = true) :
    ∃ a : Arm, a.condKeys = cond ∧ a.bodyKeys = body ∧ a.Parses o ∧ ¬ a.body.EndsOpen := by
  obtain ⟨stream, hs, h⟩ := exists_ok_of_any h
  obtain ⟨parsed, hp, h⟩ := exists_ok_of_any h
  split at h
  next sp c s hn =>
    simp only [Bool.and_eq_true, beq_iff_eq, Bool.not_eq_true', Option.isNone_iff_eq_none] at h
    obtain ⟨⟨⟨⟨hk, hc⟩, hb⟩, ho⟩, hl⟩ := h
    exact ⟨⟨cond, body, c, s⟩, rfl, rfl, ⟨source, stream, parsed, sp, hs, hk, hp, hn, hc, hb⟩,
      Node.not_endsOpen ho hl⟩
  next => cases h

/-- Three statements under a limit of two, which suits each of them but nothing within them. -/
theorem parse_ladder_two : ∃ (a b c : Arm) (parsed : Parsed),
    a.condKeys = [⟨.ident, "a"⟩] ∧ a.bodyKeys = [.of .semicolon] ∧ a.Parses ⟨80, 2, 2⟩ ∧
    b.condKeys = [⟨.ident, "b"⟩] ∧ b.bodyKeys = [.of .kwBreak, .of .semicolon] ∧
    b.Parses ⟨80, 2, 2⟩ ∧ c.bodyKeys = [.of .kwReturn, .of .semicolon] ∧ c.Parses ⟨80, 2, 2⟩ ∧
    parse "void f() \x7b if (a) ; else if (b) break; else return; \x7d" ⟨80, 2, 2⟩ = .ok parsed ∧
    parsed.tree.bare = (Node.voidF (.ladder a [b] (some c.body))).bare := by
  let o : Options := ⟨80, 2, 2⟩
  obtain ⟨a, hac, hab, ha, closed⟩ := exists_arm "void f() \x7b if (a) ; \x7d" o
    [⟨.ident, "a"⟩] [.of .semicolon] (by decide +kernel)
  obtain ⟨b, hbc, hbb, hb, closed'⟩ := exists_arm "void f() \x7b if (b) break; \x7d" o
    [⟨.ident, "b"⟩] [.of .kwBreak, .of .semicolon] (by decide +kernel)
  obtain ⟨c, hcc, hcb, hc, -⟩ := exists_arm "void f() \x7b if (a) return; \x7d" o
    [⟨.ident, "a"⟩] [.of .kwReturn, .of .semicolon] (by decide +kernel)
  have arms : ∀ x ∈ [a, b], x.Parses o ∧ ¬ x.body.EndsOpen :=
    List.forall_mem_cons.mpr ⟨⟨ha, closed⟩, List.forall_mem_singleton.mpr ⟨hb, closed'⟩⟩
  have alt : ∀ x ∈ some c, x.Parses o ∧ ∀ k ∈ x.bodyKeys.head?, k.kind ≠ .kwIf := by
    rintro _ ⟨⟩
    refine ⟨hc, ?_⟩
    rw [hcb]
    rintro _ ⟨⟩
    decide
  obtain ⟨stream, hs, hk⟩ := exists_ok_of_any
    (x := tokenize "void f() \x7b if (a) ; else if (b) break; else return; \x7d")
    (p := fun s => s.tokens.map Token.key == voidKeys ([.of .kwIf, .of .lParen, ⟨.ident, "a"⟩,
      .of .rParen, .of .semicolon, .of .kwElse, .of .kwIf, .of .lParen, ⟨.ident, "b"⟩, .of .rParen,
      .of .kwBreak, .of .semicolon, .of .kwElse, .of .kwReturn, .of .semicolon]))
    (by decide +kernel)
  obtain ⟨-, parses⟩ := parse_ladder arms alt
  obtain ⟨parsed, hp, ht⟩ := parses _ stream hs <| by
    rw [eq_of_beq hk]
    simp [ladderKeys, Arm.keys, hac, hab, hbc, hbb, hcb]
  exact ⟨a, b, c, parsed, hac, hab, ha, hbc, hbb, hb, hcb, hc, hp, ht⟩

end CPretty
