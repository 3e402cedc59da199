import CPretty.Proofs.Format.Tokens
import CPretty.Proofs.Grammar.Alike.SourceFile

namespace CPretty

variable {source source' text : String} {o o' : Options} {parsed : Parsed}
  {stream stream' : TokenStream}

theorem format_of_parse (h : parse source o = .ok parsed) :
    ∃ doc, parsed.tree.toDoc = .ok doc ∧ format source o = .ok (doc.render o) := by
  obtain ⟨stream, hs, ht, -⟩ := parse_cases h
  obtain ⟨sp, ns, hroot, hder⟩ := TokenStream.derives_of_parse ht
  obtain ⟨ys, hp, hy⟩ := hder.printout (lexed_of_tokenize hs)
  obtain ⟨doc, ms, hd, -⟩ := hp.toDoc hy sp
  rw [← hroot] at hd
  refine ⟨doc, hd, ?_⟩
  have hl : layoutDoc source o = .ok doc := by simp only [layoutDoc, h, hd]
  rw [format, hl]
  rfl

theorem format_of_bare_eq {parsed' : Parsed} (h : parse source o = .ok parsed)
    (h' : parse source' o = .ok parsed') (hb : parsed.tree.bare = parsed'.tree.bare) :
    ∃ text, format source o = .ok text ∧ format source' o = .ok text := by
  obtain ⟨doc, hd, hf⟩ := format_of_parse h
  obtain ⟨doc', hd', hf'⟩ := format_of_parse h'
  rw [Node.toDoc_of_bare_eq hb hd] at hd'
  cases hd'
  exact ⟨_, hf, hf'⟩

theorem parse_of_error {e : ParseError} (hs : tokenize source = .ok stream)
    (h : stream.parse o.nestingLimit = .error e) : parse source o = .error [.parse e] := by
  simp only [parse, hs, h]

theorem parse_of_ok {tree : Node} (hs : tokenize source = .ok stream)
    (h : stream.parse o.nestingLimit = .ok tree) :
    parse source o = .ok ⟨tree, stream.comments⟩ := by
  simp only [parse, hs, h]

theorem format_of_error {es : List SyntaxError} (h : parse source o = .error es) :
    format source o = .error (.badSource es) := by
  have hl : layoutDoc source o = .error (.badSource es) := by simp only [layoutDoc, h]
  rw [format, hl]
  rfl

def TokenStream.SameIndex (stream stream' : TokenStream) (t t' : Token) : Prop :=
  ∃ i : Nat, stream.terminated[i]? = some t ∧ stream'.terminated[i]? = some t'

theorem TokenStream.terminated_keys
    (h : stream.tokens.map Token.key = stream'.tokens.map Token.key) :
    stream.terminated.map Token.key = stream'.terminated.map Token.key := by
  rw [terminated, terminated, List.map_append, List.map_append, h]
  rfl

theorem TokenStream.SameIndex.key {t t' : Token} (h : stream.SameIndex stream' t t')
    (hk : stream.tokens.map Token.key = stream'.tokens.map Token.key) : t.key = t'.key := by
  obtain ⟨i, hi, hi'⟩ := h
  have := congrArg (·[i]?) (terminated_keys hk)
  simpa [hi, hi'] using this

/-- The tokens of two streams with the same keys correspond by their index. -/
def Likeness.byIndex (h : stream.tokens.map Token.key = stream'.tokens.map Token.key) :
    Likeness where
  token := stream.SameIndex stream'
  left _ := default
  right _ := default
  limit? := none
  kind_eq ht := congrArg Key.kind (ht.key h)
  text_eq ht _ := congrArg Key.text (ht.key h)
  span_eq _ := rfl
  left_through _ _ := rfl
  right_through _ _ := rfl

theorem TokenStream.sameIndex (h : stream.tokens.map Token.key = stream'.tokens.map Token.key) :
    List.Forall₂ (stream.SameIndex stream') stream.tokens stream'.tokens ∧
      stream.SameIndex stream' (Token.eof stream.finish) (Token.eof stream'.finish) := by
  have hl : stream.tokens.length = stream'.tokens.length := by
    simpa using congrArg List.length h
  refine ⟨List.forall₂_iff_get.mpr ⟨hl, fun i hi hi' => ⟨i, ?_, ?_⟩⟩, stream.tokens.length, ?_, ?_⟩
  · simp [terminated, List.getElem?_append_left hi]
  · simp [terminated, List.getElem?_append_left hi']
  · simp [terminated]
  · simp [terminated, hl]

theorem TokenStream.parse_of_keys_eq
    (hk : stream.tokens.map Token.key = stream'.tokens.map Token.key) (limit : Nat) :
    (∃ n n', stream.parse limit = .ok n ∧ stream'.parse limit = .ok n' ∧ n.bare = n'.bare) ∨
      ∃ e e', stream.parse limit = .error e ∧ stream'.parse limit = .error e' ∧
        e.fault = e'.fault ∧ stream.SameIndex stream' e.found e'.found := by
  obtain ⟨tokens, finish⟩ := sameIndex hk
  have levels := (Likeness.Nesteds.refused (L := .byIndex hk) limit).levels limit
  obtain ⟨n, n', hn, hn', hb⟩ | ⟨e, e', he, he', hf, ht, -⟩ | ⟨_, _, _, hl, _⟩ :=
    Likeness.parse_alike levels tokens finish
  · exact .inl ⟨n, n', hn, hn', hb⟩
  · exact .inr ⟨e, e', he, he', hf, ht⟩
  · cases hl

/-- Nothing but the kinds and texts of its tokens decides what becomes of a source: two sources
with the same have trees that agree up to their ranges and the same text, or they fail in the same
way at the same token. -/
theorem format_of_keys_eq (hs : tokenize source = .ok stream) (hs' : tokenize source' = .ok stream')
    (hk : stream.tokens.map Token.key = stream'.tokens.map Token.key) (o : Options) :
    (∃ parsed parsed' text, parse source o = .ok parsed ∧ parse source' o = .ok parsed' ∧
      parsed.tree.bare = parsed'.tree.bare ∧ format source o = .ok text ∧
      format source' o = .ok text) ∨
    ∃ e e', parse source o = .error [.parse e] ∧ parse source' o = .error [.parse e'] ∧
      format source o = .error (.badSource [.parse e]) ∧
      format source' o = .error (.badSource [.parse e']) ∧ e.fault = e'.fault ∧
      e.found.key = e'.found.key ∧ ∃ i : Nat, stream.terminated[i]? = some e.found ∧
        stream'.terminated[i]? = some e'.found := by
  obtain ⟨n, n', hn, hn', hb⟩ | ⟨e, e', he, he', hf, ht⟩ :=
    TokenStream.parse_of_keys_eq hk o.nestingLimit
  · have hp := parse_of_ok hs hn
    have hp' := parse_of_ok hs' hn'
    obtain ⟨text, hf, hf'⟩ := format_of_bare_eq hp hp' hb
    exact .inl ⟨_, _, text, hp, hp', hb, hf, hf'⟩
  · have hp := parse_of_error hs he
    have hp' := parse_of_error hs' he'
    exact .inr ⟨e, e', hp, hp', format_of_error hp, format_of_error hp', hf, ht.key hk, ht⟩

/-- An operand is missing on another line of the second source, but at the same token. -/
theorem format_of_keys_eq_comment : ∃ stream stream' e e',
    tokenize "int a = (1 + );" = .ok stream ∧
      tokenize "int a =\n  (1 /* one */\n  + );" = .ok stream' ∧
      parse "int a = (1 + );" {} = .error [.parse e] ∧
      parse "int a =\n  (1 /* one */\n  + );" {} = .error [.parse e'] ∧ e.fault = e'.fault ∧
      ∃ i : Nat, stream.terminated[i]? = some e.found ∧
        stream'.terminated[i]? = some e'.found := by
  let keys : List Key := [⟨.kwInt, "int"⟩, ⟨.ident, "a"⟩, ⟨.eq, "="⟩, ⟨.lParen, "("⟩,
    ⟨.constant, "1"⟩, ⟨.plus, "+"⟩, ⟨.rParen, ")"⟩, ⟨.semicolon, ";"⟩]
  obtain ⟨stream, hs, hk⟩ := exists_ok_of_any (x := tokenize "int a = (1 + );")
    (p := fun s => s.tokens.map Token.key == keys) (by decide +kernel)
  obtain ⟨stream', hs', hk'⟩ :=
    exists_ok_of_any (x := tokenize "int a =\n  (1 /* one */\n  + );")
      (p := fun s => s.tokens.map Token.key == keys) (by decide +kernel)
  have fails : (parse "int a = (1 + );" {}).toOption.isNone = true := by decide +kernel
  obtain ⟨p, _, _, hp, _⟩ | ⟨e, e', hp, hp', -, -, hf, -, hi⟩ :=
    format_of_keys_eq hs hs' ((eq_of_beq hk).trans (eq_of_beq hk').symm) {}
  · rw [hp] at fails
    cases fails
  · exact ⟨stream, stream', e, e', hs, hs', hp, hp', hf, hi⟩

theorem TokenStream.parse_of_le {l l' : Nat} (h : l ≤ l') :
    (∃ e, stream.parse l = .error e ∧ e.fault = .tooDeep l) ∨
      stream.parse l' = stream.parse l := by
  obtain ⟨k, rfl⟩ := Nat.exists_eq_add_of_le h
  have levels := Likeness.lower_levels l (l + k) l k
  have tokens : List.Forall₂ (Likeness.lower l).token stream.tokens stream.tokens :=
    List.forall₂_eq_eq_eq ▸ rfl
  obtain ⟨n, n', hn, hn', hr⟩ | ⟨e, e', he, he', hr⟩ | ⟨e, lim, he, hl, hf⟩ :=
    Likeness.parse_alike levels tokens rfl
  · exact .inr (by rw [hn, hn', Likeness.lower_nodes.mp hr])
  · obtain ⟨fault, found, left⟩ := e
    obtain ⟨rfl, rfl, rfl⟩ := hr
    exact .inr (by rw [he, he'])
  · cases hl
    exact .inl ⟨e, he, hf⟩

/-- A lower nesting limit changes nothing, unless the source nests too deeply for it. -/
theorem parse_of_limit_le (source : String) (h : o.maxNestingDepth ≤ o'.maxNestingDepth) :
    (∃ e, parse source o = .error [.parse e] ∧ e.fault = .tooDeep (min o.maxNestingDepth 256)) ∨
      parse source o' = parse source o := by
  have hl : o.nestingLimit ≤ o'.nestingLimit := by
    rw [Options.nestingLimit, Options.nestingLimit]
    omega
  cases hs : tokenize source with
  | error es => exact .inr (by simp only [parse, hs])
  | ok stream =>
    obtain ⟨e, he, hf⟩ | he := stream.parse_of_le hl
    · exact .inl ⟨e, parse_of_error hs he, hf⟩
    · exact .inr (by simp only [parse, hs, he])

/-- A block that is nested too deeply for a limit of two. -/
theorem parse_of_limit_le_block : ∃ e,
    parse "int f() \x7b \x7b \x7b \x7b \x7d \x7d \x7d \x7d" ⟨80, 2, 2⟩ = .error [.parse e] ∧
      e.fault = .tooDeep 2 := by
  let source := "int f() \x7b \x7b \x7b \x7b \x7d \x7d \x7d \x7d"
  have fails : (parse source ⟨80, 2, 2⟩).toOption.isNone = true := by decide +kernel
  have reads : (parse source ⟨80, 2, 64⟩).toOption.isNone = false := by decide +kernel
  have le : (⟨80, 2, 2⟩ : Options).maxNestingDepth ≤ (⟨80, 2, 64⟩ : Options).maxNestingDepth := by
    decide
  obtain he | he := parse_of_limit_le source le
  · exact he
  · rw [he, fails] at reads
    cases reads

end CPretty
