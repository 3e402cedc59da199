import CPretty.Proofs.Syntax.Printed.Expression

namespace CPretty

open Doc (Marked text)
open Node (innerDoc innerDocs innerDoc? innerDocs?)

variable {v v' w : Bool} {a b z : Kind} {k : Kind} {ms : List Mark}
  {t l r q kw : Token} {xs ys zs : List Token} {n n' m e : Node} {ns : List Node} {sp : Span}
  {o o' : Option Node}

def PrintsOption (v : Bool) (xs : List Token) (o : Option Node) : Prop :=
  (xs = [] ∧ o = none) ∨ ∃ n, o = some n ∧ Prints v xs n

def PrintsBraced (v : Bool) (xs : List Token) (ns : List Node) : Prop :=
  ∃ items, Items v items ∧ innerDocs ns = .ok (items.map Item.doc) ∧
    ∀ r rest, r.kind = .rBrace → canonicalKeys (xs ++ r :: rest) =
      words (joined commaGap items) ++ canonicalKeys (r :: rest)

theorem Prints.keyword (hk : t.isSpecifierWord = true) :
    Prints false [t] ⟨sp, .keyword t.text⟩ := by
  have kinds : ∀ g ∈ [Category.storageClass, .typeQualifier, .functionSpecifier, .typeKeyword],
      ∀ k ∈ g.members, k ∉ Kind.brackets ∧ k ∉ [Kind.comma, .dot] ∧ k.leads = true := by decide
  have facts : t.kind ∉ Kind.brackets ∧ t.kind ∉ [Kind.comma, .dot] ∧ t.kind.leads = true := by
    simp only [Token.isSpecifierWord, Bool.or_eq_true] at hk
    obtain ((h | h) | h) | h := hk <;>
      exact kinds _ (by simp) _ (List.contains_iff_mem.mp h)
  exact .leaf rfl rfl facts.1 facts.2.1 facts.2.2 fun h => absurd h Bool.false_ne_true

theorem Prints.enumerator (ht : t.kind = .ident) :
    Prints false [t] ⟨sp, .enumerator t.text none⟩ :=
  .leaf rfl ht (by decide) (by decide) rfl nofun

theorem Prints.enumeratorValue (ht : t.kind = .ident) (hq : q.Lexed) (hqk : q.kind = .eq)
    (h : Prints v xs e) : Prints false (t :: q :: xs) ⟨sp, .enumerator t.text (some e)⟩ := by
  obtain ⟨d, ms, a, z, hd, hm, p, ha, -⟩ := h
  have hm₁ : Marked (.concat [text t.text, text " = ", d]) _ :=
    .cons (Token.marked (by rw [ht]; decide)) (.cons (.text _ [.gap, .of .eq, .gap] rfl)
      (.cons hm .nil))
  have name : Part [t] _ _ _ := .token ht (by decide)
  have eq := Part.spelled hq hqk (by decide) rfl
  exact ⟨_, _, .ident, z, by rw [innerDoc, hd]; rfl, hm₁,
    by simpa using name.gap (eq.gap p), rfl, nofun⟩

theorem part_tag {name : Option Token} (hk : kw.kind ∉ [Kind.comma, .dot])
    (hb : kw.kind ∉ Kind.brackets)
    (hn : ∀ t ∈ name, t.kind = .ident) : ∃ ms z, Part (kw :: name.toList) ms kw.kind z ∧
      Marked (.concat ([text kw.text] ++ Doc.optionalName (name.map Token.text))) ms := by
  have word : Part [kw] _ _ _ := .token rfl hk
  cases name with
  | none => exact ⟨_, _, word, .cons (Token.marked hb) .nil⟩
  | some t =>
    have ht := hn t rfl
    refine ⟨_, _, word.gap (.token ht (by decide)), ?_⟩
    exact .cons (Token.marked hb) (.cons (.text _ [.gap] rfl)
      (.cons (Token.marked (by rw [ht]; decide)) .nil))

theorem Part.braces {items : List Item} (h : Items v items) {between : List Mark}
    (hb : between = [.gap] ∨ between = commaGap)
    (hk : ∀ r rest, r.kind = .rBrace → canonicalKeys (xs ++ r :: rest) =
      words (joined between items) ++ canonicalKeys (r :: rest))
    (hl : l.Lexed) (hlk : l.kind = .lBrace) (hr : r.Lexed) (hrk : r.kind = .rBrace) :
    Part (l :: xs ++ [r]) (braces between items) .lBrace .rBrace := by
  refine ⟨.braces h hb, fun rest => ?_, nofun⟩
  have opening := (Part.spelled hl hlk (by decide) rfl).covers (xs ++ r :: rest)
  have closing := (Part.spelled hr hrk (by decide) rfl).covers rest
  simp only [List.cons_append, List.nil_append, List.append_assoc] at opening closing ⊢
  rw [opening, hk r rest hrk, closing]
  simp

/-- An enumeration or a structure with a body. -/
theorem Prints.body {name : Option Token} {items : List Item} {sep : Doc} {between : List Mark}
    (hkc : kw.kind ∉ [Kind.comma, .dot]) (hkb : kw.kind ∉ Kind.brackets)
    (hkl : kw.kind.leads = true)
    (hn : ∀ t ∈ name, t.kind = .ident) (hl : l.Lexed) (hlk : l.kind = .lBrace)
    (h : Items v items) (hs : Marked sep between) (hb : between = [.gap] ∨ between = commaGap)
    (hc : ∀ r rest, r.kind = .rBrace → canonicalKeys (xs ++ r :: rest) =
      words (joined between items) ++ canonicalKeys (r :: rest))
    (hr : r.Lexed) (hrk : r.kind = .rBrace)
    (hd : innerDoc n = .ok (.concat ([text kw.text] ++ Doc.optionalName (name.map Token.text) ++
      [text " ", Doc.block sep (items.map Item.doc)]))) :
    Prints false (kw :: name.toList ++ l :: xs ++ [r]) n := by
  obtain ⟨ms, z, p, hm⟩ := part_tag hkc hkb hn
  have body := Part.braces h hb hc hl hlk hr hrk
  have hm₁ : Marked (.concat _) _ := hm.append (.cons (.text " " [.gap] rfl) (h.block hs).single)
  exact ⟨_, _, kw.kind, .rBrace, hd, hm₁, by simpa using p.gap body, hkl, nofun⟩

theorem Prints.enumName (hk : kw.Lexed) (hkk : kw.kind = .kwEnum) (ht : t.kind = .ident) :
    Prints false [kw, t] ⟨sp, .enum (some t.text) none⟩ := by
  have hm₁ : Marked (.concat [text "enum", text " ", text t.text]) _ :=
    .cons (.text _ [.of .kwEnum] rfl) (.cons (.text _ [.gap] rfl)
      (.cons (Token.marked (by rw [ht]; decide)) .nil))
  have name : Part [t] _ _ _ := .token ht (by decide)
  exact ⟨_, _, .kwEnum, .ident, rfl, hm₁,
    by simpa using (Part.spelled hk hkk (by decide) rfl).gap name, rfl, nofun⟩

theorem Prints.enumBody {name : Option Token} (hk : kw.Lexed) (hkk : kw.kind = .kwEnum)
    (hn : ∀ t ∈ name, t.kind = .ident) (hl : l.Lexed) (hlk : l.kind = .lBrace)
    (h : PrintsBraced v xs ns) (hr : r.Lexed) (hrk : r.kind = .rBrace) :
    Prints false (kw :: name.toList ++ l :: xs ++ [r])
      ⟨sp, .enum (name.map Token.text) (some ns)⟩ := by
  obtain ⟨items, hi, hds, hc⟩ := h
  have hs : Marked (.concat [text ",", .hardLine]) commaGap :=
    .cons (.text _ [.of .comma] rfl) (.cons .hardLine .nil)
  refine .body (by rw [hkk]; decide) (by rw [hkk]; decide) (by rw [hkk]; rfl) hn hl hlk hi hs
    (.inr rfl) hc hr hrk ?_
  have hword : kw.text = "enum" := by
    rw [hk.text_eq (by rw [hkk]; decide) (by rw [hkk]; rfl), hkk]
    rfl
  rw [innerDoc, innerDocs?, hds, hword]
  rfl

theorem Prints.structName (hk : kw.kind.is .structOrUnion = true) (ht : t.kind = .ident) :
    Prints false [kw, t] ⟨sp, .struct kw.text (some t.text) none⟩ := by
  have kinds : ∀ k ∈ Category.members .structOrUnion, k ∉ Kind.brackets ∧ k ∉ [Kind.comma, .dot] ∧
      k.leads = true := by decide
  obtain ⟨hb, hc, hl⟩ := kinds _ (List.contains_iff_mem.mp hk)
  have hm₁ : Marked (.concat [text kw.text, text " ", text t.text]) _ :=
    .cons (Token.marked hb) (.cons (.text _ [.gap] rfl)
      (.cons (Token.marked (by rw [ht]; decide)) .nil))
  have name : Part [t] _ _ _ := .token ht (by decide)
  exact ⟨_, _, kw.kind, .ident, rfl, hm₁, by simpa using (Part.token rfl hc).gap name, hl, nofun⟩

theorem Prints.structBody {name : Option Token} (hk : kw.kind.is .structOrUnion = true)
    (hn : ∀ t ∈ name, t.kind = .ident) (hl : l.Lexed) (hlk : l.kind = .lBrace)
    (h : PrintsList v [.gap] xs ns) (hr : r.Lexed) (hrk : r.kind = .rBrace) :
    Prints false (kw :: name.toList ++ l :: xs ++ [r])
      ⟨sp, .struct kw.text (name.map Token.text) (some ns)⟩ := by
  have kinds : ∀ k ∈ Category.members .structOrUnion, k ∉ Kind.brackets ∧ k ∉ [Kind.comma, .dot] ∧
      k.leads = true := by decide
  obtain ⟨hb, hc, hlead⟩ := kinds _ (List.contains_iff_mem.mp hk)
  obtain ⟨items, hi, hds, hcov⟩ := h
  refine .body hc hb hlead hn hl hlk hi .hardLine (.inl rfl) (fun r rest _ => hcov _) hr hrk ?_
  rw [innerDoc, innerDocs?, hds]
  rfl

theorem Prints.atomic (hk : kw.Lexed) (hkk : kw.kind = .kwAtomic) (hl : l.Lexed)
    (hlk : l.kind = .lParen) (h : Prints v xs n) (hr : r.Lexed) (hrk : r.kind = .rParen) :
    Prints false (kw :: l :: xs ++ [r]) ⟨sp, .atomic n⟩ := by
  obtain ⟨d, ms, a, z, hd, hm, p, -, -⟩ := h
  have hm₁ : Marked (.concat [text "_Atomic(", d, text ")"]) _ :=
    .cons (.text _ [.of .kwAtomic, .of .lParen] rfl) (.cons hm (.cons (.text _ [.of .rParen] rfl)
      .nil))
  exact ⟨_, _, .kwAtomic, .rParen, by rw [innerDoc, hd]; rfl, hm₁,
    by simpa using (Part.spelled hk hkk (by decide) rfl).join (p.parens hl hlk hr hrk) rfl, rfl,
    nofun⟩

/-- Specifiers and a declarator. Without a gap in between, the declarator starts with a suffix. -/
theorem Prints.declared (h : Prints v xs n) (h' : Prints w ys n')
    (hg : n'.declaratorGap = text "" → ∃ t ts, ys = t :: ts ∧ t.kind.isQuiet = true ∧
    t.kind ≠ .comma)
    (hd : ∀ d d', n.innerDoc = .ok d → n'.innerDoc = .ok d' →
      innerDoc m = .ok (.concat [d, n'.declaratorGap, d'])) : Prints false (xs ++ ys) m := by
  obtain ⟨d, ms, a, z, hd₁, hm, p, ha, -⟩ := h
  obtain ⟨d', ms', a', z', hd₂, hm', p', -, -⟩ := h'
  have gaps : n'.declaratorGap = text "" ∨ n'.declaratorGap = text " " := by
    rw [Node.declaratorGap]
    split <;> simp
  obtain he | he := gaps
  · obtain ⟨t, ts, rfl, hq, hc⟩ := hg he
    have hb : z.abuts a' = true := by
      rw [p'.first hc]
      exact Kind.abuts_quiet z hq
    have hm₁ : Marked (.concat [d, text "", d']) _ :=
      .cons hm (.cons (.text _ [] rfl) (.cons hm' .nil))
    exact ⟨_, _, a, z', he ▸ hd d d' hd₁ hd₂, hm₁, by simpa using p.join p' hb, ha, nofun⟩
  · have hm₁ : Marked (.concat [d, text " ", d']) _ :=
      .cons hm (.cons (.text _ [.gap] rfl) (.cons hm' .nil))
    exact ⟨_, _, a, z', he ▸ hd d d' hd₁ hd₂, hm₁, by simpa using p.gap p', ha, nofun⟩

theorem Prints.typeName (h : Prints v xs n) (h' : Prints w ys n')
    (hg : n'.declaratorGap = text "" → ∃ t ts, ys = t :: ts ∧ t.kind.isQuiet = true ∧
      t.kind ≠ .comma) : Prints false (xs ++ ys) ⟨sp, .typeName n n'⟩ := by
  refine h.declared h' hg fun d d' hd hd' => ?_
  rw [innerDoc, hd, hd']
  rfl

theorem Prints.param (h : Prints v xs n) (h' : Prints w ys n')
    (hg : n'.declaratorGap = text "" → ∃ t ts, ys = t :: ts ∧ t.kind.isQuiet = true ∧
      t.kind ≠ .comma) : Prints false (xs ++ ys) ⟨sp, .param n (some n')⟩ := by
  refine h.declared h' hg fun d d' hd hd' => ?_
  rw [innerDoc, hd, hd']
  rfl

theorem Prints.paramAlone (h : Prints v xs n) : Prints false xs ⟨sp, .param n none⟩ := by
  obtain ⟨d, ms, a, z, hd, hm, p, ha, -⟩ := h
  exact ⟨d, ms, a, z, by rwa [innerDoc], hm, p, ha, nofun⟩

theorem Prints.nested (hl : l.Lexed) (hlk : l.kind = .lParen) (h : Prints v xs n) (hr : r.Lexed)
    (hrk : r.kind = .rParen) : Prints false (l :: xs ++ [r]) ⟨sp, .nested n⟩ := by
  obtain ⟨d, ms, a, z, hd, hm, p, -, -⟩ := h
  have hm₁ : Marked (.concat [text "(", d, text ")"]) _ :=
    .cons (.text _ [.of .lParen] rfl) (.cons hm (.cons (.text _ [.of .rParen] rfl) .nil))
  exact ⟨_, _, .lParen, .rParen, by rw [innerDoc, hd]; rfl, hm₁,
    by simpa using p.parens hl hlk hr hrk, rfl, nofun⟩

theorem PrintsOption.suffixed {ds : List Doc} (h : PrintsOption v xs o) (p : Part ys ms k z)
    (hq : k.isQuiet = true) (hl : k.leads = true) (hm : Marked (.concat ds) ms)
    (hd : ∀ d, innerDoc? o = .ok d → innerDoc m = .ok (.concat (d.toList ++ ds))) :
    Prints false (xs ++ ys) m := by
  obtain ⟨rfl, rfl⟩ | ⟨n, rfl, d, ms', a', z', hd', hm', p', ha', -⟩ := h
  · exact ⟨_, _, k, z, hd none rfl, hm, by simpa using p, hl, nofun⟩
  · exact ⟨_, _, a', z, hd (some d) (by rw [innerDoc?, hd']; rfl), hm'.cons hm,
      p'.join p (Kind.abuts_quiet z' hq), ha', nofun⟩

theorem Prints.array (h : PrintsOption v xs o) (hl : l.Lexed) (hlk : l.kind = .lBracket)
    (h' : PrintsOption w ys o') (hr : r.Lexed) (hrk : r.kind = .rBracket) :
    Prints false (xs ++ l :: ys ++ [r]) ⟨sp, .array o o'⟩ := by
  have opening := Part.spelled hl hlk (by decide) rfl
  rw [List.append_assoc]
  obtain ⟨rfl, rfl⟩ | ⟨n, rfl, d, ms', a', z', hd', hm', p', -, -⟩ := h'
  · have hm₁ : Marked (.concat [text "[", text "]"]) _ :=
      .cons (.text _ [.of .lBracket] rfl) (.cons (.text _ [.of .rBracket] rfl) .nil)
    refine h.suffixed (opening.quiet hr hrk rfl (by decide)) rfl rfl hm₁ fun d hd => ?_
    rw [innerDoc, hd, innerDoc?]
    simp [Node.arrayDoc, bind, Except.bind, pure, Except.pure]
  · have hm₁ : Marked (.concat [text "[", d, text "]"]) _ :=
      .cons (.text _ [.of .lBracket] rfl) (.cons hm' (.cons (.text _ [.of .rBracket] rfl) .nil))
    have p := (p'.whole hl hlk rfl (by decide)).quiet hr hrk rfl (by decide)
    refine h.suffixed p rfl rfl (by simpa using hm₁) fun d' hd => ?_
    rw [innerDoc, hd, innerDoc?, hd']
    simp [Node.arrayDoc, bind, Except.bind, pure, Except.pure]

theorem Prints.function (h : PrintsOption v xs o) (hl : l.Lexed) (hlk : l.kind = .lParen)
    (h' : PrintsList w commaGap ys ns) (hr : r.Lexed) (hrk : r.kind = .rParen) :
    Prints false (xs ++ l :: ys ++ [r]) ⟨sp, .function o (Node.nonempty? ns)⟩ := by
  obtain ⟨items, hi, hds, hc⟩ := h'
  have hm := hi.parameters.single
  rw [List.append_assoc]
  refine h.suffixed (.list hi hc hl hlk hr hrk) rfl rfl hm fun d hd => ?_
  obtain ⟨rfl, rfl⟩ | ⟨-, -, hds'⟩ := innerDocs_cases hds
  · rw [innerDoc, hd]
    rfl
  · rw [innerDoc, hd, hds']
    rfl

/-- A pointer level before a declarator, if there is one. -/
theorem Prints.pointer (ht : t.Lexed) (htk : t.kind = .star) (h : PrintsList v [.gap] xs ns)
    (h' : PrintsOption w ys o) : Prints false (t :: xs ++ ys) ⟨sp, .pointer ns o⟩ := by
  obtain ⟨items, hi, hds, hc⟩ := h
  have star := Part.spelled ht htk (by decide) rfl
  have quals := (Marked.text " " [.gap] rfl).join hi.marked
  have doc : ∀ d, innerDoc? o = .ok d → innerDoc ⟨sp, .pointer ns o⟩ =
      .ok (Node.pointerDoc (items.map Item.doc) d) := by
    intro d hd
    rw [innerDoc, hds, hd]
    rfl
  obtain ⟨rfl, rfl⟩ | ⟨-, hne, -⟩ := innerDocs_cases hds
  · -- No qualifiers: the star stands directly before the declarator.
    obtain ⟨rfl, rfl⟩ | ⟨n, rfl, d, ms', a', z', hd', hm', p', ha', -⟩ := h'
    · have hm₁ : Marked (.concat [text "*", Doc.join (text " ") []]) _ :=
        .cons (.text _ [.of .star] rfl) (.cons quals .nil)
      refine ⟨_, _, .star, .star, doc none rfl, hm₁, ⟨by simpa using star.run, ?_, nofun⟩,
        rfl, nofun⟩
      simpa using star.covers.append hc
    · have hm₁ : Marked (.concat [text "*", Doc.join (text " ") [], d]) _ :=
        .cons (.text _ [.of .star] rfl) (.cons quals (.cons hm' .nil))
      have p := star.join p' (Kind.abuts_star ha')
      refine ⟨_, _, .star, z', doc (some d) (by rw [innerDoc?, hd']; rfl), hm₁,
        ⟨by simpa using p.run, ?_, nofun⟩, rfl, nofun⟩
      simpa using (star.covers.append hc).append p'.covers
  · obtain ⟨a, z, rq, ha, -⟩ := hi.neat_joined hne (.inl rfl)
    have p := star.join ⟨rq, hc, Kind.ne_dot ha⟩ (Kind.abuts_star ha)
    obtain ⟨rfl, rfl⟩ | ⟨n, rfl, d, ms', a', z', hd', hm', p', ha', -⟩ := h'
    · have hm₁ : Marked (.concat [text "*", Doc.join (text " ") (items.map Item.doc)]) _ :=
        .cons (.text _ [.of .star] rfl) (.cons quals .nil)
      exact ⟨_, _, .star, z, doc none rfl, by simpa [Node.pointerDoc] using hm₁,
        by simpa using p, rfl, nofun⟩
    · have hm₁ : Marked (.concat [text "*", Doc.join (text " ") (items.map Item.doc),
        text " ", d]) _ :=
        .cons (.text _ [.of .star] rfl) (.cons quals (.cons (.text _ [.gap] rfl) (.cons hm' .nil)))
      refine ⟨_, _, .star, z', doc (some d) (by rw [innerDoc?, hd']; rfl),
        by simpa [Node.pointerDoc, hne] using hm₁, by simpa using p.gap p', rfl, nofun⟩

theorem Prints.ellipsis (ht : t.Lexed) (htk : t.kind = .ellipsis) :
    Prints false [t] ⟨sp, .ellipsis⟩ :=
  ⟨_, _, .ellipsis, .ellipsis, rfl, .text _ [.of .ellipsis] rfl, .spelled ht htk (by decide) rfl,
    rfl, nofun⟩

theorem Prints.bitfield (h : PrintsOption v xs o) (ht : t.Lexed) (htk : t.kind = .colon)
    (h' : Prints w ys n) : Prints false (xs ++ t :: ys) ⟨sp, .bitfield o n⟩ := by
  obtain ⟨d', ms', a', z', hd', hm', p', -, -⟩ := h'
  have colon := Part.spelled ht htk (by decide) rfl
  obtain ⟨rfl, rfl⟩ | ⟨n, rfl, d, ms, a, z, hd, hm, p, ha, -⟩ := h
  · have hm₁ : Marked (.concat [text ": ", d']) _ :=
      .cons (.text _ [.of .colon, .gap] rfl) (.cons hm' .nil)
    exact ⟨_, _, .colon, z', by rw [innerDoc, hd']; rfl, hm₁, by simpa using colon.gap p', rfl,
      nofun⟩
  · have hm₁ : Marked (.concat [d, text " : ", d']) _ :=
      .cons hm (.cons (.text _ [.gap, .of .colon, .gap] rfl) (.cons hm' .nil))
    exact ⟨_, _, a, z', by rw [innerDoc, hd, hd']; rfl, hm₁, by simpa using p.gap (colon.gap p'),
      ha, nofun⟩

/-- Specifiers, further nodes after them if there are any, and a semicolon. -/
theorem Prints.declarations {items : List Item} (h : Prints v xs n) (hi : Items w items)
    (hc : Covers ys (joined commaGap items)) (ht : t.Lexed) (htk : t.kind = .semicolon)
    (hd : ∀ d, n.innerDoc = .ok d → innerDoc m = .ok (.concat ([d] ++
      (if items = [] then [] else [text " ", Doc.join (text ", ") (items.map Item.doc)]) ++
      [text ";"]))) : Prints false (xs ++ ys ++ [t]) m := by
  obtain ⟨d, ms, a, z, hd', hm, p, ha, -⟩ := h
  have hd := hd d hd'
  by_cases hne : items = []
  · subst hne
    have hm₁ : Marked (.concat [d, text ";"]) _ :=
      .cons hm (.cons (.text _ [.of .semicolon] rfl) .nil)
    have hx : Covers (xs ++ ys) ms := by simpa using p.covers.append hc
    refine ⟨_, _, a, .semicolon, hd, hm₁, ⟨by simpa using p.run.quiet (k := .semicolon) rfl, ?_,
      p.ne_dot⟩, ha, nofun⟩
    simpa using hx.append (Part.spelled ht htk (by decide) rfl).covers
  · rw [if_neg hne] at hd
    obtain ⟨a', z', r, ha', -⟩ := hi.neat_joined hne (.inr rfl)
    have hm₁ : Marked (.concat [d, text " ", Doc.join (text ", ") (items.map Item.doc),
      text ";"]) _ :=
      .cons hm (.cons (.text _ [.gap] rfl) (.cons ((Marked.text _ commaGap rfl).join hi.marked)
        (.cons (.text _ [.of .semicolon] rfl) .nil)))
    exact ⟨_, _, a, .semicolon, hd, hm₁,
      by simpa using (p.gap ⟨r, hc, Kind.ne_dot ha'⟩).quiet ht htk rfl (by decide), ha, nofun⟩

theorem Prints.member (h : Prints v xs n) (h' : PrintsList w commaGap ys ns) (ht : t.Lexed)
    (htk : t.kind = .semicolon) : Prints false (xs ++ ys ++ [t]) ⟨sp, .member n ns⟩ := by
  obtain ⟨items, hi, hds, hc⟩ := h'
  refine h.declarations hi hc ht htk fun d hd => ?_
  rw [innerDoc, hd, hds]
  cases items <;> rfl

theorem Prints.decl (h : Prints v xs n) (h' : PrintsList w commaGap ys ns) (ht : t.Lexed)
    (htk : t.kind = .semicolon) :
    Prints false (xs ++ ys ++ [t]) ⟨sp, .decl n (Node.nonempty? ns)⟩ := by
  obtain ⟨items, hi, hds, hc⟩ := h'
  refine h.declarations hi hc ht htk fun d hd => ?_
  obtain ⟨rfl, rfl⟩ | ⟨-, hne, hds'⟩ := innerDocs_cases hds
  · rw [innerDoc, hd]
    rfl
  · rw [innerDoc, hd, hds', if_neg hne]
    rfl

theorem Prints.initList (hl : l.Lexed) (hlk : l.kind = .lBrace) (h : PrintsBraced v xs ns)
    (hr : r.Lexed) (hrk : r.kind = .rBrace) : Prints false (l :: xs ++ [r]) ⟨sp, .initList ns⟩ := by
  obtain ⟨items, hi, hds, hc⟩ := h
  have p := Part.braces hi (.inr rfl) hc hl hlk hr hrk
  cases items with
  | nil =>
    have hm₁ : Marked (text "\x7b\x7d") _ := .text _ [.of .lBrace, .of .rBrace] rfl
    exact ⟨_, _, .lBrace, .rBrace, by rw [innerDoc, hds]; rfl, hm₁, p, rfl, nofun⟩
  | cons i items =>
    have hm₁ : Marked (.group (.concat (Doc.enclosed "\x7b" "\x7d" .line _))) _ :=
      .group (hi.enclosed [.of .lBrace] [.of .rBrace] rfl rfl .line)
    exact ⟨_, _, .lBrace, .rBrace, by rw [innerDoc, hds]; rfl, hm₁, by simpa [braces] using p, rfl,
      nofun⟩

theorem Prints.initAlone (h : Prints v xs n) : Prints false xs ⟨sp, .initDecl n none⟩ := by
  obtain ⟨d, ms, a, z, hd, hm, p, ha, -⟩ := h
  exact ⟨d, ms, a, z, by rwa [innerDoc], hm, p, ha, nofun⟩

theorem Prints.initValue (h : Prints v xs n) (hq : q.Lexed) (hqk : q.kind = .eq)
    (h' : Prints w ys e) : Prints false (xs ++ q :: ys) ⟨sp, .initDecl n (some e)⟩ := by
  obtain ⟨d, ms, a, z, hd, hm, p, ha, -⟩ := h
  obtain ⟨d', ms', a', z', hd', hm', p', -, -⟩ := h'
  have hm₁ : Marked (.concat [d, text " = ", d']) _ :=
    .cons hm (.cons (.text _ [.gap, .of .eq, .gap] rfl) (.cons hm' .nil))
  have eq := Part.spelled hq hqk (by decide) rfl
  exact ⟨_, _, a, z', by rw [innerDoc, hd, hd']; rfl, hm₁, by simpa using p.gap (eq.gap p'), ha,
    nofun⟩

theorem Prints.staticAssert {s semi : Token} (hk : kw.Lexed) (hkk : kw.kind = .kwStaticAssert)
    (hl : l.Lexed) (hlk : l.kind = .lParen) (h : Prints v xs e) (ht : t.Lexed)
    (htk : t.kind = .comma)
    (hs : ∀ u ∈ s :: ys, u.kind = .stringLiteral) (hr : r.Lexed) (hrk : r.kind = .rParen)
    (hm : semi.Lexed) (hmk : semi.kind = .semicolon) :
    Prints false (kw :: l :: xs ++ t :: (s :: ys) ++ [r, semi])
      ⟨sp, .staticAssert e (Token.texts (s :: ys))⟩ := by
  obtain ⟨d, ms, a, z, hd, hm', p, -, -⟩ := h
  have hm₁ : Marked (.concat [text "_Static_assert(", d, text ", ", text (Token.texts (s :: ys)),
      text ");"]) _ :=
    .cons (.text _ [.of .kwStaticAssert, .of .lParen] rfl) (.cons hm' (.cons
      (.text _ [.of .comma, .gap] rfl) (.cons (marked_texts hs)
        (.cons (.text _ [.of .rParen, .of .semicolon] rfl) .nil))))
  have inside := p.comma ht htk (part_strings hs) (.of_kind (hs s (by simp)) rfl ys)
  have whole := (Part.spelled hk hkk (by decide) rfl).join (inside.parens hl hlk hr hrk) rfl
  exact ⟨_, _, .kwStaticAssert, .semicolon, by rw [innerDoc, hd]; rfl, hm₁,
    by simpa [commaGap] using whole.quiet hm hmk rfl (by decide), rfl, nofun⟩

end CPretty
