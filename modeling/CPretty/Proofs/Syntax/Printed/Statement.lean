import CPretty.Proofs.Syntax.Printed.Declaration

namespace CPretty

open Doc (Marked text)
open Node (innerDoc innerDocs innerDoc? innerDocs?)

variable {v v' w w' : Bool} {t l r q kw semi : Token} {xs ys zs ws : List Token} {n n' m e : Node}
  {ns : List Node} {sp : Span} {o : Option Node}

theorem Prints.exprStmt (h : PrintsOption v xs o) (ht : t.Lexed) (htk : t.kind = .semicolon) :
    Prints false (xs ++ [t]) ⟨sp, .exprStmt o⟩ := by
  obtain ⟨rfl, rfl⟩ | ⟨n, rfl, d, ms, a, z, hd, hm, p, ha, -⟩ := h
  · exact ⟨_, _, .semicolon, .semicolon, rfl, .text _ [.of .semicolon] rfl,
      .spelled ht htk (by decide) rfl, rfl, nofun⟩
  · have hm₁ : Marked (.concat [d, text ";"]) _ :=
      .cons hm (.cons (.text _ [.of .semicolon] rfl) .nil)
    exact ⟨_, _, a, .semicolon, by rw [innerDoc, hd]; rfl, hm₁,
      by simpa using p.quiet ht htk rfl (by decide), ha, nofun⟩

theorem Prints.compound (hl : l.Lexed) (hlk : l.kind = .lBrace) (h : PrintsList v [.gap] xs ns)
    (hr : r.Lexed) (hrk : r.kind = .rBrace) :
    Prints false (l :: xs ++ [r]) ⟨sp, .compound (Node.nonempty? ns)⟩ := by
  obtain ⟨items, hi, hds, hc⟩ := h
  have p := Part.braces hi (.inl rfl) (fun r rest _ => hc _) hl hlk hr hrk
  refine ⟨_, _, .lBrace, .rBrace, ?_, hi.block .hardLine, p, rfl, nofun⟩
  obtain ⟨rfl, rfl⟩ | ⟨-, -, hds'⟩ := innerDocs_cases hds
  · rfl
  · rw [innerDoc, hds']
    rfl

theorem Prints.labelStmt (ht : t.kind = .ident) (hq : q.Lexed) (hqk : q.kind = .colon)
    (h : Prints v xs n) : Prints false (t :: q :: xs) ⟨sp, .labelStmt t.text n⟩ := by
  obtain ⟨d, ms, a, z, hd, hm, p, -, -⟩ := h
  have hm₁ : Marked (.concat [text t.text, text ":", .hardLine, d]) _ :=
    .cons (Token.marked (by rw [ht]; decide)) (.cons (.text _ [.of .colon] rfl)
      (.cons .hardLine (.cons hm .nil)))
  have name : Part [t] _ _ _ := .token ht (by decide)
  have colon := Part.spelled hq hqk (by decide) rfl
  exact ⟨_, _, .ident, z, by rw [innerDoc, hd]; rfl, hm₁,
    by simpa using (name.join colon rfl).gap p, rfl, nofun⟩

theorem Prints.caseStmt (hk : kw.Lexed) (hkk : kw.kind = .kwCase) (h : Prints true xs e)
    (hq : q.Lexed) (hqk : q.kind = .colon) (h' : Prints v ys n) :
    Prints false (kw :: xs ++ q :: ys) ⟨sp, .caseStmt e n⟩ := by
  obtain ⟨d, ms, a, z, hd, hm, p, -, hz⟩ := h
  obtain ⟨d', ms', a', z', hd', hm', p', -, -⟩ := h'
  have hm₁ : Marked (.concat [text "case ", d, text ":", .hardLine, d']) _ :=
    .cons (.text _ [.of .kwCase, .gap] rfl) (.cons hm (.cons (.text _ [.of .colon] rfl)
      (.cons .hardLine (.cons hm' .nil))))
  have word := Part.spelled hk hkk (by decide) rfl
  have colon := Part.spelled hq hqk (by decide) rfl
  have value := p.join colon (Kind.abuts_access (hz rfl) rfl)
  exact ⟨_, _, .kwCase, z', by rw [innerDoc, hd, hd']; rfl, hm₁,
    by simpa using word.gap (value.gap p'), rfl, nofun⟩

theorem Prints.defaultStmt (hk : kw.Lexed) (hkk : kw.kind = .kwDefault) (hq : q.Lexed)
    (hqk : q.kind = .colon) (h : Prints v xs n) :
    Prints false (kw :: q :: xs) ⟨sp, .defaultStmt n⟩ := by
  obtain ⟨d, ms, a, z, hd, hm, p, -, -⟩ := h
  have hm₁ : Marked (.concat [text "default:", .hardLine, d]) _ :=
    .cons (.text _ [.of .kwDefault, .of .colon] rfl) (.cons .hardLine (.cons hm .nil))
  have word := Part.spelled hk hkk (by decide) rfl
  have colon := Part.spelled hq hqk (by decide) rfl
  exact ⟨_, _, .kwDefault, z, by rw [innerDoc, hd]; rfl, hm₁,
    by simpa using (word.join colon rfl).gap p, rfl, nofun⟩

theorem Part.header {k a z : Kind} {ms : List Mark} (hk : kw.Lexed) (hkk : kw.kind = k)
    (hc : k ∉ [Kind.comma, .dot]) (hs : k.spelling.isSome = true) (p : Part xs ms a z)
    (hl : l.Lexed)
    (hlk : l.kind = .lParen) (hr : r.Lexed) (hrk : r.kind = .rParen) :
    Part (kw :: l :: xs ++ [r]) (.of k :: .gap :: .of .lParen :: ms ++ [.of .rParen]) k
      .rParen := by
  simpa using (Part.spelled hk hkk hc hs).gap (p.parens hl hlk hr hrk)

theorem Prints.ifStmt (hk : kw.Lexed) (hkk : kw.kind = .kwIf) (hl : l.Lexed)
    (hlk : l.kind = .lParen)
    (h : Prints v xs e) (hr : r.Lexed) (hrk : r.kind = .rParen) (h' : Prints w ys n) :
    Prints false (kw :: l :: xs ++ r :: ys) ⟨sp, .ifStmt e n none⟩ := by
  obtain ⟨d, ms, a, z, hd, hm, p, -, -⟩ := h
  obtain ⟨d', ms', a', z', hd', hm', p', -, -⟩ := h'
  have hm₁ : Marked (.concat [text "if (", d, text ") ", d']) _ :=
    .cons (.text _ [.of .kwIf, .gap, .of .lParen] rfl)
      (.cons hm (.cons (.text _ [.of .rParen, .gap] rfl)
      (.cons hm' .nil)))
  have header := Part.header hk hkk (by decide) rfl p hl hlk hr hrk
  exact ⟨_, _, .kwIf, z', by rw [innerDoc, hd, hd']; rfl, hm₁, by simpa using header.gap p', rfl,
    nofun⟩

theorem Prints.ifElse (hk : kw.Lexed) (hkk : kw.kind = .kwIf) (hl : l.Lexed)
    (hlk : l.kind = .lParen)
    (h : Prints v xs e) (hr : r.Lexed) (hrk : r.kind = .rParen) (h' : Prints v' ys n) (ht : t.Lexed)
    (htk : t.kind = .kwElse) (h'' : Prints w zs m) :
    Prints false (kw :: l :: xs ++ r :: ys ++ t :: zs) ⟨sp, .ifStmt e n (some m)⟩ := by
  obtain ⟨d, ms, a, z, hd, hm, p, -, -⟩ := h
  obtain ⟨d', ms', a', z', hd', hm', p', -, -⟩ := h'
  obtain ⟨d'', ms'', a'', z'', hd'', hm'', p'', -, -⟩ := h''
  have hm₁ : Marked (.concat [text "if (", d, text ") ", d', text " else ", d'']) _ :=
    .cons (.text _ [.of .kwIf, .gap, .of .lParen] rfl)
      (.cons hm (.cons (.text _ [.of .rParen, .gap] rfl)
      (.cons hm' (.cons (.text _ [.gap, .of .kwElse, .gap] rfl) (.cons hm'' .nil)))))
  have header := Part.header hk hkk (by decide) rfl p hl hlk hr hrk
  have word := Part.spelled ht htk (by decide) rfl
  exact ⟨_, _, .kwIf, z'', by rw [innerDoc, hd, hd', innerDoc?, hd'']; rfl, hm₁,
    by simpa using header.gap (p'.gap (word.gap p'')), rfl, nofun⟩

theorem Prints.switchStmt (hk : kw.Lexed) (hkk : kw.kind = .kwSwitch) (hl : l.Lexed)
    (hlk : l.kind = .lParen) (h : Prints v xs e) (hr : r.Lexed) (hrk : r.kind = .rParen)
    (h' : Prints w ys n) : Prints false (kw :: l :: xs ++ r :: ys) ⟨sp, .switchStmt e n⟩ := by
  obtain ⟨d, ms, a, z, hd, hm, p, -, -⟩ := h
  obtain ⟨d', ms', a', z', hd', hm', p', -, -⟩ := h'
  have hm₁ : Marked (.concat [text "switch (", d, text ") ", d']) _ :=
    .cons (.text _ [.of .kwSwitch, .gap, .of .lParen] rfl) (.cons hm
      (.cons (.text _ [.of .rParen, .gap] rfl) (.cons hm' .nil)))
  have header := Part.header hk hkk (by decide) rfl p hl hlk hr hrk
  exact ⟨_, _, .kwSwitch, z', by rw [innerDoc, hd, hd']; rfl,
    hm₁, by simpa using header.gap p', rfl,
    nofun⟩

theorem Prints.whileStmt (hk : kw.Lexed) (hkk : kw.kind = .kwWhile) (hl : l.Lexed)
    (hlk : l.kind = .lParen) (h : Prints v xs e) (hr : r.Lexed) (hrk : r.kind = .rParen)
    (h' : Prints w ys n) : Prints false (kw :: l :: xs ++ r :: ys) ⟨sp, .whileStmt e n⟩ := by
  obtain ⟨d, ms, a, z, hd, hm, p, -, -⟩ := h
  obtain ⟨d', ms', a', z', hd', hm', p', -, -⟩ := h'
  have hm₁ : Marked (.concat [text "while (", d, text ") ", d']) _ :=
    .cons (.text _ [.of .kwWhile, .gap, .of .lParen] rfl) (.cons hm
      (.cons (.text _ [.of .rParen, .gap] rfl) (.cons hm' .nil)))
  have header := Part.header hk hkk (by decide) rfl p hl hlk hr hrk
  exact ⟨_, _, .kwWhile, z', by rw [innerDoc, hd, hd']; rfl, hm₁, by simpa using header.gap p', rfl,
    nofun⟩

theorem Prints.doStmt {u : Token} (hk : kw.Lexed) (hkk : kw.kind = .kwDo) (h : Prints v xs n)
    (hu : u.Lexed) (huk : u.kind = .kwWhile) (hl : l.Lexed) (hlk : l.kind = .lParen)
    (h' : Prints w ys e) (hr : r.Lexed) (hrk : r.kind = .rParen) (ht : t.Lexed)
    (htk : t.kind = .semicolon) :
    Prints false (kw :: xs ++ u :: l :: ys ++ [r, t]) ⟨sp, .doStmt n e⟩ := by
  obtain ⟨d, ms, a, z, hd, hm, p, -, -⟩ := h
  obtain ⟨d', ms', a', z', hd', hm', p', -, -⟩ := h'
  have hm₁ : Marked (.concat [text "do ", d, text " while (", d', text ");"]) _ :=
    .cons (.text _ [.of .kwDo, .gap] rfl) (.cons hm
      (.cons (.text _ [.gap, .of .kwWhile, .gap, .of .lParen] rfl) (.cons hm'
        (.cons (.text _ [.of .rParen, .of .semicolon] rfl) .nil))))
  have word := Part.spelled hk hkk (by decide) rfl
  have header := Part.header hu huk (by decide) rfl p' hl hlk hr hrk
  exact ⟨_, _, .kwDo, .semicolon, by rw [innerDoc, hd, hd']; rfl, hm₁,
    by simpa using (word.gap (p.gap header)).quiet ht htk rfl (by decide), rfl, nofun⟩

/-- A `for` statement. Its middle part has a space before it only where it holds an expression;
otherwise it is a semicolon. -/
theorem Prints.forStmt (hk : kw.Lexed) (hkk : kw.kind = .kwFor) (hl : l.Lexed)
    (hlk : l.kind = .lParen) (h : Prints v xs n) (h' : Prints v' ys m)
    (hb : m.hasExpression = false → ∃ t ts, ys = t :: ts ∧ t.kind = .semicolon)
    (ho : PrintsOption w zs o) (hr : r.Lexed) (hrk : r.kind = .rParen) (h'' : Prints w' ws n') :
    Prints false (kw :: l :: xs ++ ys ++ zs ++ r :: ws) ⟨sp, .forStmt n m o n'⟩ := by
  obtain ⟨d, ms, a, z, hd, hm, p, -, -⟩ := h
  obtain ⟨d', ms', a', z', hd', hm', p', -, -⟩ := h'
  obtain ⟨d'', ms'', a'', z'', hd'', hm'', p'', -, -⟩ := h''
  have middle : ∃ ms₁ z₁, Part (xs ++ ys) ms₁ a z₁ ∧
      Marked (.concat ([d] ++ (if m.hasExpression then [text " "] else []) ++ [d'])) ms₁ := by
    cases he : m.hasExpression with
    | true => exact ⟨_, _, p.gap p', by
        simpa using Marked.cons hm (.cons (.text " " [.gap] rfl) (.cons hm' .nil))⟩
    | false =>
      obtain ⟨t, ts, rfl, ht⟩ := hb he
      have hq : a' = .semicolon := (p'.first (by rw [ht]; decide)).trans ht
      exact ⟨_, _, p.join p' (Kind.abuts_quiet z (by rw [hq]; rfl)), by
        simpa using Marked.cons hm (.cons hm' .nil)⟩
  obtain ⟨ms₁, z₁, p₁, hm₁⟩ := middle
  have step : ∃ s ms₂ z₂, innerDoc? o = .ok s ∧ Part (xs ++ ys ++ zs) ms₂ a z₂ ∧
      Marked (.concat (([d] ++ (if m.hasExpression then [text " "] else []) ++ [d']) ++
        s.toList.flatMap fun s => [text " ", s])) ms₂ := by
    obtain ⟨rfl, rfl⟩ | ⟨n, rfl, s, ms₂, a₂, z₂, hs, hm₂, p₂, -, -⟩ := ho
    · exact ⟨none, ms₁, z₁, rfl, by simpa using p₁, by simpa using hm₁⟩
    · exact ⟨some s, _, _, by rw [innerDoc?, hs]; rfl, p₁.gap p₂,
        hm₁.append (.cons (.text " " [.gap] rfl) hm₂.single)⟩
  obtain ⟨s, ms₂, z₂, hs, p₂, hm₂⟩ := step
  have hm₃ := Marked.cons (.text "for (" [.of .kwFor, .gap, .of .lParen] rfl)
    (hm₂.append (.cons (.text ") " [.of .rParen, .gap] rfl) hm''.single))
  have header := Part.header hk hkk (by decide) rfl p₂ hl hlk hr hrk
  refine ⟨_, _, .kwFor, z'', ?_, hm₃, by simpa using header.gap p'', rfl, nofun⟩
  rw [innerDoc, hd, hd', hs, hd'']
  cases s <;> simp [bind, Except.bind, pure, Except.pure]

theorem Prints.gotoStmt (hk : kw.Lexed) (hkk : kw.kind = .kwGoto) (ht : t.kind = .ident)
    (hs : semi.Lexed) (hsk : semi.kind = .semicolon) :
    Prints false [kw, t, semi] ⟨sp, .gotoStmt t.text⟩ := by
  have hm₁ : Marked (.concat [text "goto ", text t.text, text ";"]) _ :=
    .cons (.text _ [.of .kwGoto, .gap] rfl) (.cons (Token.marked (by rw [ht]; decide))
      (.cons (.text _ [.of .semicolon] rfl) .nil))
  have name : Part [t] _ _ _ := .token ht (by decide)
  have word := Part.spelled hk hkk (by decide) rfl
  exact ⟨_, _, .kwGoto, .semicolon, rfl, hm₁,
    by simpa using (word.gap name).quiet hs hsk rfl (by decide), rfl, nofun⟩

theorem Prints.jump {k : Kind} {s : String} (hk : kw.Lexed) (hkk : kw.kind = k)
    (hc : k ∉ [Kind.comma, .dot])
    (hsp : k.spelling.isSome = true) (hlead : k.leads = true) (hs : semi.Lexed)
    (hsk : semi.kind = .semicolon) (hd : n.innerDoc = .ok (text s))
    (ht : s.toList = [Mark.of k, .of .semicolon].flatMap Mark.chars) :
    Prints false [kw, semi] n := by
  have word := Part.spelled hk hkk hc hsp
  exact ⟨_, _, k, .semicolon, hd, .text _ _ ht,
    by simpa using word.quiet hs hsk rfl (by decide), hlead, nofun⟩

theorem Prints.returnStmt (hk : kw.Lexed) (hkk : kw.kind = .kwReturn) (h : PrintsOption v xs o)
    (hs : semi.Lexed) (hsk : semi.kind = .semicolon) :
    Prints false (kw :: xs ++ [semi]) ⟨sp, .returnStmt o⟩ := by
  obtain ⟨rfl, rfl⟩ | ⟨n, rfl, d, ms, a, z, hd, hm, p, ha, -⟩ := h
  · exact .jump hk hkk (by decide) rfl rfl hs hsk rfl rfl
  · have hm₁ : Marked (.concat [text "return ", d, text ";"]) _ :=
      .cons (.text _ [.of .kwReturn, .gap] rfl)
        (.cons hm (.cons (.text _ [.of .semicolon] rfl) .nil))
    have word := Part.spelled hk hkk (by decide) rfl
    exact ⟨_, _, .kwReturn, .semicolon, by rw [innerDoc, hd]; rfl, hm₁,
      by simpa using (word.gap p).quiet hs hsk rfl (by decide), rfl, nofun⟩

end CPretty
