import CPretty.Proofs.Grammar.Soundness.Declaration

namespace CPretty

open Parse

attribute [local simp] Node.between

namespace Grammar

variable {b c d : Cursor} {n : Node} {deep : Nested} (hd : deep.Sound)
include hd

theorem expressionStatement_reads : ReadsAs (expressionStatement deep) .exprStatement := by
  intro c n d hc h
  obtain ⟨b, c₁, h₁, h⟩ := bind_ok h
  cases h₁
  split at h
  · obtain ⟨o, c₁, h₁, h⟩ := bind_ok h
    cases h₁
    obtain ⟨t, c₂, h₂, h⟩ := bind_ok h
    obtain ⟨ht, p₂⟩ := expect_ok h₂ hc (by decide)
    obtain ⟨rfl, rfl⟩ := pure_ok h
    exact ⟨[t], p₂, .exprStatement .absent ht⟩
  · obtain ⟨o, c₁, h₁, h⟩ := bind_ok h
    obtain ⟨e, he, rfl⟩ := map_ok h₁
    obtain ⟨xs, p₁, he⟩ := expression_reads hd hc he
    obtain ⟨t, c₂, h₂, h⟩ := bind_ok h
    obtain ⟨ht, p₂⟩ := expect_ok h₂ (p₁.ended hc) (by decide)
    obtain ⟨rfl, rfl⟩ := pure_ok h
    exact ⟨_, p₁.trans p₂, .exprStatement (.present he) ht⟩

theorem declarationOr_reads {p : Parse Node} {ph : Phrase} {D : List Token → Node → Prop}
    (hp : ReadsAs p ph) (hD : ∀ {xs n}, Derives .declaration xs [n] → D xs n)
    (hE : ∀ {xs n}, Derives ph xs [n] → D xs n) : Reads (declarationOr deep p) D := by
  intro c n d hc h
  obtain ⟨ts, c₁, h₁, h⟩ := bind_ok h
  cases h₁
  have hp' := hp.mono fun _ _ => hE
  split at h
  · exact Reads.either ((declaration_reads hd).mono fun _ _ => hD) hp' hc h
  · exact hp' hc h

theorem compound_reads : ReadsAs (compound deep) .compound := by
  intro c n d hc h
  obtain ⟨l, c₁, h₁, h⟩ := bind_ok h
  obtain ⟨hl, p₁⟩ := expect_ok h₁ hc (by decide)
  obtain ⟨ns, c₂, h₂, h⟩ := bind_ok h
  have item : ReadsAs (declarationOr deep deep.statement) .blockItem :=
    declarationOr_reads hd hd.statement .itemDeclaration .itemStatement
  obtain ⟨xs, p₂, hn⟩ := manyUntil_reads item (p₁.ended hc) h₂
  obtain ⟨r, c₃, h₃, h⟩ := bind_ok h
  obtain ⟨hr, p₃⟩ := expect_ok h₃ (p₂.ended (p₁.ended hc)) (by decide)
  obtain ⟨rfl, rfl⟩ := pure_ok h
  exact ⟨_, p₁.trans (p₂.trans p₃), .compound hl hn hr⟩

theorem ifStatementUpTo_reads {m : Nat} (hc : c.Ended) (hk : c.peek.kind = .kwIf)
    (h : ifStatementUpTo deep m c = .ok (n, d)) :
    ∃ xs, c.Passes xs d ∧ Derives .statement xs [n] := by
  induction m generalizing c d n with
  | zero => exact hd.statement hc h
  | succ m ih =>
    obtain ⟨kw, c₁, h₁, h⟩ := bind_ok h
    obtain ⟨hkw, p₁⟩ := advance_of_kind h₁ hc hk (by decide)
    obtain ⟨e, c₂, h₂, h⟩ := bind_ok h
    obtain ⟨_, p₂, l, xs, r, rfl, hl, he, hr⟩ := condition_reads hd (p₁.ended hc) h₂
    have hc₂ := p₂.ended (p₁.ended hc)
    obtain ⟨yes, c₃, h₃, h⟩ := bind_ok h
    obtain ⟨ys, p₃, hy⟩ := hd.statement hc₂ h₃
    have hc₃ := p₃.ended hc₂
    obtain ⟨b, c₄, h₄, h⟩ := bind_ok h
    obtain ⟨rfl, t, ht, p₄⟩ | ⟨rfl, rfl, -⟩ := eat_ok h₄ hc₃ (by decide)
    · have no : ∃ zs m, c₄.Passes zs d ∧ Derives .statement zs [m] ∧
          n = Node.between kw.span (Node.spanOr (some m) yes.span) (.ifStmt e yes (some m)) := by
        obtain ⟨b, c₅, h₅, h⟩ := bind_ok h
        cases h₅
        split at h
        · rename_i hif
          obtain ⟨o, c₅, h₅, h⟩ := bind_ok h
          obtain ⟨m, h₆, rfl⟩ := map_ok h₅
          obtain ⟨zs, p₅, hm⟩ := ih (p₄.ended hc₃) (beq_iff_eq.mp hif) h₆
          obtain ⟨rfl, rfl⟩ := pure_ok h
          exact ⟨zs, m, p₅, hm, rfl⟩
        · obtain ⟨o, c₅, h₅, h⟩ := bind_ok h
          obtain ⟨m, h₆, rfl⟩ := map_ok h₅
          obtain ⟨zs, p₅, hm⟩ := hd.statement (p₄.ended hc₃) h₆
          obtain ⟨rfl, rfl⟩ := pure_ok h
          exact ⟨zs, m, p₅, hm, rfl⟩
      obtain ⟨zs, m, p₅, hm, rfl⟩ := no
      exact ⟨_, p₁.trans (p₂.trans (p₃.trans (p₄.trans p₅))),
        by simpa using Derives.ifElse hkw hl he hr hy ht hm⟩
    · obtain ⟨rfl, rfl⟩ := pure_ok h
      exact ⟨_, p₁.trans (p₂.trans p₃), by simpa using Derives.ifStmt hkw hl he hr hy⟩

theorem forStatement_reads (hc : c.Ended) (hk : c.peek.kind = .kwFor)
    (h : forStatement deep c = .ok (n, d)) : ∃ xs, c.Passes xs d ∧ Derives .statement xs [n] := by
  obtain ⟨kw, c₁, h₁, h⟩ := bind_ok h
  obtain ⟨hkw, p₁⟩ := advance_of_kind h₁ hc hk (by decide)
  obtain ⟨l, c₂, h₂, h⟩ := bind_ok h
  obtain ⟨hl, p₂⟩ := expect_ok h₂ (p₁.ended hc) (by decide)
  have hc₂ := p₂.ended (p₁.ended hc)
  obtain ⟨i, c₃, h₃, h⟩ := bind_ok h
  obtain ⟨xs, p₃, hi⟩ := declarationOr_reads hd (expressionStatement_reads hd)
    (D := fun xs n => Derives .forInit xs [n]) .initDeclaration .initStatement hc₂ h₃
  have hc₃ := p₃.ended hc₂
  obtain ⟨e, c₄, h₄, h⟩ := bind_ok h
  obtain ⟨ys, p₄, he⟩ := expressionStatement_reads hd hc₃ h₄
  have hc₄ := p₄.ended hc₃
  have rest : ∃ step zs c₅ r m ws c₆, c₄.Passes zs c₅ ∧ Derives (.optional .expression) zs step ∧
      Token.Of .rParen r ∧ c₅.Passes [r] c₆ ∧ c₆.Passes ws d ∧ Derives .statement ws [m] ∧
      n = Node.between kw.span m.span (.forStmt i e step.head? m) := by
    obtain ⟨b, c₅, h₅, h⟩ := bind_ok h
    cases h₅
    split at h
    · obtain ⟨o, c₅, h₅, h⟩ := bind_ok h
      cases h₅
      obtain ⟨r, c₆, h₆, h⟩ := bind_ok h
      obtain ⟨hr, p₆⟩ := expect_ok h₆ hc₄ (by decide)
      obtain ⟨m, c₇, h₇, h⟩ := bind_ok h
      obtain ⟨ws, p₇, hm⟩ := hd.statement (p₆.ended hc₄) h₇
      obtain ⟨rfl, rfl⟩ := pure_ok h
      exact ⟨[], [], c₄, r, m, ws, c₆, .refl c₄, .absent, hr, p₆, p₇, hm, rfl⟩
    · obtain ⟨o, c₅, h₅, h⟩ := bind_ok h
      obtain ⟨s, hs, rfl⟩ := map_ok h₅
      obtain ⟨zs, p₅, hs⟩ := expression_reads hd hc₄ hs
      obtain ⟨r, c₆, h₆, h⟩ := bind_ok h
      obtain ⟨hr, p₆⟩ := expect_ok h₆ (p₅.ended hc₄) (by decide)
      obtain ⟨m, c₇, h₇, h⟩ := bind_ok h
      obtain ⟨ws, p₇, hm⟩ := hd.statement (p₆.ended (p₅.ended hc₄)) h₇
      obtain ⟨rfl, rfl⟩ := pure_ok h
      exact ⟨[s], zs, c₅, r, m, ws, c₆, p₅, .present hs, hr, p₆, p₇, hm, rfl⟩
  obtain ⟨step, zs, c₅, r, m, ws, c₆, p₅, hs, hr, p₆, p₇, hm, rfl⟩ := rest
  exact ⟨_, p₁.trans (p₂.trans (p₃.trans (p₄.trans (p₅.trans (p₆.trans p₇))))),
    by simpa using Derives.forStmt hkw hl hi he hs hr hm⟩

omit hd in
theorem jump_reads {shape : Shape Node} {k : Kind} (hc : c.Ended) (hk : c.peek.kind = k)
    (hne : k ≠ .eof) (h : jump shape c = .ok (n, d)) : ∃ kw semi sp, c.Passes [kw, semi] d ∧
      Token.Of k kw ∧ Token.Of .semicolon semi ∧ n = ⟨sp, shape⟩ := by
  obtain ⟨kw, c₁, h₁, h⟩ := bind_ok h
  obtain ⟨hkw, p₁⟩ := advance_of_kind h₁ hc hk hne
  obtain ⟨semi, c₂, h₂, h⟩ := bind_ok h
  obtain ⟨hs, p₂⟩ := expect_ok h₂ (p₁.ended hc) (by decide)
  obtain ⟨rfl, rfl⟩ := pure_ok h
  exact ⟨kw, semi, _, p₁.trans p₂, hkw, hs, rfl⟩

theorem labelled_reads (hc : c.Ended) (hk : c.peek.kind = .ident)
    (h : labelled deep c = .ok (n, d)) : ∃ xs, c.Passes xs d ∧ Derives .statement xs [n] := by
  obtain ⟨t, c₁, h₁, h⟩ := bind_ok h
  obtain ⟨ht, p₁⟩ := advance_of_kind h₁ hc hk (by decide)
  obtain ⟨q, c₂, h₂, h⟩ := bind_ok h
  obtain ⟨hq, p₂⟩ := expect_ok h₂ (p₁.ended hc) (by decide)
  obtain ⟨m, c₃, h₃, h⟩ := bind_ok h
  obtain ⟨xs, p₃, hm⟩ := hd.statement (p₂.ended (p₁.ended hc)) h₃
  obtain ⟨rfl, rfl⟩ := pure_ok h
  exact ⟨_, p₁.trans (p₂.trans p₃), .label ht hq hm⟩

theorem returnStatement_reads {kw : Token} (hc : c.Ended)
    (h : (do
      let value ← if ← check .semicolon then pure none else some <$> expression deep
      let semi ← expect .semicolon
      return Node.between kw.span semi.span (.returnStmt value) : Parse Node) c = .ok (n, d))
    (hkw : Token.Of .kwReturn kw) : ∃ xs, c.Passes xs d ∧ Derives .statement (kw :: xs) [n] := by
  obtain ⟨b, c₁, h₁, h⟩ := bind_ok h
  cases h₁
  split at h
  · obtain ⟨o, c₁, h₁, h⟩ := bind_ok h
    cases h₁
    obtain ⟨t, c₂, h₂, h⟩ := bind_ok h
    obtain ⟨ht, p₂⟩ := expect_ok h₂ hc (by decide)
    obtain ⟨rfl, rfl⟩ := pure_ok h
    exact ⟨[t], p₂, .returnStmt hkw .absent ht⟩
  · obtain ⟨o, c₁, h₁, h⟩ := bind_ok h
    obtain ⟨e, h₂, rfl⟩ := map_ok h₁
    obtain ⟨xs, p₁, he⟩ := expression_reads hd hc h₂
    obtain ⟨t, c₂, h₃, h⟩ := bind_ok h
    obtain ⟨ht, p₂⟩ := expect_ok h₃ (p₁.ended hc) (by decide)
    obtain ⟨rfl, rfl⟩ := pure_ok h
    exact ⟨_, p₁.trans p₂, .returnStmt hkw (.present he) ht⟩

theorem statement_reads : ReadsAs (statement deep) .statement := by
  intro c n d hc h
  obtain ⟨k, c₁, h₁, h⟩ := bind_ok h
  cases h₁
  have plain := (expressionStatement_reads hd).mono fun _ _ => Derives.ofExprStatement
  generalize hk : c.peek.kind = k at h
  split at h
  case h_1 =>
    obtain ⟨ts, c₁, h₁, h⟩ := bind_ok h
    cases h₁
    split at h
    · exact labelled_reads hd hc hk h
    · exact plain hc h
  case h_2 =>
    obtain ⟨kw, c₁, h₁, h⟩ := bind_ok h
    obtain ⟨hkw, p₁⟩ := advance_of_kind h₁ hc hk (by decide)
    obtain ⟨e, c₂, h₂, h⟩ := bind_ok h
    obtain ⟨xs, p₂, he⟩ := conditional_reads hd (p₁.ended hc) h₂
    obtain ⟨q, c₃, h₃, h⟩ := bind_ok h
    obtain ⟨hq, p₃⟩ := expect_ok h₃ (p₂.ended (p₁.ended hc)) (by decide)
    obtain ⟨m, c₄, h₄, h⟩ := bind_ok h
    obtain ⟨ys, p₄, hm⟩ := hd.statement (p₃.ended (p₂.ended (p₁.ended hc))) h₄
    obtain ⟨rfl, rfl⟩ := pure_ok h
    exact ⟨_, p₁.trans (p₂.trans (p₃.trans p₄)), .caseStmt hkw he hq hm⟩
  case h_3 =>
    obtain ⟨kw, c₁, h₁, h⟩ := bind_ok h
    obtain ⟨hkw, p₁⟩ := advance_of_kind h₁ hc hk (by decide)
    obtain ⟨q, c₂, h₂, h⟩ := bind_ok h
    obtain ⟨hq, p₂⟩ := expect_ok h₂ (p₁.ended hc) (by decide)
    obtain ⟨m, c₃, h₃, h⟩ := bind_ok h
    obtain ⟨xs, p₃, hm⟩ := hd.statement (p₂.ended (p₁.ended hc)) h₃
    obtain ⟨rfl, rfl⟩ := pure_ok h
    exact ⟨_, p₁.trans (p₂.trans p₃), .defaultStmt hkw hq hm⟩
  case h_4 => exact (compound_reads hd).mono (fun _ _ => Derives.ofCompound) hc h
  case h_5 =>
    obtain ⟨ts, c₁, h₁, h⟩ := bind_ok h
    cases h₁
    exact ifStatementUpTo_reads hd hc hk h
  case h_6 =>
    obtain ⟨kw, c₁, h₁, h⟩ := bind_ok h
    obtain ⟨hkw, p₁⟩ := advance_of_kind h₁ hc hk (by decide)
    obtain ⟨e, c₂, h₂, h⟩ := bind_ok h
    obtain ⟨_, p₂, l, xs, r, rfl, hl, he, hr⟩ := condition_reads hd (p₁.ended hc) h₂
    obtain ⟨m, c₃, h₃, h⟩ := bind_ok h
    obtain ⟨ys, p₃, hm⟩ := hd.statement (p₂.ended (p₁.ended hc)) h₃
    obtain ⟨rfl, rfl⟩ := pure_ok h
    exact ⟨_, p₁.trans (p₂.trans p₃), by simpa using Derives.switchStmt hkw hl he hr hm⟩
  case h_7 =>
    obtain ⟨kw, c₁, h₁, h⟩ := bind_ok h
    obtain ⟨hkw, p₁⟩ := advance_of_kind h₁ hc hk (by decide)
    obtain ⟨e, c₂, h₂, h⟩ := bind_ok h
    obtain ⟨_, p₂, l, xs, r, rfl, hl, he, hr⟩ := condition_reads hd (p₁.ended hc) h₂
    obtain ⟨m, c₃, h₃, h⟩ := bind_ok h
    obtain ⟨ys, p₃, hm⟩ := hd.statement (p₂.ended (p₁.ended hc)) h₃
    obtain ⟨rfl, rfl⟩ := pure_ok h
    exact ⟨_, p₁.trans (p₂.trans p₃), by simpa using Derives.whileStmt hkw hl he hr hm⟩
  case h_8 =>
    obtain ⟨kw, c₁, h₁, h⟩ := bind_ok h
    obtain ⟨hkw, p₁⟩ := advance_of_kind h₁ hc hk (by decide)
    obtain ⟨m, c₂, h₂, h⟩ := bind_ok h
    obtain ⟨xs, p₂, hm⟩ := hd.statement (p₁.ended hc) h₂
    have hc₂ := p₂.ended (p₁.ended hc)
    obtain ⟨w, c₃, h₃, h⟩ := bind_ok h
    obtain ⟨hw, p₃⟩ := expect_ok h₃ hc₂ (by decide)
    obtain ⟨e, c₄, h₄, h⟩ := bind_ok h
    obtain ⟨_, p₄, l, ys, r, rfl, hl, he, hr⟩ := condition_reads hd (p₃.ended hc₂) h₄
    obtain ⟨t, c₅, h₅, h⟩ := bind_ok h
    obtain ⟨ht, p₅⟩ := expect_ok h₅ (p₄.ended (p₃.ended hc₂)) (by decide)
    obtain ⟨rfl, rfl⟩ := pure_ok h
    exact ⟨_, p₁.trans (p₂.trans (p₃.trans (p₄.trans p₅))),
      by simpa using Derives.doStmt hkw hm hw hl he hr ht⟩
  case h_9 => exact forStatement_reads hd hc hk h
  case h_10 =>
    obtain ⟨kw, c₁, h₁, h⟩ := bind_ok h
    obtain ⟨hkw, p₁⟩ := advance_of_kind h₁ hc hk (by decide)
    obtain ⟨t, c₂, h₂, h⟩ := bind_ok h
    obtain ⟨ht, p₂⟩ := expect_ok h₂ (p₁.ended hc) (by decide)
    obtain ⟨semi, c₃, h₃, h⟩ := bind_ok h
    obtain ⟨hs, p₃⟩ := expect_ok h₃ (p₂.ended (p₁.ended hc)) (by decide)
    obtain ⟨rfl, rfl⟩ := pure_ok h
    exact ⟨_, p₁.trans (p₂.trans p₃), .gotoStmt hkw ht hs⟩
  case h_11 =>
    obtain ⟨kw, semi, sp, p, hkw, hs, rfl⟩ := jump_reads hc hk (by decide) h
    exact ⟨_, p, .continueStmt hkw hs⟩
  case h_12 =>
    obtain ⟨kw, semi, sp, p, hkw, hs, rfl⟩ := jump_reads hc hk (by decide) h
    exact ⟨_, p, .breakStmt hkw hs⟩
  case h_13 =>
    obtain ⟨kw, c₁, h₁, h⟩ := bind_ok h
    obtain ⟨hkw, p₁⟩ := advance_of_kind h₁ hc hk (by decide)
    obtain ⟨xs, p₂, hx⟩ := returnStatement_reads hd (p₁.ended hc) h hkw
    exact ⟨_, p₁.trans p₂, hx⟩
  case h_14 => exact plain hc h

/-- A function definition after its specifiers: its declarator and what comes after it. -/
theorem functionDefinition_reads {specs : List Node} {xs : List Token}
    (hs : Derives (.optional .declSpecs) xs specs) (hc : c.Ended)
    (h : functionDefinition deep specs.head? c = .ok (n, d)) :
    ∃ a c₁ ys zs, deep.declarator c = .ok (a, c₁) ∧ c.Passes ys c₁ ∧ c₁.Passes zs d ∧
      Defines a (xs ++ ys ++ zs) n := by
  obtain ⟨a, c₁, h₁, h⟩ := bind_ok h
  obtain ⟨ys, p₁, ha⟩ := hd.declarator hc h₁
  split at h
  · rename_i hf
    obtain ⟨ds, c₂, h₂, h⟩ := bind_ok h
    obtain ⟨zs, p₂, hds⟩ := many_reads (P := Derives (.sequence .declaration))
      (D := fun xs n => Derives .declaration xs [n]) (by
        intro c o d hc h
        obtain ⟨b, c₁, h₁, h⟩ := bind_ok h
        cases h₁
        split at h
        · obtain ⟨rfl, rfl⟩ := pure_ok h
          exact ⟨[], .refl d, rfl⟩
        · obtain ⟨n, c₁, h₁, h⟩ := bind_ok h
          obtain ⟨rfl, rfl⟩ := pure_ok h
          exact declaration_reads hd hc h₁) .sequenceNil (fun h => .sequenceMore h)
      (p₁.ended hc) h₂
    obtain ⟨body, c₃, h₃, h⟩ := bind_ok h
    obtain ⟨ws, p₃, hbody⟩ := compound_reads hd (p₂.ended (p₁.ended hc)) h₃
    obtain ⟨rfl, rfl⟩ := pure_ok h
    refine ⟨a, c₁, ys, zs ++ ws, h₁, p₁, p₂.trans p₃, ?_⟩
    rw [← List.append_assoc]
    exact .mk hs ha hf hds hbody
  · cases h

theorem typedDefinition_reads :
    ReadsAs (do functionDefinition deep (some (← declSpecs deep))) .external := by
  intro c n d hc h
  obtain ⟨s, c₁, h₁, h⟩ := bind_ok h
  obtain ⟨xs, p₁, hs⟩ := declSpecs_reads hd hc h₁
  obtain ⟨a, c₂, ys, zs, -, p₂, p₃, ha⟩ :=
    functionDefinition_reads hd (.present hs) (p₁.ended hc) h
  exact ⟨_, (p₁.trans p₂).trans p₃, ha.external⟩

theorem untypedDefinition_reads : ReadsAs (functionDefinition deep none) .external := by
  intro c n d hc h
  obtain ⟨a, c₁, ys, zs, -, p₁, p₂, ha⟩ := functionDefinition_reads hd .absent hc h
  exact ⟨_, p₁.trans p₂, ha.external⟩

theorem externalDeclaration_reads : ReadsAs (externalDeclaration deep) .external := by
  have decl := (declaration_reads hd).mono fun _ _ => Derives.ofDeclaration
  exact .either (.either (typedDefinition_reads hd) decl) (untypedDefinition_reads hd)

theorem sourceFile_reads (hc : c.Ended) (h : sourceFile deep c = .ok (n, d)) :
    ∃ sp ns, n = ⟨sp, .root ns⟩ ∧ Derives (.sequence .external) c.ahead ns ∧ d.ahead = [] := by
  have step : Reads (do
      if ← atEnd then return none else return some (← externalDeclaration deep) :
        Parse (Option Node)) (StepReads fun xs n => Derives .external xs [n]) := by
    intro c o d hc h
    obtain ⟨b, c₁, h₁, h⟩ := bind_ok h
    cases h₁
    split at h
    · obtain ⟨rfl, rfl⟩ := pure_ok h
      exact ⟨[], .refl d, rfl⟩
    · obtain ⟨n, c₁, h₁, h⟩ := bind_ok h
      obtain ⟨rfl, rfl⟩ := pure_ok h
      exact externalDeclaration_reads hd hc h₁
  obtain ⟨ns, c₁, h₁, h⟩ := bind_ok h
  obtain ⟨xs, p, hns⟩ := many_reads (P := Derives (.sequence .external)) step .sequenceNil
    (fun h => .sequenceMore h) hc h₁
  -- Every declaration takes a token, so the repetition stops at the end only.
  obtain ⟨e, he⟩ := many_stops step Derives.ne_nil hc h₁
  obtain ⟨b, c₂, h₂, he⟩ := bind_ok he
  cases h₂
  split at he
  · rename_i hend
    obtain ⟨-, rfl⟩ := pure_ok he
    obtain ⟨t, c₂, h₂, h⟩ := bind_ok h
    cases h₂
    obtain ⟨rfl, rfl⟩ := pure_ok h
    have hx := p.ahead
    rw [List.isEmpty_iff.mp hend, List.append_nil] at hx
    exact ⟨_, ns, rfl, hx ▸ hns, List.isEmpty_iff.mp hend⟩
  · obtain ⟨n, c₃, h₃, he⟩ := bind_ok he
    cases he

end Grammar

namespace Nested.Sound

theorem refused (limit : Nat) : (Nested.refused limit).Sound := by
  constructor <;> · intro c; intros; contradiction

theorem around {deep : Nested} (hd : deep.Sound) : deep.around.Sound where
  operand := Grammar.operand_reads hd
  expression := Grammar.expression_reads hd
  conditional := Grammar.conditional_reads hd
  struct := fun _ _ _ => Grammar.structSpecifier_reads hd
  initializer := Grammar.initializer_reads hd
  declarator := Grammar.declarator_reads hd
  abstractDeclarator := Grammar.abstractDeclarator_reads hd
  statement := Grammar.statement_reads hd

theorem levels (limit n : Nat) : (Nested.levels limit n).Sound := by
  induction n with
  | zero => exact refused limit
  | succ n ih => exact ih.around

end Nested.Sound

theorem TokenStream.derives_of_parse {s : TokenStream} {limit : Nat} {n : Node}
    (h : s.parse limit = .ok n) :
    ∃ sp ns, n = ⟨sp, .root ns⟩ ∧ Derives (.sequence .external) s.tokens ns := by
  rw [TokenStream.parse] at h
  cases hr : Grammar.sourceFile (.levels limit limit) ⟨s.tokens, Token.eof s.finish⟩ with
  | error e => rw [hr] at h; cases h
  | ok r =>
    rw [hr] at h
    cases h
    obtain ⟨sp, ns, hn, hder, -⟩ :=
      Grammar.sourceFile_reads (c := ⟨s.tokens, .eof s.finish⟩) (.levels limit limit) rfl hr
    exact ⟨sp, ns, hn, hder⟩

end CPretty
