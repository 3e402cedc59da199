import CPretty.Proofs.Grammar.Blind.Declaration

namespace CPretty.Linked

open Parse Place Grammar

variable {e : Ending} {s : List Bracket} {c c' : Cursor} {deep : Nested}
  {Q : Cursor → Cursor → Prop}

theorem expressionStatement_outcome (h : Nesteds e deep) (hl : s.head? ≠ some .list)
    (hc : Cursors e (Free s) c c')
    (hQ : ∀ {d d'}, d.peek.kind = .semicolon → Cursors e (Free s) d d' → Q d.advance d'.advance) :
    Outcome Q (expressionStatement deep c) (expressionStatement deep c') := by
  refine .before (hc.sees (by decide)) (expression_blind h hl hc) hc fun hd => ?_
  exact .expectSame (hd.sees (by decide)) fun he =>
    ⟨hd.peek_eq (by rw [he]; decide), .pure (hQ he hd)⟩

theorem expressionStatement_blind (h : Nesteds e deep) (hl : s.head? ≠ some .list)
    (hs : ¬ e.At s .semicolon) :
    Blind e (Free s) (At s .block) (expressionStatement deep) :=
  fun _ _ hc => expressionStatement_outcome h hl hc fun hk hd =>
    (hd.advance (hk ▸ .semicolon hs)).2

theorem declarationOr_outcome (hl : s.head? ≠ some .list) (hc : Cursors e (At s .block) c c')
    {p : Parse Node} (hd : Outcome Q (declaration deep c) (declaration deep c'))
    (hp : Outcome Q (p c) (p c')) :
    Outcome Q (declarationOr deep p c) (declarationOr deep p c') := by
  obtain ⟨_, rfl, ha⟩ := hc.ahead
  refine .ahead ?_
  rw [← startsDeclaration_eq ha hl]
  split
  · exact .either hd hp
  · exact hp

theorem declarationOr_blind (h : Nesteds e deep) (hl : s.head? ≠ some .list)
    (hs : ¬ e.At s .semicolon) {p : Parse Node} (hp : Blind e (At s .block) (At s .block) p) :
    Blind e (At s .block) (At s .block) (declarationOr deep p) :=
  fun _ _ hc => declarationOr_outcome hl hc (declaration_blind h hl hs hc.free) (hp hc)

theorem compound_outcome (h : Nesteds e deep) (hc : Cursors e (At s .block) c c')
    (hQ : ∀ {d d'}, d.peek.kind = .rBrace → Cursors e (At (.block :: s) .block) d d' →
      Q d.advance d'.advance) : Outcome Q (compound deep c) (compound deep c') := by
  have item := declarationOr_blind h (by simp) Ending.not_at_semicolon (h.statement s)
  have reads := declarationOr_reads h.sound (D := fun xs n => Derives .blockItem xs [n])
    h.sound.statement .itemDeclaration .itemStatement
  refine .expect hc (hc.sees (by decide)) .block fun hd => ?_
  refine .bind (Blind.manyUntil reads item (fun r h => by cases h) .rBrace hd) fun hd => ?_
  have hk := hd.kind_eq fun r h => by cases h
  refine .expectSame (by rw [hk]) fun he => ⟨hd.peek_eq (by rw [he]; decide), .pure (hQ he hd)⟩

theorem compound_blind (h : Nesteds e deep) (hs : s ≠ []) :
    Blind e (At s .block) (At s .block) (compound deep) := by
  exact fun c c' hc => compound_outcome h hc fun hk hd =>
    (hd.advance (hk ▸ .closeBlock (Ending.not_at_inner_brace hs))).2

theorem ifStatementUpTo_blind (h : Nesteds e deep) (n : Nat) :
    ∀ {m s c c'}, c.ahead.length < n → c'.ahead.length < m → c.peek.kind = .kwIf →
    Cursors e (At (.block :: s) .block) c c' →
    Outcome (Cursors e (At (.block :: s) .block)) (ifStatementUpTo deep n c)
      (ifStatementUpTo deep m c') := by
  induction n with
  | zero => exact fun hn => absurd hn (Nat.not_lt_zero _)
  | succ n ih =>
    intro m s c c' hn hm hk hc
    obtain _ | m := m
    · exact absurd hm (Nat.not_lt_zero _)
    obtain ⟨hl, hl'⟩ := hc.free.advance_lt hk (.inner rfl)
    refine .advance hc.free hk (.inner rfl) fun hd => ?_
    refine .bindOk (condition_blind h hd.free) fun {cond d d'} h₁ h₁' hd₁ => ?_
    have l₁ := (condition_reads h.sound).length_le hd.ended h₁
    have l₁' := (condition_reads h.sound).length_le hd.ended' h₁'
    refine .bindOk (h.statement s hd₁) fun {yes b b'} h₂ h₂' hd₂ => ?_
    have l₂ := h.sound.statement.length_le hd₁.ended h₂
    have l₂' := h.sound.statement.length_le hd₁.ended' h₂'
    refine .eat hd₂.free (hd₂.sees (by decide)) (.inner rfl) (fun _ hd => ?_) (.pure hd₂)
    refine .check (hd.sees (by decide)) ?_
    split
    next hi =>
      have l₃ := b.advance_length_le
      have l₃' := b'.advance_length_le
      refine .bind (.map (ih ?_ ?_ (eq_of_beq hi) hd)) fun hd => .pure hd
      · omega
      · omega
    next => exact .bind (.map (h.statement s hd)) fun hd => .pure hd

theorem forStatement_blind (h : Nesteds e deep) (hk : c.peek.kind = .kwFor)
    (hc : Cursors e (At (.block :: s) .block) c c') :
    Outcome (Cursors e (At (.block :: s) .block)) (forStatement deep c) (forStatement deep c') := by
  have head {r : List Bracket} := expressionStatement_blind h (s := .paren :: r) (by simp)
    Ending.not_at_semicolon
  refine .advance hc.free hk (.inner rfl) fun hd => ?_
  refine .expect hd.free (hd.sees (by decide)) .paren fun hd => ?_
  refine .bind (declarationOr_blind h (by simp) Ending.not_at_semicolon
    (fun _ _ hc => head hc.free) hd) fun hd => ?_
  refine .bind (head hd.free) fun hd => ?_
  refine .before (hd.sees (by decide)) (expression_blind h (by simp) hd.free) hd.free fun hd => ?_
  refine .expect hd (hd.sees (by decide)) .closeParen fun hd => ?_
  exact .bind (h.statement s hd) fun hd => .pure hd

theorem jump_blind {k : Kind} (hk : c.peek.kind = k) (hi : k.isInner = true) {shape : Shape Node}
    (hc : Cursors e (At (.block :: s) .block) c c') :
    Outcome (Cursors e (At (.block :: s) .block)) (jump shape c) (jump shape c') := by
  refine .advance hc.free hk (.inner hi) fun hd => ?_
  exact .expect hd.free (hd.sees (by decide)) (.semicolon Ending.not_at_semicolon) fun hd =>
    .pure hd

theorem statement_blind (h : Nesteds e deep) :
    Blind e (At (.block :: s) .block) (At (.block :: s) .block) (statement deep) := by
  have plain := expressionStatement_blind h (s := .block :: s) (by simp) Ending.not_at_semicolon
  have colon : e.PlainColon (.block :: s) := Ending.plainColon (by decide)
  intro c c' hc
  refine .peekKind hc rfl fun k hk => ?_
  -- A keyword, what stands between it and the statement that it governs.
  split
  next =>
    refine .ahead ?_
    rw [← second_any hc.free hk (.inner rfl) (f := (· == .colon)) rfl]
    split
    · refine .advance hc.free hk (.inner rfl) fun hd => ?_
      refine .expect hd.free (hd.sees (by decide)) (.colon colon) fun hd => ?_
      exact .bind (h.statement s hd) fun hd => .pure hd
    · exact plain hc.free
  next =>
    refine .advance hc.free hk (.inner rfl) fun hd => ?_
    refine .bind (conditional_blind h hd.free) fun hd => ?_
    refine .expect hd (hd.sees (by decide)) (.colon colon) fun hd => ?_
    exact .bind (h.statement s hd) fun hd => .pure hd
  next =>
    refine .advance hc.free hk (.inner rfl) fun hd => ?_
    refine .expect hd.free (hd.sees (by decide)) (.colon colon) fun hd => ?_
    exact .bind (h.statement s hd) fun hd => .pure hd
  next => exact compound_blind h (List.cons_ne_nil _ _) hc
  next => exact .ahead (ifStatementUpTo_blind h _ (Nat.lt_succ_self _) (Nat.lt_succ_self _) hk hc)
  next =>
    refine .advance hc.free hk (.inner rfl) fun hd => .bind (condition_blind h hd.free) fun hd => ?_
    exact .bind (h.statement s hd) fun hd => .pure hd
  next =>
    refine .advance hc.free hk (.inner rfl) fun hd => .bind (condition_blind h hd.free) fun hd => ?_
    exact .bind (h.statement s hd) fun hd => .pure hd
  next =>
    refine .advance hc.free hk (.inner rfl) fun hd => .bind (h.statement s hd) fun hd => ?_
    refine .expect hd.free (hd.sees (by decide)) (.inner rfl) fun hd => ?_
    refine .bind (condition_blind h hd.free) fun hd => ?_
    exact .expect hd.free (hd.sees (by decide)) (.semicolon Ending.not_at_semicolon)
      fun hd => .pure hd
  next => exact forStatement_blind h hk hc
  next =>
    refine .advance hc.free hk (.inner rfl) fun hd => ?_
    refine .expect hd.free (hd.sees (by decide)) (.inner rfl) fun hd => ?_
    exact .expect hd.free (hd.sees (by decide)) (.semicolon Ending.not_at_semicolon)
      fun hd => .pure hd
  next => exact jump_blind hk rfl hc
  next => exact jump_blind hk rfl hc
  next =>
    refine .advance hc.free hk (.inner rfl) fun hd => ?_
    refine .before (hd.sees (by decide)) (expression_blind h (by simp) hd.free) hd.free fun hd => ?_
    exact .expect hd (hd.sees (by decide)) (.semicolon Ending.not_at_semicolon) fun hd => .pure hd
  next => exact plain hc.free

theorem Nesteds.around (h : Nesteds e deep) : Nesteds e deep.around where
  sound := h.sound.around
  operand _ := operand_blind h
  expression _ hs := expression_blind h hs
  conditional _ := conditional_blind h
  struct _ _ _ hc hk := structSpecifier_blind h hk hc
  initializer _ := initializer_blind h
  declarator _ _ := declarator_blind h
  abstractDeclarator _ _ := abstractDeclarator_blind h
  statement _ := statement_blind h

theorem Nesteds.levels (limit n : Nat) : Nesteds e (.levels limit n) := by
  induction n with
  | zero =>
    have refuse {P P' : Place → Prop} :
        Blind e P P' (do throw ((← get).excess limit) : Parse Node) := fun _ _ _ => .error rfl
    exact ⟨.refused limit, fun _ => refuse, fun _ _ => refuse, fun _ => refuse,
      fun _ _ _ _ _ => .error rfl, fun _ => refuse, fun _ _ => refuse, fun _ _ => refuse,
      fun _ => refuse⟩
  | succ n ih => exact ih.around

end CPretty.Linked
