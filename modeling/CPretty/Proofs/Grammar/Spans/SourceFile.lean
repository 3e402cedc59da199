import CPretty.Proofs.Grammar.Soundness.SourceFile
import CPretty.Proofs.Grammar.Spans.Declaration

namespace CPretty

open Parse

variable {b c d : Cursor} {n : Node} {ns : List Node} {deep : Nested}

namespace Grammar

variable (hd : deep.Covering)
include hd

theorem expressionStatement_spans : Reads (expressionStatement deep) Spans := by
  refine .of_run fun hc => .absent (expression_spans hd) hc fun ho => ?_
  exact .expect ho.after (by decide) fun ht => .pure ((ho.opened ht).close rfl rfl)

theorem declarationOr_spans {p : Parse Node} (hp : Reads p Spans) :
    Reads (declarationOr deep p) Spans := by
  refine .of_run fun hc => .ahead ?_
  split
  · exact (Reads.either (declaration_spans hd) hp).run hc
  · exact hp.run hc

theorem compound_spans : Reads (compound deep) Spans := by
  refine .of_run fun hc => .expect hc (by decide) fun hl => ?_
  refine .bind ((manyUntil_parts (declarationOr_spans hd hd.statement)).run hl.after)
    fun {ns _} hs => ?_
  refine .expect hs.after (by decide) fun hr => .pure ?_
  refine (hl.first.enclosed hs hr).close rfl ?_
  rw [Shape.children, Node.getD_nonempty?]
  rfl

theorem ifStatementUpTo_spans (m : Nat) (hc : c.Ended) (hk : c.peek.kind = .kwIf) :
    Ensures (Spanned c) (ifStatementUpTo deep m c) := by
  induction m generalizing c with
  | zero => exact hd.statement.run hc
  | succ m ih =>
    refine .advance hc (by simp [hk]) fun ht => .bind (condition_spans hd ht.after) ?_
    rintro e c₁ ⟨l, c₂, r, c₃, hl, hn, hr⟩
    refine .bind (hd.statement.run hr.after) fun hy => ?_
    have head := (((ht.first.token hl).node hn).token hr).node hy
    refine .eat hy.after (by decide) (fun {t _} he => ?_) (.pure (head.close rfl rfl))
    refine .check ?_
    split
    next hif =>
      exact .bind_map (ih he.after (eq_of_beq hif)) fun hz =>
        .pure (((head.token he).node hz).close rfl rfl)
    next =>
      exact .bind_map (hd.statement.run he.after) fun hz =>
        .pure (((head.token he).node hz).close rfl rfl)

theorem forStatement_spans (hc : c.Ended) (hk : c.peek.kind = .kwFor) :
    Ensures (Spanned c) (forStatement deep c) := by
  have init := declarationOr_spans hd (expressionStatement_spans hd)
  refine .advance hc (by simp [hk]) fun ht => .expect ht.after (by decide) fun hl => ?_
  refine .bind (init.run hl.after) fun hi => ?_
  refine .bind ((expressionStatement_spans hd).run hi.after) fun hn => ?_
  refine .absent (expression_spans hd) hn.after fun ho => ?_
  refine .expect ho.after (by decide) fun hr => .bind (hd.statement.run hr.after) fun hb => .pure ?_
  have head := ((ht.first.token hl).node hi).node hn
  exact ((head.enclosed ho.optional hr).node hb).close rfl rfl

omit hd in
theorem jump_spans {s : Shape Node} (hc : c.Ended) (hk : c.peek.kind ≠ .eof)
    (hs : s.isPlain = true) (hn : s.children = []) : Ensures (Spanned c) (jump s c) :=
  .advance hc hk fun ht => .expect ht.after (by decide) fun he => .pure
    ((ht.first.token he).close hs hn)

theorem labelled_spans (hc : c.Ended) (hk : c.peek.kind ≠ .eof) :
    Ensures (Spanned c) (labelled deep c) :=
  .advance hc hk fun ht => .expect ht.after (by decide) fun hq =>
    .bind (hd.statement.run hq.after) fun hn => .pure
      (((ht.first.token hq).node hn).close rfl rfl)

theorem statement_spans : Reads (statement deep) Spans := by
  refine .of_run fun {c} hc => .peekKind fun k hk => ?_
  split
  case h_1 =>
    refine .ahead ?_
    split
    · exact labelled_spans hd hc (by simp [hk])
    · exact (expressionStatement_spans hd).run hc
  case h_2 =>
    refine .advance hc (by simp [hk]) fun ht => .bind ((conditional_spans hd).run ht.after)
      fun hn => ?_
    refine .expect hn.after (by decide) fun hq => .bind (hd.statement.run hq.after)
      fun hb => .pure ?_
    exact (((ht.first.node hn).token hq).node hb).close rfl rfl
  case h_3 =>
    refine .advance hc (by simp [hk]) fun ht => .expect ht.after (by decide) fun hq => ?_
    refine .bind (hd.statement.run hq.after) fun hb => .pure ?_
    exact ((ht.first.token hq).node hb).close rfl rfl
  case h_4 => exact (compound_spans hd).run hc
  case h_5 => exact .ahead (ifStatementUpTo_spans hd _ hc hk)
  case h_6 =>
    refine .advance hc (by simp [hk]) fun ht => .bind (condition_spans hd ht.after) ?_
    rintro e c₁ ⟨l, c₂, r, c₃, hl, hn, hr⟩
    refine .bind (hd.statement.run hr.after) fun hb => .pure ?_
    exact ((((ht.first.token hl).node hn).token hr).node hb).close rfl rfl
  case h_7 =>
    refine .advance hc (by simp [hk]) fun ht => .bind (condition_spans hd ht.after) ?_
    rintro e c₁ ⟨l, c₂, r, c₃, hl, hn, hr⟩
    refine .bind (hd.statement.run hr.after) fun hb => .pure ?_
    exact ((((ht.first.token hl).node hn).token hr).node hb).close rfl rfl
  case h_8 =>
    refine .advance hc (by simp [hk]) fun ht => .bind (hd.statement.run ht.after) fun hb => ?_
    refine .expect hb.after (by decide) fun hw => .bind (condition_spans hd hw.after) ?_
    rintro e c₁ ⟨l, c₂, r, c₃, hl, hn, hr⟩
    refine .expect hr.after (by decide) fun he => .pure ?_
    have body := ((ht.first.node hb).token hw).token hl
    exact (((body.node hn).token hr).token he).close rfl rfl
  case h_9 => exact forStatement_spans hd hc hk
  case h_10 =>
    refine .advance hc (by simp [hk]) fun ht => .expect ht.after (by decide) fun hn => ?_
    refine .expect hn.after (by decide) fun he => .pure ?_
    exact ((ht.first.token hn).token he).close rfl rfl
  case h_11 => exact jump_spans hc (by simp [hk]) rfl rfl
  case h_12 => exact jump_spans hc (by simp [hk]) rfl rfl
  case h_13 =>
    refine .advance hc (by simp [hk]) fun ht => .absent (expression_spans hd) ht.after fun ho => ?_
    refine .expect ho.after (by decide) fun he => .pure ?_
    exact (ht.first.enclosed ho.optional he).close rfl rfl
  case h_14 => exact (expressionStatement_spans hd).run hc

theorem functionDefinition_spans {o : Option Node} (ho : Between Spans? b o c) :
    Ensures (Spanned b) (functionDefinition deep o c) := by
  have step : Reads (do if ← check .lBrace then return none else return some (← declaration deep))
      (StepReads Spans) := by
    refine .of_run fun hc => .check ?_
    split
    · exact .pure (.refl hc rfl)
    · exact .bind ((declaration_spans hd).run hc) fun hn => .pure (hn.mono id)
  refine .bind (hd.declarator.run ho.after) fun hn => ?_
  split
  · have decls := many_reads (P := Parts Spans) step .nil fun hx hs => .node hx hs
    refine .bind (decls.run hn.after) fun hs => ?_
    refine .bind ((compound_spans hd).run hs.after) fun hb => .pure ?_
    obtain ⟨hb', xs, p, hx⟩ := ho
    obtain ⟨-, ys, q, hy⟩ := hn
    obtain ⟨-, zs, u, hz⟩ := hs
    obtain ⟨-, ws, v, hw⟩ := hb
    exact ⟨hb', _, ((p.trans q).trans u).trans v, .definition hx hy hz hw⟩
  · exact .fail _

theorem externalDeclaration_spans : Reads (externalDeclaration deep) Spans := by
  refine .either (.either (.of_run fun hc => ?_) (declaration_spans hd)) (.of_run fun hc => ?_)
  · refine .bind ((declSpecs_spans hd).run hc) fun {s _} hs => ?_
    exact functionDefinition_spans hd (o := some s) (hs.mono id)
  · exact functionDefinition_spans hd (.refl hc rfl)

/-- The root goes over its declarations, or it stands at the end marker when there are none. -/
theorem sourceFile_spans (hc : c.Ended) : Ensures
    (fun n d => ∃ ns, Between Row c ns d ∧ n = ⟨Node.spanOf ns d.peek.span, .root ns⟩)
    (sourceFile deep c) := by
  have step : Reads (do
      if ← atEnd then return none else return some (← externalDeclaration deep))
      (StepReads Spans) := by
    refine .of_run fun hc => .atEnd ?_
    split
    · exact .pure (.refl hc rfl)
    · exact .bind ((externalDeclaration_spans hd).run hc) fun hn => .pure (hn.mono id)
  refine .bind ((many_reads (P := Row) step .nil Row.cons).run hc) fun {ns d} hs => ?_
  rw [bind_of_ok (peek_apply d)]
  exact .pure ⟨ns, hs, rfl⟩

end Grammar

namespace Nested.Covering

theorem refused (limit : Nat) : (Nested.refused limit).Covering := by
  have refuse : Reads (Nested.refused limit).operand Spans := fun _ _ _ _ h => by cases h
  have struct : ∀ {c}, c.Ended → c.peek.kind.is .structOrUnion = true →
      Ensures (Spanned c) ((Nested.refused limit).struct c) := fun _ _ _ _ h => by cases h
  exact ⟨refuse, refuse, refuse, struct, refuse, refuse, refuse, refuse⟩

theorem around (hd : deep.Covering) : deep.around.Covering where
  operand := Grammar.operand_spans hd
  expression := Grammar.expression_spans hd
  conditional := Grammar.conditional_spans hd
  struct := Grammar.structSpecifier_spans hd
  initializer := Grammar.initializer_spans hd
  declarator := Grammar.declarator_spans hd
  abstractDeclarator := Grammar.abstractDeclarator_spans hd
  statement := Grammar.statement_spans hd

theorem levels (limit n : Nat) : (Nested.levels limit n).Covering := by
  induction n with
  | zero => exact refused limit
  | succ n ih => exact ih.around

end Nested.Covering

/-- The tree of a token stream is a root over declarations that cover its tokens. -/
theorem TokenStream.row_of_parse {s : TokenStream} {limit : Nat} {n : Node}
    (h : s.parse limit = .ok n) : ∃ ns, Row s.tokens ns ∧
      n = ⟨Node.spanOf ns (Token.eof s.finish).span, .root ns⟩ := by
  rw [TokenStream.parse] at h
  cases hr : Grammar.sourceFile (.levels limit limit) ⟨s.tokens, Token.eof s.finish⟩ with
  | error e => rw [hr] at h; cases h
  | ok r =>
    rw [hr] at h
    cases h
    obtain ⟨-, -, -, -, hend⟩ :=
      Grammar.sourceFile_reads (c := ⟨s.tokens, .eof s.finish⟩) (.levels limit limit) rfl hr
    obtain ⟨ns, ⟨-, xs, p, hs⟩, hn⟩ :=
      Grammar.sourceFile_spans (c := ⟨s.tokens, .eof s.finish⟩) (.levels limit limit) rfl hr
    have ahead : s.tokens = xs ++ r.2.ahead := p.ahead
    rw [hend, List.append_nil] at ahead
    have peek : r.2.peek = .eof s.finish := by rw [Cursor.peek, hend, p.finish]; rfl
    exact ⟨ns, ahead ▸ hs, peek ▸ hn⟩

end CPretty
