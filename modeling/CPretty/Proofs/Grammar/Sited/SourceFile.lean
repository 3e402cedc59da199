import CPretty.Proofs.Grammar.Sited.Declaration

namespace CPretty

open Parse Grammar

variable {s c d : Cursor} {limit n : Nat} {deep : Nested}

namespace Grammar

theorem expressionStatement_steady (h : deep.AllSteady s limit) :
    Steady s limit (expressionStatement deep) :=
  fun _ _ hc => .before (expression_steady h) hc fun hd =>
    .expect hd (by decide) fun hd => .pure hd

theorem declarationOr_steady (h : deep.AllSteady s limit) {otherwise : Parse Node}
    (ho : Steady s limit otherwise) : Steady s limit (declarationOr deep otherwise) := by
  intro n c hc
  refine .ahead ?_
  split
  · exact .either (declaration_steady h hc) (ho hc)
  · exact ho hc

theorem compound_steady (h : deep.AllSteady s limit) : Steady s limit (compound deep) := by
  intro n c hc
  refine .expect hc (by decide) fun hd => ?_
  refine .bind (Steady.manyUntil (declarationOr_steady h h.statement) _ hd) fun hd => ?_
  exact .expect hd (by decide) fun hd => .pure hd

theorem ifStatementUpTo_lands (h : deep.AllSteady s limit) (m : Nat) (hc : s.Clear n c)
    (hk : c.peek.kind = .kwIf) :
    Lands s limit (fun _ d => s.Clear n d) (ifStatementUpTo deep m c) := by
  induction m generalizing c with
  | zero => exact h.statement hc
  | succ m ih =>
    refine .advance hc (hk ▸ by decide) fun hd => .bind (condition_steady h hd) fun hd => ?_
    refine .bind (h.statement hd) fun hd => .eat hd (by decide) (fun hd => ?_) fun _ => .pure hd
    refine .check ?_
    split
    next hi => exact .bind_map (ih hd.widen (eq_of_beq hi)) fun hd => .pure hd
    next => exact .bind_map (h.statement hd.widen) fun hd => .pure hd

theorem forStatement_lands (h : deep.AllSteady s limit) (hc : s.Clear n c)
    (hk : c.peek.kind = .kwFor) :
    Lands s limit (fun _ d => s.Clear n d) (forStatement deep c) := by
  have he := expressionStatement_steady h
  refine .advance hc (hk ▸ by decide) fun hd => .expect hd (by decide) fun hd => ?_
  refine .bind (declarationOr_steady h he hd) fun hd => .bind (he hd) fun hd => ?_
  refine .before (expression_steady h) hd fun hd => .expect hd (by decide) fun hd => ?_
  exact .bind (h.statement hd) fun hd => .pure hd

theorem jump_lands (hc : s.Clear n c) (hk : c.peek.kind.Common) (shape : Shape Node) :
    Lands s limit (fun _ d => s.Clear n d) (jump shape c) :=
  .advance hc hk fun hd => .expect hd (by decide) fun hd => .pure hd

theorem labelled_lands (h : deep.AllSteady s limit) (hc : s.Clear n c)
    (hk : c.peek.kind = .ident) : Lands s limit (fun _ d => s.Clear n d) (labelled deep c) :=
  .advance hc (hk ▸ by decide) fun hd => .expect hd (by decide) fun hd =>
    .bind (h.statement hd) fun hd => .pure hd

theorem statement_steady (h : deep.AllSteady s limit) : Steady s limit (statement deep) := by
  intro n c hc
  refine .peekKind fun k hk => ?_
  split
  case h_1 =>
    refine .ahead ?_
    split
    · exact labelled_lands h hc hk
    · exact expressionStatement_steady h hc
  case h_2 =>
    refine .advance hc (hk ▸ by decide) fun hd => .bind (conditional_steady h hd) fun hd => ?_
    exact .expect hd (by decide) fun hd => .bind (h.statement hd) fun hd => .pure hd
  case h_3 =>
    refine .advance hc (hk ▸ by decide) fun hd => .expect hd (by decide) fun hd => ?_
    exact .bind (h.statement hd) fun hd => .pure hd
  case h_4 => exact compound_steady h hc
  case h_5 => exact .ahead (ifStatementUpTo_lands h _ hc hk)
  case h_6 =>
    refine .advance hc (hk ▸ by decide) fun hd => .bind (condition_steady h hd) fun hd => ?_
    exact .bind (h.statement hd) fun hd => .pure hd
  case h_7 =>
    refine .advance hc (hk ▸ by decide) fun hd => .bind (condition_steady h hd) fun hd => ?_
    exact .bind (h.statement hd) fun hd => .pure hd
  case h_8 =>
    refine .advance hc (hk ▸ by decide) fun hd => .bind (h.statement hd) fun hd => ?_
    refine .expect hd (by decide) fun hd => .bind (condition_steady h hd) fun hd => ?_
    exact .expect hd (by decide) fun hd => .pure hd
  case h_9 => exact forStatement_lands h hc hk
  case h_10 =>
    refine .advance hc (hk ▸ by decide) fun hd => .expect hd (by decide) fun hd => ?_
    exact .expect hd (by decide) fun hd => .pure hd
  case h_11 => exact jump_lands hc (hk ▸ by decide) _
  case h_12 => exact jump_lands hc (hk ▸ by decide) _
  case h_13 =>
    refine .advance hc (hk ▸ by decide) fun hd => .before (expression_steady h) hd fun hd => ?_
    exact .expect hd (by decide) fun hd => .pure hd
  case h_14 => exact expressionStatement_steady h hc

theorem functionDefinition_steady (h : deep.AllSteady s limit) (specs : Option Node) :
    Steady s limit (functionDefinition deep specs) := by
  intro n c hc
  refine .bind (h.declarator hc) fun {decl d} hd => ?_
  split
  · refine .bind (Steady.many (fun n c hc => ?_) hd.1) fun hd => ?_
    · refine .check ?_
      split
      · exact .pure hc
      · exact .bind (declaration_steady h hc) fun hd => .pure hd
    · exact .bind (compound_steady h hd) fun hd => .pure hd
  · exact .fail hd.1 (by simp) (by simp) (by simp [Expected.accepts, hd.2])

theorem externalDeclaration_steady (h : deep.AllSteady s limit) :
    Steady s limit (externalDeclaration deep) := by
  intro n c hc
  refine .either (.either ?_ (declaration_steady h hc)) (functionDefinition_steady h none hc)
  exact .bind (declSpecs_steady h hc) fun hd => functionDefinition_steady h _ hd

theorem sourceFile_steady (h : deep.AllSteady s limit) : Steady s limit (sourceFile deep) := by
  intro n c hc
  refine .bind (Steady.many (fun n c hc => .atEnd ?_) hc) fun hd => .pure hd
  split
  · exact .pure hc
  · exact .bind (externalDeclaration_steady h hc) fun hd => .pure hd

end Grammar

namespace Nested.AllSteady

theorem refused : (Nested.refused limit).AllSteady s limit := by
  have excess {α : Type} {Q : α → Cursor → Prop} {n : Nat} {c : Cursor} (hc : s.Clear n c) :
      Lands s limit Q ((do throw ((← get).excess limit) : Parse α) c) := by
    obtain ⟨xs, p, -⟩ := hc.passed
    exact .error (.excess p)
  exact ⟨fun _ _ => excess, fun _ _ => excess, fun _ _ => excess, fun _ _ hc _ => excess hc,
    fun _ _ => excess, fun _ _ => excess, fun _ _ => excess, fun _ _ => excess⟩

theorem around (h : deep.AllSteady s limit) : deep.around.AllSteady s limit where
  operand := operand_steady h
  expression := expression_steady h
  conditional := conditional_steady h
  struct _ _ := structSpecifier_lands h
  initializer := initializer_steady h
  declarator _ _ := declarator_lands h
  abstractDeclarator := abstractDeclarator_steady h
  statement := statement_steady h

theorem levels (n : Nat) : (Nested.levels limit n).AllSteady s limit := by
  induction n with
  | zero => exact refused
  | succ n ih => exact ih.around

end Nested.AllSteady

end CPretty
