import CPretty.Proofs.Grammar.Alike.Declaration

namespace CPretty.Likeness

open Parse Grammar

variable {L : Likeness} {deep deep' : Nested} {c c' : Cursor}

theorem expressionStatement_alike (h : L.Nesteds deep deep') :
    L.Alike L.Nodes (expressionStatement deep) (expressionStatement deep') := by
  intro c c' hc
  refine .before (expression_alike h) hc fun ho hd => .expect hd fun ht _ hd => .pure ?_ hd
  refine .between (Nodes.spanOr ho (L.span_eq ht)) (L.span_eq ht) ?_
  simp [Shape.map, Nodes.option ho]

theorem declarationOr_alike (h : L.Nesteds deep deep') {p p' : Parse Node}
    (hp : L.Alike L.Nodes p p') :
    L.Alike L.Nodes (declarationOr deep p) (declarationOr deep' p') := by
  intro c c' hc
  refine .ahead ?_
  rw [startsDeclaration_eq hc.ahead]
  split
  · exact Alike.either (declaration_alike h) hp hc
  · exact hp hc

theorem compound_alike (h : L.Nesteds deep deep') :
    L.Alike L.Nodes (compound deep) (compound deep') := by
  intro c c' hc
  refine .expect hc fun ht _ hd => ?_
  refine .bind (Alike.manyUntil (declarationOr_alike h h.statement) .rBrace hd) fun hns hd => ?_
  refine .expect hd fun ht' _ hd => .pure (.between (L.span_eq ht) (L.span_eq ht') ?_) hd
  simp [Shape.map, Nodes.nonempty? hns]

theorem ifStatementUpTo_alike (h : L.Nesteds deep deep') (n : Nat) :
    L.Alike L.Nodes (ifStatementUpTo deep n) (ifStatementUpTo deep' n) := by
  induction n with
  | zero => exact h.statement
  | succ n ih =>
    intro c c' hc
    refine .advance hc fun {t t' _ _} ht _ hd => ?_
    refine .bind (condition_alike h hd) fun {cond cond' _ _} hn hd => ?_
    refine .bind (h.statement hd) fun {yes yes' _ _} hy hd => ?_
    have whole {no no' : Option Node} (ho : Option.Rel L.Nodes no no') : L.Nodes
        (Node.between t.span (Node.spanOr no yes.span) (.ifStmt cond yes no))
        (Node.between t'.span (Node.spanOr no' yes'.span) (.ifStmt cond' yes' no')) :=
      .between (L.span_eq ht) (Nodes.spanOr ho hy.span)
        (by simp [Shape.map, hn, hy, Nodes.option ho])
    refine .eat hd (fun hd => .check hd ?_) (.pure (whole .none) hd)
    split
    · exact .bind (.map (ih hd) fun hz => .some hz) fun ho hd => .pure (whole ho) hd
    · exact .bind (.map (h.statement hd) fun hz => .some hz) fun ho hd => .pure (whole ho) hd

theorem forStatement_alike (h : L.Nesteds deep deep') :
    L.Alike L.Nodes (forStatement deep) (forStatement deep') := by
  intro c c' hc
  refine .advance hc fun ht _ hd => .expect hd fun _ _ hd => ?_
  refine .bind (declarationOr_alike h (expressionStatement_alike h) hd) fun hi hd => ?_
  refine .bind (expressionStatement_alike h hd) fun hn hd => ?_
  refine .before (expression_alike h) hd fun ho hd => .expect hd fun _ _ hd => ?_
  refine .bind (h.statement hd) fun hb hd => .pure (.between (L.span_eq ht) hb.span ?_) hd
  simp [Shape.map, hi, hn, Nodes.option ho, hb]

theorem jump_alike {s : Shape Node}
    (hs : ∀ f : Span → Span, s.map (Node.respan f) = s) :
    L.Alike L.Nodes (jump s) (jump s) := by
  intro c c' hc
  refine .advance hc fun ht _ hd => .expect hd fun ht' _ hd => .pure ?_ hd
  exact .between (L.span_eq ht) (L.span_eq ht') (by rw [hs, hs])

theorem labelled_alike (h : L.Nesteds deep deep') (hk : c.peek.kind = .ident)
    (hc : L.Cursors c c') : L.Outcome L.Nodes (labelled deep c) (labelled deep' c') := by
  refine .advance hc fun ht hk' hd => .expect hd fun _ _ hd => ?_
  refine .bind (h.statement hd) fun hn hd => .pure (.between (L.span_eq ht) hn.span ?_) hd
  simp [Shape.map, hn, L.text_eq ht (by rw [hk', hk]; decide)]

theorem statement_alike (h : L.Nesteds deep deep') :
    L.Alike L.Nodes (statement deep) (statement deep') := by
  intro c c' hc
  refine .peekKind hc fun k hk => ?_
  split
  · refine .ahead ?_
    rw [getElem?_any hc.ahead (· == .colon) 1]
    split
    · exact labelled_alike h hk hc
    · exact expressionStatement_alike h hc
  · refine .advance hc fun ht _ hd => .bind (conditional_alike h hd) fun hn hd => ?_
    refine .expect hd fun _ _ hd => .bind (h.statement hd) fun hb hd => .pure ?_ hd
    exact .between (L.span_eq ht) hb.span (by simp [Shape.map, hn, hb])
  · refine .advance hc fun ht _ hd => .expect hd fun _ _ hd => ?_
    refine .bind (h.statement hd) fun hb hd => .pure (.between (L.span_eq ht) hb.span ?_) hd
    simp [Shape.map, hb]
  · exact compound_alike h hc
  · refine .ahead ?_
    rw [← hc.length]
    exact ifStatementUpTo_alike h _ hc
  · refine .advance hc fun ht _ hd => .bind (condition_alike h hd) fun hn hd => ?_
    refine .bind (h.statement hd) fun hb hd => .pure (.between (L.span_eq ht) hb.span ?_) hd
    simp [Shape.map, hn, hb]
  · refine .advance hc fun ht _ hd => .bind (condition_alike h hd) fun hn hd => ?_
    refine .bind (h.statement hd) fun hb hd => .pure (.between (L.span_eq ht) hb.span ?_) hd
    simp [Shape.map, hn, hb]
  · refine .advance hc fun ht _ hd => .bind (h.statement hd) fun hb hd => ?_
    refine .expect hd fun _ _ hd => .bind (condition_alike h hd) fun hn hd => ?_
    refine .expect hd fun ht' _ hd => .pure (.between (L.span_eq ht) (L.span_eq ht') ?_) hd
    simp [Shape.map, hn, hb]
  · exact forStatement_alike h hc
  · refine .advance hc fun ht _ hd => .expect hd fun hl hk' hd => .expect hd fun ht' _ hd => ?_
    refine .pure (.between (L.span_eq ht) (L.span_eq ht') ?_) hd
    simp [Shape.map, L.text_eq hl (by rw [hk']; decide)]
  · exact jump_alike (fun _ => rfl) hc
  · exact jump_alike (fun _ => rfl) hc
  · refine .advance hc fun ht _ hd => .before (expression_alike h) hd fun ho hd => ?_
    refine .expect hd fun ht' _ hd => .pure (.between (L.span_eq ht) (L.span_eq ht') ?_) hd
    simp [Shape.map, Nodes.option ho]
  · exact expressionStatement_alike h hc

theorem Nesteds.around (h : L.Nesteds deep deep') : L.Nesteds deep.around deep'.around where
  operand := operand_alike h
  expression := expression_alike h
  conditional := conditional_alike h
  struct _ _ hc hk := structSpecifier_alike h hc hk
  initializer := initializer_alike h
  declarator := declarator_alike h
  abstractDeclarator := abstractDeclarator_alike h
  statement := statement_alike h

theorem Nesteds.levels {l l' k : Nat} (h : L.Nesteds (.refused l) (.levels l' k)) (n : Nat) :
    L.Nesteds (.levels l n) (.levels l' (n + k)) := by
  induction n with
  | zero => rwa [Nat.zero_add]
  | succ n ih =>
    rw [Nat.add_right_comm]
    exact ih.around

theorem Nesteds.refused (l : Nat) : L.Nesteds (.refused l) (.levels l 0) := by
  have refuse : L.Alike L.Nodes (do throw ((← get).excess l)) (do throw ((← get).excess l)) :=
    fun c c' hc => .error (hc.excess l)
  exact ⟨refuse, refuse, refuse, fun _ _ hc _ => refuse hc, refuse, refuse, refuse, refuse⟩

theorem Nesteds.of_limit {l : Nat} (hl : L.limit? = some l) (deep : Nested) :
    L.Nesteds (.refused l) deep := by
  have refuse (p : Parse Node) : L.Alike L.Nodes (do throw ((← get).excess l)) p :=
    fun c c' hc => .excess hl rfl
  exact ⟨refuse _, refuse _, refuse _, fun _ _ hc _ => refuse _ hc, refuse _, refuse _, refuse _,
    refuse _⟩

/-- Tokens of one source, read twice with a lower limit the first time. -/
def lower (l : Nat) : Likeness where
  token := Eq
  left := id
  right := id
  limit? := some l
  kind_eq := congrArg Token.kind
  text_eq h _ := congrArg Token.text h
  span_eq := congrArg Token.span
  left_through := Span.id_through
  right_through := Span.id_through

theorem lower_nodes {l : Nat} {n n' : Node} : (lower l).Nodes n n' ↔ n = n' := by
  rw [Nodes, lower, Node.respan_id, Node.respan_id]

theorem lower_levels (l l' k m : Nat) :
    (lower l).Nesteds (.levels l k) (.levels l' (k + m)) :=
  (Nesteds.of_limit rfl (.levels l' m)).levels k

theorem Alike.raise {α : Type} {l : Nat} {V : α → α → Prop} {p p' : Parse α} {a : α} {c d : Cursor}
    (h : (lower l).Alike V p p') (hV : ∀ a a', V a a' → a = a') (hr : p c = .ok (a, d)) :
    p' c = .ok (a, d) := by
  have same : (lower l).Cursors c c := ⟨List.forall₂_eq_eq_eq ▸ rfl, rfl⟩
  have out := h same
  rw [hr] at out
  generalize p' c = r at out
  cases out with
  | @ok _ a' _ d' hv hd =>
    have ahead : d.ahead = d'.ahead := List.forall₂_eq_eq_eq ▸ hd.ahead
    rw [hV _ _ hv, show d = d' from congr (congrArg Cursor.mk ahead) hd.finish]

theorem Alike.raise_node {l : Nat} {p p' : Parse Node} {n : Node} {c d : Cursor}
    (h : (lower l).Alike (lower l).Nodes p p') (hr : p c = .ok (n, d)) : p' c = .ok (n, d) :=
  h.raise (fun _ _ => lower_nodes.mp) hr

theorem header_respan {n n' : Node} (hn : L.Nodes n n') :
    Prod.map (Node.respan L.left) (Option.map (List.map (Node.respan L.left)))
        (n.detachParams?.getD (n, none)) =
      Prod.map (Node.respan L.right) (Option.map (List.map (Node.respan L.right)))
        (n'.detachParams?.getD (n', none)) := by
  have hp := congrArg Node.detachParams? hn
  rw [Node.detachParams?_respan L.left_through, Node.detachParams?_respan L.right_through] at hp
  rw [← Option.getD_map (Prod.map _ _), ← Option.getD_map (Prod.map _ _), hp, Prod.map_apply,
    Prod.map_apply, hn]
  rfl

theorem functionDefinition_alike (h : L.Nesteds deep deep') {o o' : Option Node}
    (ho : Option.Rel L.Nodes o o') :
    L.Alike L.Nodes (functionDefinition deep o) (functionDefinition deep' o') := by
  have step : L.Alike (Option.Rel L.Nodes)
      (do if ← check .lBrace then return none else return some (← declaration deep))
      (do if ← check .lBrace then return none else return some (← declaration deep')) := by
    intro c c' hc
    refine .check hc ?_
    split
    · exact .pure .none hc
    · exact .bind (declaration_alike h hc) fun hn hd => .pure (.some hn) hd
  intro c c' hc
  refine .bind (h.declarator hc) fun {n n' _ _} hn hd => ?_
  have hf : n.declaresFunction = n'.declaresFunction := by
    rw [← Node.declaresFunction_respan (f := L.left), hn, Node.declaresFunction_respan]
  have hp := header_respan hn
  rw [hf]
  split
  · refine .bind (Alike.many step hd) fun hds hd => .bind (compound_alike h hd) fun hb hd => ?_
    generalize n.detachParams?.getD (n, none) = r, n'.detachParams?.getD (n', none) = r' at hp
    obtain ⟨name, params⟩ := r
    obtain ⟨name', params'⟩ := r'
    obtain ⟨hm, hps⟩ := Prod.mk.injEq .. ▸ hp
    refine .pure (.between (Nodes.spanOr ho (Nodes.span hm)) hb.span ?_) hd
    simp_all [Shape.map, Nodes.option ho, Nodes.list hds]
  · exact .fail hd _

theorem externalDeclaration_alike (h : L.Nesteds deep deep') :
    L.Alike L.Nodes (externalDeclaration deep) (externalDeclaration deep') := by
  refine .either (.either (fun c c' hc => ?_) (declaration_alike h)) ?_
  · exact .bind (declSpecs_alike h hc) fun hn hd => functionDefinition_alike h (.some hn) hd
  · exact functionDefinition_alike h .none

theorem sourceFile_alike (h : L.Nesteds deep deep') :
    L.Alike L.Nodes (sourceFile deep) (sourceFile deep') := by
  have step : L.Alike (Option.Rel L.Nodes)
      (do if ← atEnd then return none else return some (← externalDeclaration deep))
      (do if ← atEnd then return none else return some (← externalDeclaration deep')) := by
    intro c c' hc
    refine .atEnd hc ?_
    split
    · exact .pure .none hc
    · exact .bind (externalDeclaration_alike h hc) fun hn hd => .pure (.some hn) hd
  intro c c' hc
  refine .bind (Alike.many step hc) fun hns hd => .ok ?_ hd
  rw [Nodes, Node.respan_mk, Node.respan_mk, Shape.map, Shape.map, Nodes.list hns,
    Nodes.spanOf hns fun _ => L.span_eq hd.peek]

/-- Trees that agree, the same error at corresponding tokens, or an excess of nesting in the first
source alone. -/
theorem parse_alike {s s' : TokenStream} {l l' : Nat}
    (h : L.Nesteds (.levels l l) (.levels l' l'))
    (ht : List.Forall₂ L.token s.tokens s'.tokens)
    (hf : L.token (Token.eof s.finish) (Token.eof s'.finish)) :
    (∃ n n', s.parse l = .ok n ∧ s'.parse l' = .ok n' ∧ L.Nodes n n') ∨
      (∃ e e', s.parse l = .error e ∧ s'.parse l' = .error e' ∧ L.Errors e e') ∨
      ∃ e lim, s.parse l = .error e ∧ L.limit? = some lim ∧ e.fault = .tooDeep lim := by
  have hc : L.Cursors ⟨s.tokens, Token.eof s.finish⟩ ⟨s'.tokens, Token.eof s'.finish⟩ := ⟨ht, hf⟩
  have out := sourceFile_alike h hc
  rw [TokenStream.parse, TokenStream.parse]
  generalize sourceFile (.levels l l) _ = r, sourceFile (.levels l' l') _ = r' at out
  cases out with
  | ok hn _ => exact .inl ⟨_, _, rfl, rfl, hn⟩
  | error he => exact .inr (.inl ⟨_, _, rfl, rfl, he⟩)
  | excess hl he => exact .inr (.inr ⟨_, _, rfl, hl, he⟩)

end CPretty.Likeness
