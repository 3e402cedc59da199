import CPretty.Proofs.Grammar.Alike.Expression

namespace CPretty.Likeness

open Parse Grammar

variable {L : Likeness} {deep deep' : Nested} {c c' : Cursor} {t t' : Token} {n n' : Node}

theorem identNode (ht : L.token t t') (hk : t.kind ∉ Kind.brackets) :
    L.Nodes t.identNode t'.identNode :=
  .leaf ht (by simp [Shape.map, L.text_eq ht hk])

theorem keywordNode (ht : L.token t t') (hk : t.kind ∉ Kind.brackets) :
    L.Nodes t.keywordNode t'.keywordNode :=
  .leaf ht (by simp [Shape.map, L.text_eq ht hk])

theorem enumerator_alike (h : L.Nesteds deep deep') :
    L.Alike L.Nodes (enumerator deep) (enumerator deep') := by
  intro c c' hc
  refine .expect hc fun ht hk hd => .after (conditional_alike h) hd fun ho hd => .pure ?_ hd
  have hx := L.text_eq ht (by rw [hk]; decide)
  refine .between (L.span_eq ht) (Nodes.spanOr ho (L.span_eq ht)) ?_
  simp [Shape.map, hx, Nodes.option ho]

theorem enumSpecifier_alike (h : L.Nesteds deep deep') :
    L.Alike L.Nodes (enumSpecifier deep) (enumSpecifier deep') := by
  intro c c' hc
  refine .advance hc fun ht _ hd => .bind (Alike.eat? hd) fun ho hd => .eat hd (fun hd => ?_) ?_
  · refine .bind (Alike.bracedItems (enumerator_alike h) hd) fun hns hd => ?_
    refine .expect hd fun ht' _ hd => .pure (.between (L.span_eq ht) (L.span_eq ht') ?_) hd
    simp [Shape.map, Taken.texts ho (by decide), Nodes.list hns]
  · cases ho with
    | none => exact .fail hd _
    | some hn =>
      refine .pure (.between (L.span_eq ht) (L.span_eq hn.token) ?_) hd
      simp [Shape.map, hn.text (by decide)]

theorem atomicSpecifier_alike {p p' : Parse Node} (h : L.Alike L.Nodes p p') :
    L.Alike L.Nodes (atomicSpecifier p) (atomicSpecifier p') := by
  intro c c' hc
  refine .advance hc fun ht _ hd => .expect hd fun _ _ hd => .bind (h hd) fun hn hd => ?_
  refine .expect hd fun ht' _ hd => .pure (.between (L.span_eq ht) (L.span_eq ht') ?_) hd
  simp [Shape.map, hn]

def Specs (L : Likeness) (r r' : Node × Bool) : Prop := L.Nodes r.1 r'.1 ∧ r.2 = r'.2

theorem specifier?_alike (h : L.Nesteds deep deep') {p p' : Parse Node}
    (hp : L.Alike L.Nodes p p') (seen : Bool) :
    L.Alike (Option.Rel (Specs L)) (specifier? deep p seen) (specifier? deep' p' seen) := by
  intro c c' hc
  refine .peekKind hc fun k hk => .ahead ?_
  have keyword {b : Bool} (hb : k ∉ Kind.brackets) : L.Outcome (Option.Rel (Specs L))
      ((do return some ((← advance).keywordNode, b)) c)
      ((do return some ((← advance).keywordNode, b)) c') :=
    .advance hc fun ht hk' hd => .pure (.some ⟨keywordNode ht (hk'.trans hk ▸ hb), rfl⟩) hd
  rw [getElem?_any hc.ahead (· == .lParen) 1]
  split
  · exact .bind (atomicSpecifier_alike hp hc) fun hn hd => .pure (.some ⟨hn, rfl⟩) hd
  split
  next hg =>
    simp only [Bool.or_eq_true] at hg
    obtain (hg | hg) | hg := hg <;> exact keyword (Kind.not_mem_brackets hg)
  split
  next hg => exact keyword (Kind.not_mem_brackets hg)
  split
  next hg => exact .bind (h.struct hc (hk ▸ hg)) fun hn hd => .pure (.some ⟨hn, rfl⟩) hd
  split
  · exact .bind (enumSpecifier_alike h hc) fun hn hd => .pure (.some ⟨hn, rfl⟩) hd
  split
  next hg =>
    simp only [Bool.and_eq_true, beq_iff_eq] at hg
    refine .advance hc fun ht hk' hd => .pure (.some ⟨identNode ht ?_, rfl⟩) hd
    rw [hk', hk, hg.1]
    decide
  · exact .pure .none hc

theorem specifierNode_alike {wrap : List Node → Shape Node} {ns ns' : List Node}
    (h : List.Forall₂ L.Nodes ns ns')
    (hw : ∀ f ns, (wrap ns).map (Node.respan f) = wrap (ns.map (Node.respan f))) :
    L.Alike L.Nodes (specifierNode wrap ns) (specifierNode wrap ns') := by
  intro c c' hc
  rw [specifierNode, specifierNode]
  cases h with
  | nil => exact .fail hc _
  | cons hn hns => exact .pure (.collect (.cons hn hns) (List.cons_ne_nil _ _) hw) hc

theorem typeNameOf_alike (h : L.Nesteds deep deep') {ns ns' : List Node}
    (hns : List.Forall₂ L.Nodes ns ns') :
    L.Alike L.Nodes (typeNameOf deep ns) (typeNameOf deep' ns') := by
  intro c c' hc
  refine .bind (specifierNode_alike hns (fun _ _ => rfl) hc) fun hq hd => .peekKind hd
    fun k hk => ?_
  split
  · refine .bind (h.abstractDeclarator hd) fun hn hd => .pure (.between hq.span hn.span ?_) hd
    simp [Shape.map, hq, hn]
  · exact .pure hq hd

theorem specifiersUpTo_alike (h : L.Nesteds deep deep') (n : Nat) (seen : Bool) :
    L.Alike (List.Forall₂ L.Nodes) (specifiersUpTo deep n seen) (specifiersUpTo deep' n seen) := by
  induction n generalizing seen with
  | zero => exact fun c c' hc => .pure .nil hc
  | succ n ih =>
    have name : L.Alike L.Nodes (do typeNameOf deep (← specifiersUpTo deep n false))
        (do typeNameOf deep' (← specifiersUpTo deep' n false)) :=
      fun c c' hc => .bind (ih false hc) fun hns hd => typeNameOf_alike h hns hd
    intro c c' hc
    refine .bind (specifier?_alike h name seen hc) fun ho hd => ?_
    cases ho with
    | none => exact .pure .nil hd
    | @some r r' hr =>
      obtain ⟨n, b⟩ := r
      obtain ⟨n', b'⟩ := r'
      obtain ⟨hn, rfl⟩ := hr
      exact .bind (ih b hd) fun hns hd => .pure (.cons hn hns) hd

theorem specifierList_alike (h : L.Nesteds deep deep') :
    L.Alike (List.Forall₂ L.Nodes) (specifierList deep) (specifierList deep') := by
  intro c c' hc
  refine .ahead ?_
  rw [← hc.length]
  exact specifiersUpTo_alike h _ _ hc

theorem declSpecs_alike (h : L.Nesteds deep deep') :
    L.Alike L.Nodes (declSpecs deep) (declSpecs deep') :=
  fun _ _ hc => .bind (specifierList_alike h hc) fun hns hd =>
    specifierNode_alike hns (fun _ _ => rfl) hd

theorem specQuals_alike (h : L.Nesteds deep deep') :
    L.Alike L.Nodes (specQuals deep) (specQuals deep') :=
  fun _ _ hc => .bind (specifierList_alike h hc) fun hns hd =>
    specifierNode_alike hns (fun _ _ => rfl) hd

theorem typeName_alike (h : L.Nesteds deep deep') :
    L.Alike L.Nodes (typeName deep) (typeName deep') :=
  fun _ _ hc => .bind (specifierList_alike h hc) fun hns hd => typeNameOf_alike h hns hd

theorem primary_alike (h : L.Nesteds deep deep') :
    L.Alike L.Nodes (primary deep) (primary deep') := by
  intro c c' hc
  refine .peekKind hc fun k hk => ?_
  split
  next =>
    exact .advance hc fun ht hk' hd => .pure (identNode ht (by rw [hk', hk]; decide)) hd
  next =>
    refine .advance hc fun ht hk' hd => .pure (.leaf ht ?_) hd
    simp [Shape.map, L.text_eq ht (by rw [hk', hk]; decide)]
  next =>
    refine .bind (Alike.strings hc) fun hr hd => .pure (.between hr.2.1 hr.2.2 ?_) hd
    simp [Shape.map, hr.1]
  next =>
    refine .advance hc fun ht _ hd => .bind (expression_alike h hd) fun hn hd => ?_
    refine .expect hd fun ht' _ hd => .pure (.between (L.span_eq ht) (L.span_eq ht') ?_) hd
    simp [Shape.map, hn]
  next => exact .fail hc _

theorem arguments_alike (h : L.Nesteds deep deep') :
    L.Alike (List.Forall₂ L.Nodes) (arguments deep) (arguments deep') := by
  intro c c' hc
  refine .check hc ?_
  split
  · exact .pure .nil hc
  · refine .bind (Alike.commaList (assignment_alike h) hc) fun hns hd => .check hd ?_
    split
    · exact .pure hns.1 hd
    · exact .fail hd _

theorem access?_alike (h : L.Nesteds deep deep') (hn : L.Nodes n n') :
    L.Alike (Option.Rel L.Nodes) (access? deep n) (access? deep' n') := by
  intro c c' hc
  refine .peekKind hc fun k hk => ?_
  have member {d d' : Cursor} (hd : L.Cursors d d') (hk : d.peek.kind ∉ Kind.brackets) :
      L.Outcome (Option.Rel L.Nodes) ((do
        let op ← advance
        let name ← expect .ident
        return some (Node.between n.span name.span (.field n op.text name.text))) d) ((do
        let op ← advance
        let name ← expect .ident
        return some (Node.between n'.span name.span (.field n' op.text name.text))) d') := by
    refine .advance hd fun ht hk' hd => .expect hd fun ht' hk'' hd => .pure (.some ?_) hd
    refine .between hn.span (L.span_eq ht') ?_
    simp [Shape.map, hn, L.text_eq ht (hk' ▸ hk), L.text_eq ht' (by rw [hk'']; decide)]
  have count {d d' : Cursor} (hd : L.Cursors d d') (hk : d.peek.kind ∉ Kind.brackets) :
      L.Outcome (Option.Rel L.Nodes) ((do
        let op ← advance
        return some (Node.between n.span op.span (.postUnary n op.text))) d) ((do
        let op ← advance
        return some (Node.between n'.span op.span (.postUnary n' op.text))) d') := by
    refine .advance hd fun ht hk' hd => .pure (.some (.between hn.span (L.span_eq ht) ?_)) hd
    simp [Shape.map, hn, L.text_eq ht (hk' ▸ hk)]
  split
  next =>
    refine .advance hc fun _ _ hd => .bind (expression_alike h hd) fun hm hd => ?_
    refine .expect hd fun ht _ hd => .pure (.some (.between hn.span (L.span_eq ht) ?_)) hd
    simp [Shape.map, hn, hm]
  next =>
    refine .advance hc fun _ _ hd => .bind (arguments_alike h hd) fun hns hd => ?_
    refine .expect hd fun ht _ hd => .pure (.some (.between hn.span (L.span_eq ht) ?_)) hd
    simp [Shape.map, hn, Nodes.nonempty? hns]
  next => exact member hc (by rw [hk]; decide)
  next => exact member hc (by rw [hk]; decide)
  next => exact count hc (by rw [hk]; decide)
  next => exact count hc (by rw [hk]; decide)
  next => exact .pure .none hc

theorem postfixed_alike (h : L.Nesteds deep deep') :
    L.Alike L.Nodes (postfixed deep) (postfixed deep') :=
  fun _ _ hc => .bind (primary_alike h hc) fun hn hd =>
    Alike.iterate (fun hn => access?_alike h hn) hn hd

theorem sizeofType_alike (h : L.Nesteds deep deep') (hk : c.peek.kind = .kwSizeof)
    (hc : L.Cursors c c') : L.Outcome L.Nodes (sizeofType deep c) (sizeofType deep' c') := by
  refine .advance hc fun ht hk' hd => .expect hd fun _ _ hd => ?_
  refine .bind (typeName_alike h hd) fun hn hd => .expect hd fun ht' _ hd => .pure ?_ hd
  refine .between (L.span_eq ht) (L.span_eq ht') ?_
  simp [Shape.map, hn, L.text_eq ht (by rw [hk', hk]; decide)]

theorem prefixed_node (ht : L.token t t') (hk : t.kind ∉ Kind.brackets) (hn : L.Nodes n n') :
    L.Nodes (.prefixed t n) (.prefixed t' n') :=
  .between (L.span_eq ht) hn.span (by simp [Shape.map, hn, L.text_eq ht hk])

theorem unaryBody_alike (h : L.Nesteds deep deep') :
    L.Alike L.Nodes (unaryBody deep) (unaryBody deep') := by
  intro c c' hc
  refine .peekKind hc fun k hk => ?_
  split
  next hg => exact sizeofType_alike h (hk.trans (eq_of_beq hg)) hc
  split
  next hg =>
    refine .advance hc fun ht hk' hd => .bind (h.operand hd) fun hn hd => .pure ?_ hd
    exact prefixed_node ht (hk'.trans hk ▸ Kind.not_mem_brackets hg) hn
  · exact postfixed_alike h hc

theorem prefixOperator?_alike :
    L.Alike (Option.Rel fun t t' => L.token t t' ∧ t.kind ∉ Kind.brackets) prefixOperator?
      prefixOperator? := by
  intro c c' hc
  refine .peekKind hc fun k hk => .ahead ?_
  rw [startsSizeofType_eq hc.ahead]
  split
  next hg =>
    refine .advance hc fun ht hk' hd => .pure (.some ⟨ht, ?_⟩) hd
    simp only [Bool.or_eq_true, Bool.and_eq_true, beq_iff_eq] at hg
    rw [hk', hk]
    obtain hg | ⟨rfl, -⟩ := hg
    · exact Kind.not_mem_brackets hg
    · decide
  next => exact .pure .none hc

theorem unary_alike (h : L.Nesteds deep deep') : L.Alike L.Nodes (unary deep) (unary deep') := by
  intro c c' hc
  refine .bind (Alike.many prefixOperator?_alike hc) fun hops hd => ?_
  refine .bind (unaryBody_alike h hd) fun hn hd => .pure ?_ hd
  induction hops with
  | nil => exact hn
  | cons ht _ ih => exact prefixed_node ht.1 ht.2 ih

theorem castPrefix?_alike (h : L.Nesteds deep deep') :
    L.Alike (Option.Rel fun r r' => L.token r.1 r'.1 ∧ L.Nodes r.2 r'.2) (castPrefix? deep)
      (castPrefix? deep') := by
  intro c c' hc
  refine .check hc (.ahead ?_)
  rw [startsTypeName_eq hc.tail]
  split
  · refine .advance hc fun ht _ hd => .bind (typeName_alike h hd) fun hn hd => ?_
    exact .expect hd fun _ _ hd => .pure (.some ⟨ht, hn⟩) hd
  · exact .pure .none hc

theorem operand_alike (h : L.Nesteds deep deep') :
    L.Alike L.Nodes (operand deep) (operand deep') := by
  intro c c' hc
  refine .bind (Alike.many (castPrefix?_alike h) hc) fun hcs hd => ?_
  refine .bind (unary_alike h hd) fun hn hd => .pure ?_ hd
  induction hcs with
  | nil => exact hn
  | cons hr _ ih =>
    refine .between (L.span_eq hr.1) ih.span ?_
    simp [Shape.map, hr.2, ih]

theorem qualifier?_alike : L.Alike (Option.Rel L.Nodes) qualifier? qualifier? := by
  intro c c' hc
  refine .peekKind hc fun k hk => ?_
  split
  next hg =>
    refine .advance hc fun ht hk' hd => .pure (.some (keywordNode ht ?_)) hd
    exact hk'.trans hk ▸ Kind.not_mem_brackets hg
  next => exact .pure .none hc

def Levels (L : Likeness) (r r' : Token × List Node) : Prop :=
  L.token r.1 r'.1 ∧ List.Forall₂ L.Nodes r.2 r'.2

theorem pointerLevel?_alike : L.Alike (Option.Rel (Levels L)) pointerLevel? pointerLevel? := by
  intro c c' hc
  refine .eat? hc (fun ht _ hd => ?_) (.pure .none hc)
  exact .bind (Alike.many qualifier?_alike hd) fun hns hd => .pure (.some ⟨ht, hns⟩) hd

theorem pointer_node {r r' : Token × List Node} {o o' : Option Node} (hr : Levels L r r')
    (ho : Option.Rel L.Nodes o o') :
    L.Nodes (.pointer r.1 r.2 o) (.pointer r'.1 r'.2 o') := by
  refine .between (L.span_eq hr.1) (Nodes.spanOr ?_ (L.span_eq hr.1)) ?_
  · cases ho with
    | none => exact forall₂_getLast? hr.2
    | some hn => exact .some hn
  · simp [Shape.map, Nodes.list hr.2, Nodes.option ho]

theorem parameterEnd_alike : L.Alike (fun _ _ => True) parameterEnd parameterEnd := by
  intro c c' hc
  refine .check hc (.check hc ?_)
  split
  · exact .pure trivial hc
  · exact .fail hc _

theorem parameterDeclarator_alike (h : L.Nesteds deep deep') :
    L.Alike (Option.Rel L.Nodes) (parameterDeclarator deep) (parameterDeclarator deep') := by
  have ending {p p' : Parse Node} (hp : L.Alike L.Nodes p p') :
      L.Alike (Option.Rel L.Nodes) (do let decl ← p; parameterEnd; return some decl)
        (do let decl ← p'; parameterEnd; return some decl) :=
    fun c c' hc => .bind (hp hc) fun hn hd => .bind (parameterEnd_alike hd) fun _ hd =>
      .pure (.some hn) hd
  refine .either (.either (ending h.declarator) (ending h.abstractDeclarator)) fun c c' hc => ?_
  exact .bind (parameterEnd_alike hc) fun _ hd => .pure .none hd

theorem parameter_alike (h : L.Nesteds deep deep') :
    L.Alike L.Nodes (parameter deep) (parameter deep') := by
  intro c c' hc
  refine .bind (declSpecs_alike h hc) fun hn hd => ?_
  refine .bind (parameterDeclarator_alike h hd) fun ho hd => .pure ?_ hd
  refine .between hn.span (Nodes.spanOr ho hn.span) ?_
  simp [Shape.map, hn, Nodes.option ho]

theorem parametersUpTo_alike (h : L.Nesteds deep deep') (n : Nat) :
    L.Alike (List.Forall₂ L.Nodes) (parametersUpTo deep n) (parametersUpTo deep' n) := by
  induction n with
  | zero => exact fun c c' hc => .pure .nil hc
  | succ n ih =>
    intro c c' hc
    refine .bind (parameter_alike h hc) fun hn hd => .eat hd (fun hd => ?_) ?_
    · refine .eat? hd (fun ht _ hd => .pure (.cons hn (.cons (.leaf ht rfl) .nil)) hd) ?_
      exact .bind (ih hd) fun hns hd => .pure (.cons hn hns) hd
    · exact .pure (.cons hn .nil) hd

/-- Corresponding parameter lists, where none is told from an empty one. -/
theorem parameterList_alike (h : L.Nesteds deep deep') :
    L.Alike (Option.Rel (List.Forall₂ L.Nodes)) (parameterList deep) (parameterList deep') := by
  intro c c' hc
  have name : L.Alike L.Nodes (Token.identNode <$> expect .ident)
      (Token.identNode <$> expect .ident) := by
    intro c c' hc
    rw [map_eq_pure_bind]
    exact .expect hc fun ht hk hd => .pure (identNode ht (by rw [hk]; decide)) hd
  refine .check hc ?_
  split
  · exact .pure .none hc
  refine .ahead ?_
  rw [isIdentifierList_eq hc.ahead]
  split
  · exact .bind (Alike.commaList name hc) fun hns hd => .pure (.some hns.1) hd
  · refine .ahead ?_
    rw [← hc.length]
    refine .bind (parametersUpTo_alike h _ hc) fun hns hd => .check hd ?_
    split
    · exact .pure (.some hns) hd
    · exact .fail hd _

theorem lists_node {o o' : Option (List Node)} (h : Option.Rel (List.Forall₂ L.Nodes) o o') :
    o.map (List.map (Node.respan L.left)) = o'.map (List.map (Node.respan L.right)) := by
  cases h with
  | none => rfl
  | some h => exact congrArg some (Nodes.list h)

theorem suffix?_alike (h : L.Nesteds deep deep') {o o' : Option Node}
    (ho : Option.Rel L.Nodes o o') :
    L.Alike (Option.Rel L.Nodes) (suffix? deep o) (suffix? deep' o') := by
  intro c c' hc
  refine .peekKind hc fun k hk => ?_
  split
  · refine .advance hc fun ht _ hd => .before (assignment_alike h) hd fun hs hd => ?_
    refine .expect hd fun ht' _ hd => .pure (.some ?_) hd
    refine .between (Nodes.spanOr ho (L.span_eq ht)) (L.span_eq ht') ?_
    simp [Shape.map, Nodes.option ho, Nodes.option hs]
  · refine .advance hc fun ht _ hd => .bind (parameterList_alike h hd) fun hs hd => ?_
    refine .expect hd fun ht' _ hd => .pure (.some ?_) hd
    refine .between (Nodes.spanOr ho (L.span_eq ht)) (L.span_eq ht') ?_
    simp [Shape.map, Nodes.option ho, lists_node hs]
  · exact .pure .none hc

theorem declaratorBase_alike (h : L.Nesteds deep deep') :
    L.Alike L.Nodes (declaratorBase deep) (declaratorBase deep') := by
  intro c c' hc
  refine .peekKind hc fun k hk => ?_
  split
  · exact .advance hc fun ht hk' hd => .pure (identNode ht (by rw [hk', hk]; decide)) hd
  · refine .advance hc fun ht _ hd => .bind (h.declarator hd) fun hn hd => ?_
    refine .expect hd fun ht' _ hd => .pure (.between (L.span_eq ht) (L.span_eq ht') ?_) hd
    simp [Shape.map, hn]
  · exact .fail hc _

theorem declarator_alike (h : L.Nesteds deep deep') :
    L.Alike L.Nodes (declarator deep) (declarator deep') := by
  intro c c' hc
  refine .bind (Alike.many pointerLevel?_alike hc) fun hls hd => ?_
  refine .bind (declaratorBase_alike h hd) fun hn hd => ?_
  refine .bind (Alike.iterate (fun hn => suffix?_alike h (.some hn)) hn hd) fun hn hd => ?_
  refine .pure ?_ hd
  induction hls with
  | nil => exact hn
  | cons hr _ ih => exact pointer_node hr (.some ih)

theorem abstractBase_alike (h : L.Nesteds deep deep') :
    L.Alike (Option.Rel L.Nodes) (abstractBase deep) (abstractBase deep') := by
  intro c c' hc
  refine .ahead ?_
  rw [startsNestedAbstract_eq hc.ahead]
  split
  · refine .advance hc fun ht _ hd => .bind (h.abstractDeclarator hd) fun hn hd => ?_
    refine .expect hd fun ht' _ hd => .pure (.some ?_) hd
    exact .between (L.span_eq ht) (L.span_eq ht') (by simp [Shape.map, hn])
  · exact .pure .none hc

theorem abstractDeclarator_alike (h : L.Nesteds deep deep') :
    L.Alike L.Nodes (abstractDeclarator deep) (abstractDeclarator deep') := by
  have step {o o' : Option Node} (ho : Option.Rel L.Nodes o o') :
      L.Alike (Option.Rel (Option.Rel L.Nodes)) (do return (← suffix? deep o).map some)
        (do return (← suffix? deep' o').map some) := by
    intro c c' hc
    refine .bind (suffix?_alike h ho hc) fun hs hd => .pure ?_ hd
    cases hs with
    | none => exact .none
    | some hn => exact .some (.some hn)
  intro c c' hc
  refine .bind (Alike.many pointerLevel?_alike hc) fun {ls ls' _ _} hls hd => ?_
  refine .bind (abstractBase_alike h hd) fun hb hd => ?_
  refine .bind (Alike.iterate step hb hd) fun {o o' _ _} ho hd => ?_
  have whole : Option.Rel L.Nodes
      (ls.foldr (fun r inner => some (Node.pointer r.1 r.2 inner)) o)
      (ls'.foldr (fun r inner => some (Node.pointer r.1 r.2 inner)) o') := by
    induction hls with
    | nil => exact ho
    | cons hr _ ih => exact .some (pointer_node hr ih)
  generalize ls.foldr _ o = w, ls'.foldr _ o' = w' at whole
  cases whole with
  | none => exact .fail hd _
  | some hn => exact .pure hn hd

theorem bitfield_alike (h : L.Nesteds deep deep') {o o' : Option Node}
    (ho : Option.Rel L.Nodes o o') (ht : L.token t t') :
    L.Alike L.Nodes (bitfield deep o t) (bitfield deep' o' t') := by
  intro c c' hc
  refine .bind (conditional_alike h hc) fun hn hd => .pure ?_ hd
  refine .between (Nodes.spanOr ho (L.span_eq ht)) hn.span ?_
  simp [Shape.map, Nodes.option ho, hn]

theorem memberDeclarator_alike (h : L.Nesteds deep deep') :
    L.Alike L.Nodes (memberDeclarator deep) (memberDeclarator deep') := by
  intro c c' hc
  refine .eat? hc (fun ht _ hd => bitfield_alike h .none ht hd) ?_
  refine .bind (h.declarator hc) fun hn hd => ?_
  exact .eat? hd (fun ht _ hd => bitfield_alike h (.some hn) ht hd) (.pure hn hd)

theorem member_alike (h : L.Nesteds deep deep') :
    L.Alike L.Nodes (member deep) (member deep') := by
  intro c c' hc
  refine .bind (specQuals_alike h hc) fun hn hd => ?_
  refine .commasBefore (memberDeclarator_alike h) hd fun hns hd => ?_
  refine .expect hd fun ht _ hd => .pure (.between hn.span (L.span_eq ht) ?_) hd
  simp [Shape.map, hn, Nodes.list hns]

theorem structSpecifier_alike (h : L.Nesteds deep deep') (hc : L.Cursors c c')
    (hk : c.peek.kind.is .structOrUnion = true) :
    L.Outcome L.Nodes (structSpecifier deep c) (structSpecifier deep' c') := by
  refine .advance hc fun ht hk' hd => .bind (Alike.eat? hd) fun ho hd => ?_
  have hx := L.text_eq ht (hk' ▸ Kind.not_mem_brackets hk)
  refine .eat hd (fun hd => ?_) ?_
  · refine .bind (Alike.manyUntil (member_alike h) .rBrace hd) fun hns hd => ?_
    refine .expect hd fun ht' _ hd => .pure (.between (L.span_eq ht) (L.span_eq ht') ?_) hd
    simp [Shape.map, hx, Taken.texts ho (by decide), Nodes.list hns]
  · cases ho with
    | none => exact .fail hd _
    | some hn =>
      refine .pure (.between (L.span_eq ht) (L.span_eq hn.token) ?_) hd
      simp [Shape.map, hx, hn.text (by decide)]

theorem initializer_alike (h : L.Nesteds deep deep') :
    L.Alike L.Nodes (initializer deep) (initializer deep') := by
  intro c c' hc
  refine .eat? hc (fun ht _ hd => ?_) (assignment_alike h hc)
  refine .bind (Alike.bracedItems h.initializer hd) fun hns hd => ?_
  refine .expect hd fun ht' _ hd => .pure (.between (L.span_eq ht) (L.span_eq ht') ?_) hd
  simp [Shape.map, Nodes.list hns]

theorem initDeclarator_alike (h : L.Nesteds deep deep') :
    L.Alike L.Nodes (initDeclarator deep) (initDeclarator deep') := by
  intro c c' hc
  refine .bind (h.declarator hc) fun hn hd => .after h.initializer hd fun ho hd => .pure ?_ hd
  refine .between hn.span (Nodes.spanOr ho hn.span) ?_
  simp [Shape.map, hn, Nodes.option ho]

theorem staticAssert_alike (h : L.Nesteds deep deep') :
    L.Alike L.Nodes (staticAssert deep) (staticAssert deep') := by
  intro c c' hc
  refine .advance hc fun ht _ hd => .expect hd fun _ _ hd => ?_
  refine .bind (conditional_alike h hd) fun hn hd => .expect hd fun _ _ hd => ?_
  refine .bind (Alike.strings hd) fun hr hd => .expect hd fun _ _ hd => ?_
  refine .expect hd fun ht' _ hd => .pure (.between (L.span_eq ht) (L.span_eq ht') ?_) hd
  simp [Shape.map, hn, hr.1]

theorem declaration_alike (h : L.Nesteds deep deep') :
    L.Alike L.Nodes (declaration deep) (declaration deep') := by
  intro c c' hc
  refine .check hc ?_
  split
  · exact staticAssert_alike h hc
  refine .bind (declSpecs_alike h hc) fun hn hd => ?_
  refine .commasBefore (initDeclarator_alike h) hd fun hns hd => ?_
  refine .eat? hd (fun ht _ hd => ?_) (.fail hd _)
  refine .pure (.between hn.span (L.span_eq ht) ?_) hd
  simp [Shape.map, hn, Nodes.nonempty? hns]

end CPretty.Likeness
