import CPretty.Proofs.Grammar.Blind.Expression

namespace CPretty.Linked

open Parse Place Grammar

variable {e : Ending} {s : List Bracket} {c c' : Cursor} {deep : Nested}
  {Q : Cursor → Cursor → Prop}

theorem primary_blind (h : Nesteds e deep) : Blind e (Free s) (Free s) (primary deep) := by
  intro c c' hc
  refine .peekKind hc rfl fun k hk => ?_
  split
  next => exact .advance hc hk (.inner rfl) fun hd => .pure hd.free
  next => exact .advance hc hk (.inner rfl) fun hd => .pure hd.free
  next => exact .bind (Blind.strings hc) fun hd => .pure hd
  next =>
    refine .advance hc hk .paren fun hd => .bind (expression_blind h (by simp) hd.free) fun hd => ?_
    exact .expect hd (hd.sees (by decide)) .closeParen fun hd => .pure hd.free
  next => exact .fail _

theorem arguments_blind (h : Nesteds e deep) :
    Blind e (Free (.paren :: s)) (Free (.paren :: s)) (arguments deep) := by
  intro c c' hc
  refine .check (hc.sees (by decide)) ?_
  split
  · exact .pure hc
  · have args := Blind.commaList (assignment_reads h.sound) (by simp) (assignment_blind h) hc
    refine .bind args fun hd => .check (hd.sees (by decide)) ?_
    split
    · exact .pure hd
    · exact .fail _

theorem access?_takes (hd : deep.Sound) (recv : Node) : Takes (access? deep recv) := by
  intro c n d hc h
  obtain ⟨k, c₁, h₁, h⟩ := bind_ok h
  cases h₁
  generalize hk : c.peek.kind = k at h
  have name (op : Token) : Passing (do
      let name ← expect .ident
      return some (Node.between recv.span name.span (.field recv op.text name.text))) :=
    .bind (.expect (by decide)) fun _ => .pure _
  split at h
  · refine length_lt_of_advance hc (by rw [hk]; decide) (fun _ => ?_) h
    exact .bind (.of_reads (expression_reads hd)) fun _ => .bind (.expect (by decide))
      fun _ => .pure _
  · refine length_lt_of_advance hc (by rw [hk]; decide) (fun _ => ?_) h
    exact .bind (.of_reads (arguments_reads hd)) fun _ => .bind (.expect (by decide))
      fun _ => .pure _
  · exact length_lt_of_advance hc (by rw [hk]; decide) name h
  · exact length_lt_of_advance hc (by rw [hk]; decide) name h
  · exact length_lt_of_advance hc (by rw [hk]; decide) (fun _ => .pure _) h
  · exact length_lt_of_advance hc (by rw [hk]; decide) (fun _ => .pure _) h
  · cases h

theorem access?_blind (h : Nesteds e deep) (recv : Node) :
    Blind e (Free s) (Free s) (access? deep recv) := by
  intro c c' hc
  refine .peekKind hc rfl fun k hk => ?_
  have name {d d' : Cursor} (op : Token) (hd : Cursors e (Free s) d d') :
      Outcome (Cursors e (Free s)) ((do
        let name ← expect .ident
        return some (Node.between recv.span name.span (.field recv op.text name.text))) d) ((do
        let name ← expect .ident
        return some (Node.between recv.span name.span (.field recv op.text name.text))) d') :=
    .expect hd (hd.sees (by decide)) (.inner rfl) fun hd => .pure hd.free
  split
  next =>
    refine .advance hc hk .square fun hd => .bind (expression_blind h (by simp) hd.free)
      fun hd => ?_
    exact .expect hd (hd.sees (by decide)) .closeSquare fun hd => .pure hd.free
  next =>
    refine .advance hc hk .paren fun hd => .bind (arguments_blind h hd.free) fun hd => ?_
    exact .expect hd (hd.sees (by decide)) .closeParen fun hd => .pure hd.free
  next => exact .advance hc hk (.inner rfl) fun hd => name _ hd.free
  next => exact .advance hc hk (.inner rfl) fun hd => name _ hd.free
  next => exact .advance hc hk (.inner rfl) fun hd => .pure hd.free
  next => exact .advance hc hk (.inner rfl) fun hd => .pure hd.free
  next => exact .pure hc

theorem postfixed_blind (h : Nesteds e deep) : Blind e (Free s) (Free s) (postfixed deep) :=
  fun _ _ hc => .bind (primary_blind h hc) fun hd =>
    Blind.iterate (access?_takes h.sound) (access?_blind h) _ hd

theorem sizeofType_blind (h : Nesteds e deep) (hk : c.peek.kind = .kwSizeof)
    (hc : Cursors e (Free s) c c') :
    Outcome (Cursors e (Free s)) (sizeofType deep c) (sizeofType deep c') := by
  refine .advance hc hk (.inner rfl) fun hd => ?_
  refine .expect hd.free (hd.sees (by decide)) .paren fun hd => ?_
  refine .bind (typeName_blind h (by simp) hd.free) fun hd => ?_
  exact .expect hd (hd.sees (by decide)) .closeParen fun hd => .pure hd.free

theorem unaryBody_blind (h : Nesteds e deep) : Blind e (Free s) (Free s) (unaryBody deep) := by
  intro c c' hc
  refine .peekKind hc rfl fun k hk => ?_
  split
  next hg => exact sizeofType_blind h (hk.trans (eq_of_beq hg)) hc
  split
  next hg =>
    refine .advance hc hk (.inner (isInner_of_is (by decide) hg)) fun hd => ?_
    exact .bind (h.operand s hd.free) fun hd => .pure hd
  next => exact postfixed_blind h hc

theorem prefixOperator?_blind : Blind e (Free s) (Free s) prefixOperator? := by
  intro c c' hc
  refine .peekKind hc rfl fun k hk => .ahead ?_
  obtain ⟨p, -, ha⟩ := hc.ahead
  rw [startsSizeofType_eq ha]
  split
  next hg =>
    have hi : k.isInner = true := by
      simp only [Bool.or_eq_true, Bool.and_eq_true, beq_iff_eq] at hg
      obtain hg | ⟨rfl, -⟩ := hg
      · exact isInner_of_is (by decide) hg
      · rfl
    exact .advance hc hk (.inner hi) fun hd => .pure hd.free
  next => exact .pure hc

theorem unary_blind (h : Nesteds e deep) : Blind e (Free s) (Free s) (unary deep) := by
  have takes := Takes.of_reads prefixOperator?_reads (by
    rintro xs op ⟨rfl, -⟩
    exact List.cons_ne_nil _ _)
  intro c c' hc
  refine .bind (Blind.many takes prefixOperator?_blind hc) fun hd => ?_
  exact .bind (unaryBody_blind h hd) fun hd => .pure hd

theorem castPrefix?_blind (h : Nesteds e deep) :
    Blind e (Free s) (Free s) (castPrefix? deep) := by
  intro c c' hc
  refine .check (hc.sees (by decide)) (.ahead ?_)
  have types : (c.peek.kind == .lParen && Lookahead.startsTypeName true c.ahead.tail) =
      (c.peek.kind == .lParen && Lookahead.startsTypeName true c'.ahead.tail) := by
    by_cases hk : c.peek.kind = .lParen
    · have lead : Leads e (Free s) c.peek.kind (At (.paren :: s) .block) := hk ▸ .paren
      obtain ⟨_, rfl, ha⟩ := (hc.advance lead).2.ahead
      have := startsTypeName_eq ha rfl true
      rw [Cursor.advance, Cursor.advance] at this
      rw [this]
    · rw [beq_false_of_ne hk, Bool.false_and, Bool.false_and]
  rw [← types]
  split
  next hg =>
    refine .advance hc (eq_of_beq (Bool.and_eq_true_iff.mp hg).1) .paren fun hd => ?_
    refine .bind (typeName_blind h (by simp) hd.free) fun hd => ?_
    exact .expect hd (hd.sees (by decide)) .closeParen fun hd => .pure hd.free
  next => exact .pure hc

theorem operand_blind (h : Nesteds e deep) : Blind e (Free s) (Free s) (operand deep) := by
  have takes := Takes.of_reads (castPrefix?_reads h.sound) (by
    rintro xs r ⟨ys, t, rfl, -⟩
    exact List.cons_ne_nil _ _)
  intro c c' hc
  refine .bind (Blind.many takes (castPrefix?_blind h) hc) fun hd => ?_
  exact .bind (unary_blind h hd) fun hd => .pure hd

theorem qualifier?_blind : Blind e (Free s) (Free s) qualifier? := by
  intro c c' hc
  refine .peekKind hc rfl fun k hk => ?_
  split
  next hg => exact .advance hc hk (.inner (isInner_of_is (by decide) hg)) fun hd => .pure hd.free
  next => exact .pure hc

theorem pointerLevel?_blind : Blind e (Free s) (Free s) pointerLevel? := by
  have takes := Takes.of_reads qualifier?_reads fun xs n hx => hx.ne_nil
  intro c c' hc
  refine .eat? hc (hc.sees (by decide)) (.inner rfl) (fun hd => ?_) (.pure hc)
  exact .bind (Blind.many takes qualifier?_blind hd.free) fun hd => .pure hd

theorem pointerLevel?_takes : Takes pointerLevel? := .of_reads pointerLevel?_reads (by
  rintro xs r ⟨ys, rfl, -⟩
  exact List.cons_ne_nil _ _)

theorem parameterEnd_blind (hs : s.head? ≠ some .list) :
    Blind e (Free s) (Free s) parameterEnd := by
  intro c c' hc
  have hk := hc.kind_eq (free_not_list hs)
  refine .check (by rw [hk]) (.check (by rw [hk]) ?_)
  split
  · exact .pure hc
  · exact .fail _

theorem parameterDeclarator_blind (h : Nesteds e deep) (hs : s.head? ≠ some .list) :
    Blind e (Free s) (Free s) (parameterDeclarator deep) := by
  have ending {p : Parse Node} (hp : Blind e (Free s) (Free s) p) :
      Blind e (Free s) (Free s) (do let decl ← p; parameterEnd; return some decl) :=
    fun _ _ hc => .bind (hp hc) fun hd => .bind (parameterEnd_blind hs hd) fun hd => .pure hd
  intro c c' hc
  refine .either (.either (ending ?_ hc) (ending (h.abstractDeclarator hs) hc)) ?_
  · exact fun _ _ hc => (h.declarator hs hc).mono fun hd => hd.free
  · exact .bind (parameterEnd_blind hs hc) fun hd => .pure hd

theorem parameter_blind (h : Nesteds e deep) (hs : s.head? ≠ some .list) :
    Blind e (Free s) (Free s) (parameter deep) := fun _ _ hc =>
  .bind (declSpecs_blind h hc) fun hd => .bind (parameterDeclarator_blind h hs hd)
    fun hd => .pure hd

theorem parametersUpTo_blind (h : Nesteds e deep) (hs : s.head? ≠ some .list) (n : Nat) :
    ∀ {m c c'}, c.ahead.length < n → c'.ahead.length < m → Cursors e (Free s) c c' →
    Outcome (Cursors e (Free s)) (parametersUpTo deep n c) (parametersUpTo deep m c') := by
  induction n with
  | zero => exact fun hn => absurd hn (Nat.not_lt_zero _)
  | succ n ih =>
    intro m c c' hn hm hc
    obtain _ | m := m
    · exact absurd hm (Nat.not_lt_zero _)
    refine .bindOk (parameter_blind h hs hc) fun {a d d'} hp hp' hd => ?_
    have hn' := Nat.lt_of_le_of_lt ((parameter_reads h.sound).length_le hc.ended hp) hn
    have hm' := Nat.lt_of_le_of_lt ((parameter_reads h.sound).length_le hc.ended' hp') hm
    have hk := hd.kind_eq (free_not_list hs)
    refine .eat hd (by rw [hk]) (.comma hs) (fun he hd' => ?_) (.pure hd)
    obtain ⟨hl, hl'⟩ := hd.advance_lt he (.comma hs)
    refine .eat? hd' (hd'.sees (by decide))
      (.of_at (by decide) (Ending.not_at (by decide)) rfl) (fun hd => .pure hd.free) ?_
    refine .bind (ih ?_ ?_ hd'.free_list) fun hd => .pure hd
    · exact Nat.lt_of_lt_of_le hl (Nat.le_of_lt_succ hn')
    · exact Nat.lt_of_lt_of_le hl' (Nat.le_of_lt_succ hm')

theorem parameterList_blind (h : Nesteds e deep) (hs : s.head? ≠ some .list) :
    Blind e (Free s) (Free s) (parameterList deep) := by
  have name : Blind e (Free s) (Free s) (Token.identNode <$> expect .ident) := by
    intro c c' hc
    rw [map_eq_pure_bind]
    exact .expect hc (hc.sees (by decide)) (.inner rfl) fun hd => .pure hd.free
  intro c c' hc
  refine .check (hc.sees (by decide)) ?_
  split
  · exact .pure hc
  obtain ⟨_, ⟨o, -, rfl⟩, ha⟩ := hc.ahead
  refine .ahead ?_
  rw [isIdentifierList_eq ha hs]
  split
  · exact .bind (Blind.commaList name_reads hs name hc) fun hd => .pure hd
  · have params := parametersUpTo_blind h hs _ (Nat.lt_succ_self _) (Nat.lt_succ_self _) hc
    refine .ahead (.bind params fun hd => .check (hd.sees (by decide)) ?_)
    split
    · exact .pure hd
    · exact .fail _

theorem suffix?_blind (h : Nesteds e deep) (decl : Option Node) {P : Place → Prop}
    (hP : ∀ p, P p → Free s p) (hs : ∀ p, At s .block p → P p) :
    Blind e P P (suffix? deep decl) := by
  intro c c' hc
  refine .peekKind hc rfl fun k hk => ?_
  have hf := hc.mono hP
  split
  next =>
    refine .advance hf hk .square fun hd => ?_
    refine .before (hd.sees (by decide)) (assignment_blind h hd.free) hd.free fun hd => ?_
    exact .expect hd (hd.sees (by decide)) .closeSquare fun hd => .pure (hd.mono hs)
  next =>
    refine .advance hf hk .paren fun hd => ?_
    refine .bind (parameterList_blind h (by simp) hd.free) fun hd => ?_
    exact .expect hd (hd.sees (by decide)) .closeParen fun hd => .pure (hd.mono hs)
  next => exact .pure hc

theorem suffix?_takes (hd : deep.Sound) (decl : Option Node) : Takes (suffix? deep decl) :=
  .of_reads (suffix?_reads hd decl) (by
    rintro xs n ⟨l, ys, r, rfl, -⟩
    exact List.cons_ne_nil _ _)

theorem declaratorBase_blind (h : Nesteds e deep) :
    Blind e (Free s) (At s .block) (declaratorBase deep) := by
  intro c c' hc
  refine .peekKind hc rfl fun k hk => ?_
  split
  next => exact .advance hc hk (.inner rfl) fun hd => .pure hd
  next =>
    refine .advance hc hk .paren fun hd => .bind (h.declarator (by simp) hd.free) fun hd => ?_
    exact .expect hd (hd.sees (by decide))
      (.of_at (by decide) (Ending.not_at_within (by decide)) rfl) fun hd => .pure hd
  next => exact .fail _

theorem declarator_blind (h : Nesteds e deep) :
    Blind e (Free s) (At s .block) (declarator deep) := by
  intro c c' hc
  refine .bind (Blind.many pointerLevel?_takes pointerLevel?_blind hc) fun hd => ?_
  refine .bind (declaratorBase_blind h hd) fun hd => ?_
  refine .bind (Blind.iterate (fun n => suffix?_takes h.sound (some n)) (fun n => ?_) _ hd)
    fun hd => .pure hd
  exact suffix?_blind h (some n) (fun _ hp => hp.free (by decide)) fun _ hp => hp

theorem abstractBase_blind (h : Nesteds e deep) :
    Blind e (Free s) (Free s) (abstractBase deep) := by
  intro c c' hc
  refine .ahead ?_
  obtain ⟨p, -, ha⟩ := hc.ahead
  rw [← startsNestedAbstract_eq ha]
  split
  next hg =>
    have hk := Lookahead.peek_of_startsNestedAbstract hg
    refine .advance hc hk .paren fun hd => ?_
    refine .bind (h.abstractDeclarator (by simp) hd.free) fun hd => ?_
    exact .expect hd (hd.sees (by decide)) .closeParen fun hd => .pure hd.free
  next => exact .pure hc

theorem abstractDeclarator_blind (h : Nesteds e deep) :
    Blind e (Free s) (Free s) (abstractDeclarator deep) := by
  have step (o : Option Node) :
      Blind e (Free s) (Free s) (do return (← suffix? deep o).map some) := fun _ _ hc =>
    .bind (suffix?_blind h o (fun _ hp => hp) (fun _ hp => hp.free (by decide)) hc)
      fun hd => .pure hd
  have takes (o : Option Node) : Takes (do return (← suffix? deep o).map some) := by
    intro c a d hc hr
    obtain ⟨o, c₁, h₁, hr⟩ := bind_ok hr
    obtain ⟨ho, rfl⟩ := pure_ok hr
    obtain ⟨n, rfl, -⟩ := Option.map_eq_some_iff.mp ho.symm
    exact suffix?_takes h.sound _ hc h₁
  intro c c' hc
  refine .bind (Blind.many pointerLevel?_takes pointerLevel?_blind hc) fun hd => ?_
  refine .bind (abstractBase_blind h hd) fun hd => ?_
  refine .bind (Blind.iterate takes step _ hd) fun {o d d'} hd => ?_
  dsimp only
  generalize List.foldr _ o _ = whole
  cases whole with
  | none => exact .fail _
  | some n => exact .pure hd

theorem memberDeclarator_blind (h : Nesteds e deep) (hl : s.head? ≠ some .list)
    (hs : e.PlainColon s) : Blind e (Free s) (Free s) (memberDeclarator deep) := by
  have width (o : Option Node) (t : Token) : Blind e (Free s) (Free s) (bitfield deep o t) :=
    fun _ _ hc => .bind (conditional_blind h hc) fun hd => .pure hd
  intro c c' hc
  refine .eat? hc (hc.sees (by decide)) (.colon hs) (fun hd => width _ _ hd.free) ?_
  refine .bind (h.declarator hl hc) fun hd => ?_
  refine .eat? hd.free (hd.sees (by decide)) (.colon hs) (fun hd => width _ _ hd.free) ?_
  exact .pure hd.free

theorem member_blind (h : Nesteds e deep) (hl : s.head? ≠ some .list) (hs : e.PlainColon s)
    (hn : ¬ e.At s .semicolon) : Blind e (At s .block) (At s .block) (member deep) := by
  intro c c' hc
  refine .bind (specQuals_blind h hc.free) fun hd => ?_
  refine .commasBefore (memberDeclarator_reads h.sound) hl (memberDeclarator_blind h hl hs)
    (hd.sees (by decide)) hd fun hd => ?_
  exact .expect hd (hd.sees (by decide)) (.semicolon hn) fun hd => .pure hd

theorem members_blind (h : Nesteds e deep) (hl : s.head? ≠ some .list) (hs : e.PlainColon s)
    (hn : ¬ e.At s .semicolon) :
    Blind e (At s .block) (At s .block) (manyUntil .rBrace (member deep)) :=
  Blind.manyUntil (member_reads h.sound) (member_blind h hl hs hn)
    (fun _ h => by cases h; exact hl rfl) _

theorem structSpecifier_blind (h : Nesteds e deep) (hk : c.peek.kind.is .structOrUnion = true)
    (hc : Cursors e (Free s) c c') :
    Outcome (Cursors e (Free s)) (structSpecifier deep c) (structSpecifier deep c') := by
  have members := members_blind h (s := .body :: s) (by simp) (Ending.plainColon (by decide))
    Ending.not_at_semicolon
  refine .advance hc rfl (.structWord hk) fun hd => ?_
  refine .eat? hd (hd.sees (by decide)) .structName (fun hd => ?_) ?_
  · refine .eat hd (hd.sees (by decide)) (.body (.inl rfl))
      (fun _ hd => .bind (members hd) fun hd => ?_)
      (.pure (hd.mono fun _ hp => hp.free (by decide)))
    exact .expect hd (by rw [hd.kind_eq fun r h => by cases h]) .closeBody fun hd => .pure hd.free
  · refine .eat hd (hd.sees (by decide)) (.body (.inr rfl))
      (fun _ hd => .bind (members hd) fun hd => ?_)
      (.fail _)
    exact .expect hd (by rw [hd.kind_eq fun r h => by cases h]) .closeBody fun hd => .pure hd.free

theorem initializer_blind (h : Nesteds e deep) :
    Blind e (At s .list) (Free s) (initializer deep) := by
  intro c c' hc
  refine .eat? hc (hc.sees (by decide)) (.list (.inl rfl)) (fun hd => ?_) ?_
  · exact .list h.sound.initializer (h.initializer _) hd fun hd => .pure hd.free
  · exact assignment_blind h hc.free_list

theorem initDeclarator_blind (h : Nesteds e deep) (hs : s.head? ≠ some .list) :
    Blind e (Free s) (Free s) (initDeclarator deep) := by
  intro c c' hc
  refine .bind (h.declarator hs hc) fun hd => ?_
  exact .after hd.free (hd.sees (by decide)) .eq (fun hd => h.initializer s hd) hd.free
    fun hd => .pure hd

theorem staticAssert_outcome (h : Nesteds e deep) (hk : c.peek.kind = .kwStaticAssert)
    (hc : Cursors e (Free s) c c')
    (hQ : ∀ {d d'}, d.peek.kind = .semicolon → Cursors e (Free s) d d' → Q d.advance d'.advance) :
    Outcome Q (staticAssert deep c) (staticAssert deep c') := by
  refine .advance hc hk (.inner rfl) fun hd => ?_
  refine .expect hd.free (hd.sees (by decide)) .paren fun hd => ?_
  refine .bind (conditional_blind h hd.free) fun hd => ?_
  refine .expect hd (by rw [hd.kind_eq (free_not_list (by simp))]) (.comma (by simp)) fun hd => ?_
  refine .bind (Blind.strings hd.free_list) fun hd => ?_
  refine .expect hd (hd.sees (by decide)) .closeParen fun hd => ?_
  exact .expectSame (hd.sees (by decide)) fun he =>
    ⟨hd.peek_eq (by rw [he]; decide), .pure (hQ he hd.free)⟩

theorem declaration_outcome (h : Nesteds e deep) (hl : s.head? ≠ some .list)
    (hc : Cursors e (Free s) c c')
    (hQ : ∀ {d d'}, d.peek.kind = .semicolon → Cursors e (Free s) d d' → Q d.advance d'.advance) :
    Outcome Q (declaration deep c) (declaration deep c') := by
  refine .check (hc.sees (by decide)) ?_
  split
  next hk => exact staticAssert_outcome h (eq_of_beq hk) hc hQ
  next =>
    refine .bind (declSpecs_blind h hc) fun hd => ?_
    refine .commasBefore (initDeclarator_reads h.sound) hl (initDeclarator_blind h hl)
      (hd.sees (by decide)) hd fun hd => ?_
    exact .eat?Same (hd.sees (by decide)) (fun he => ⟨hd.peek_eq (by rw [he]; decide),
      .pure (hQ he hd)⟩) (.fail _)

theorem declaration_blind (h : Nesteds e deep) (hl : s.head? ≠ some .list)
    (hs : ¬ e.At s .semicolon) : Blind e (Free s) (At s .block) (declaration deep) :=
  fun _ _ hc => declaration_outcome h hl hc fun hk hd => (hd.advance (hk ▸ .semicolon hs)).2

end CPretty.Linked
