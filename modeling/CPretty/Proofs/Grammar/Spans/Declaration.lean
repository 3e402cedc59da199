import CPretty.Proofs.Grammar.Soundness.Declaration
import CPretty.Proofs.Grammar.Spans.Expression

namespace CPretty

open Parse

variable {b c d : Cursor} {n : Node} {ns : List Node} {t : Token} {deep : Nested}

namespace Grammar

theorem qualifier?_spans : Reads qualifier? (StepReads Spans) := by
  refine .of_run fun hc => .peekKind fun k hk => ?_
  split
  next hg =>
    refine .advance hc (hk ▸ Kind.ne_eof_of_is hg) fun ht => .pure ((keywordNode_spans ht).mono id)
  next => exact .pure (.refl hc rfl)

theorem pointerLevel?_spans : Reads pointerLevel?
    (StepReads fun xs r => ∀ {ys o}, Spans? ys o → Spans (xs ++ ys) (.pointer r.1 r.2 o)) := by
  refine .of_run fun hc => .eat? hc (by decide) (fun {star _} ht => ?_) (.pure (.refl hc rfl))
  refine .bind ((many_reads (P := Row) qualifier?_spans .nil Row.cons).run ht.after)
    fun hs => .pure ?_
  refine ht.trans hs ?_
  rintro _ xs rfl hx ys o ho
  exact .pointer star hx ho

theorem parameterEnd_stays : Ensures (fun _ d => d = c) (parameterEnd c) :=
  fun _ _ h => (parameterEnd_ok h).symm

variable (hd : deep.Covering)
include hd

theorem parameterDeclarator_spans :
    Reads (parameterDeclarator deep) (StepReads Spans) := by
  have ending {p : Parse Node} (hp : Reads p Spans) :
      Reads (do let decl ← p; parameterEnd; return some decl) (StepReads Spans) := by
    refine .of_run fun hc => .bind (hp.run hc) fun hn => .bind parameterEnd_stays ?_
    rintro _ _ rfl
    exact .pure (hn.mono id)
  refine .either (.either (ending hd.declarator) (ending hd.abstractDeclarator)) ?_
  refine .of_run fun hc => .bind parameterEnd_stays ?_
  rintro _ _ rfl
  exact .pure (.refl hc rfl)

theorem parameter_spans : Reads (parameter deep) Spans := by
  refine .of_run fun hc => .bind ((declSpecs_spans hd).run hc) fun {s _} hs => ?_
  refine .bind ((parameterDeclarator_spans hd).run hs.after) fun {o _} ho => .pure ?_
  cases o with
  | none => exact (hs.traced.tail (ho.mono fun h => .inl ⟨h, rfl⟩)).close rfl rfl
  | some n => exact (hs.traced.node (n := n) (ho.mono id)).close rfl rfl

theorem parametersUpTo_spans (m : Nat) : Reads (parametersUpTo deep m) (Parts Spans) := by
  induction m with
  | zero => exact .of_run fun hc => .pure (.refl hc .nil)
  | succ m ih =>
    refine .of_run fun hc => .bind ((parameter_spans hd).run hc) fun hn => ?_
    refine .eat hn.after (by decide) (fun ht => ?_) (.pure hn.series)
    refine .eat? ht.after (by decide) (fun {dots _} hdots => .pure ?_) ?_
    · have last : Spanned _ (dots.leaf .ellipsis) _ := hdots.first.close rfl rfl
      exact (hn.series.append ht.eats).append last.series
    · exact .bind (ih.run ht.after) fun hs => .pure ((hn.series.append ht.eats).append hs)

omit hd in
theorem name_spans : Reads (Token.identNode <$> expect .ident) Spans := by
  rw [map_eq_pure_bind]
  exact .of_run fun hc => .expect hc (by decide) fun ht => .pure (identNode_spans ht)

theorem parameterList_spans : Reads (parameterList deep)
    fun xs o => Parts Spans xs (o.getD []) := by
  refine .of_run fun hc => .check ?_
  split
  · exact .pure (.refl hc .nil)
  refine .ahead ?_
  split
  · exact .bind ((commaList_parts name_spans).run hc) fun hs => .pure (hs.mono id)
  · refine .ahead (.bind ((parametersUpTo_spans hd _).run hc) fun hs => .check ?_)
    split
    · exact .pure (hs.mono id)
    · exact .fail _

/-- A suffix covers the declarator before it too. -/
theorem suffix?_spans {o : Option Node} (ho : Between Spans? b o c) :
    Ensures (fun o' d => Between Spans? b (o' <|> o) d) (suffix? deep o c) := by
  refine .peekKind fun k hk => ?_
  -- A suffix with its brackets is read to the end.
  have whole {l r : Token} {ns : List Node} {c₁ c₂ c₃ : Cursor} {s : Shape Node} (hl : Eats c l c₁)
      (hs : Series c₁ ns c₂) (hr : Eats c₂ r c₃) (hc : s.children = o.toList ++ ns)
      (hrow : s.rows = [s.children]) (hb : s.base? = o) (hx' : ∀ xs, s.Spells xs) :
      Between Spans? b (some (.between (Node.spanOr o l.span) r.span s) <|> o) c₃ := by
    obtain ⟨hb', xs, p, hx⟩ := ho
    obtain ⟨-, _, q, rfl⟩ := hl
    obtain ⟨-, ys, u, hy⟩ := hs
    obtain ⟨-, _, v, rfl⟩ := hr
    exact ⟨hb', _, ((p.trans q).trans u).trans v, Spans.suffix hx l r hy hc hrow hb hx'⟩
  split
  · refine .advance ho.after (by simp [hk]) fun hl => .absent (assignment_spans hd) hl.after ?_
    intro size d hs
    refine .expect hs.after (by decide) fun hr => .pure ?_
    exact whole hl hs.optional hr rfl rfl rfl fun _ => trivial
  · refine .advance ho.after (by simp [hk]) fun hl => ?_
    refine .bind ((parameterList_spans hd).run hl.after) fun {ps _} hs => ?_
    refine .expect hs.after (by decide) fun hr => .pure ?_
    have hps : Series _ (ps.getD []) _ := hs.mono id
    exact whole hl hps hr rfl rfl rfl fun _ => trivial
  · exact .pure ho

theorem declaratorBase_spans : Reads (declaratorBase deep) Spans := by
  refine .of_run fun hc => .peekKind fun k hk => ?_
  split
  · exact .advance hc (by simp [hk]) fun ht => .pure (identNode_spans ht)
  · refine .advance hc (by simp [hk]) fun hl => .bind (hd.declarator.run hl.after) fun hn => ?_
    refine .expect hn.after (by decide) fun hr => .pure ?_
    exact ((hl.first.node hn).token hr).close rfl rfl
  · exact .fail _

theorem declarator_spans : Reads (declarator deep) Spans := by
  -- The stars read before a declarator wrap it, the last one first.
  have wraps := many_reads (P := fun xs levels => ∀ {ys n}, Spans ys n → Spans (xs ++ ys)
    (levels.foldr (fun r inner => Node.pointer r.1 r.2 (some inner)) n)) pointerLevel?_spans
    (fun h => h) (by
      intro xs r ys levels hr ih zs n hn
      simpa using hr (o := some _) (ih hn))
  refine .of_run fun hc => .bind (wraps.run hc) fun hlevels => ?_
  refine .bind ((declaratorBase_spans hd).run hlevels.after) fun {n b} hn => ?_
  refine .bind (.iterate (P := Spanned _) (fun {n c} hn => ?_) hn) fun hn => ?_
  · intro o d h
    have := suffix?_spans hd (o := some n) (hn.mono id) h
    cases o with
    | none => exact this.mono id
    | some m => exact this.mono id
  · exact .pure (hlevels.trans hn fun h hn => h hn)

theorem abstractBase_spans : Reads (abstractBase deep) Spans? := by
  refine .of_run fun hc => .ahead ?_
  split
  next hk =>
    have hk := Lookahead.peek_of_startsNestedAbstract hk
    refine .advance hc (by simp [hk]) fun hl => ?_
    refine .bind (hd.abstractDeclarator.run hl.after) fun hn => ?_
    refine .expect hn.after (by decide) fun hr => .pure ?_
    have nested : Spanned _ _ _ := ((hl.first.node hn).token hr).close (s := .nested _) rfl rfl
    exact nested.mono id
  next => exact .pure (.refl hc rfl)

theorem abstractDeclarator_spans : Reads (abstractDeclarator deep) Spans := by
  have wraps := many_reads (P := fun xs levels => ∀ {ys o}, Spans? ys o → Spans? (xs ++ ys)
    (levels.foldr (fun r inner => some (Node.pointer r.1 r.2 inner)) o)) pointerLevel?_spans
    (fun h => h) (by
      intro xs r ys levels hr ih zs o ho
      have := hr (ih ho)
      simpa [Spans?] using this)
  refine .of_run fun hc => .bind (wraps.run hc) fun {levels _} hlevels => ?_
  refine .bind ((abstractBase_spans hd).run hlevels.after) fun ho => ?_
  refine .bind (.iterate (P := Between Spans? _) (fun {o c} ho => ?_) ho) fun {o _} ho => ?_
  · refine .bind (suffix?_spans hd ho) fun {o' _} h => .pure ?_
    cases o' <;> exact h
  · have whole := hlevels.trans ho (D := Spans?) fun h ho => h ho
    dsimp only at whole ⊢
    generalize levels.foldr _ o = w at whole
    cases w with
    | none => exact .fail _
    | some n => exact .pure (whole.mono id)

theorem bitfield_spans {o : Option Node} (ho : Between Spans? b o c) (ht : Eats c t d) :
    Ensures (Spanned b) (bitfield deep o t d) := by
  refine .bind ((conditional_spans hd).run ht.after) fun hw => .pure ?_
  exact ((ho.opened ht).node hw).close rfl rfl

theorem memberDeclarator_spans : Reads (memberDeclarator deep) Spans := by
  refine .of_run fun hc => .eat? hc (by decide)
    (fun ht => bitfield_spans hd (o := none) (.refl hc rfl) ht) ?_
  refine .bind (hd.declarator.run hc) fun {n _} hn => ?_
  exact .eat? hn.after (by decide) (fun ht => bitfield_spans hd (o := some n) (hn.mono id) ht)
    (.pure hn)

theorem member_spans : Reads (member deep) Spans := by
  refine .of_run fun hc => .bind ((specQuals_spans hd).run hc) fun hq => ?_
  refine .commasBefore (memberDeclarator_spans hd) hq.after fun hs => ?_
  exact .expect hs.after (by decide) fun ht => .pure ((hq.traced.enclosed hs ht).close rfl rfl)

theorem structSpecifier_spans (hc : c.Ended) (hk : c.peek.kind.is .structOrUnion = true) :
    Ensures (Spanned c) (structSpecifier deep c) := by
  refine .advance hc (Kind.ne_eof_of_is hk) fun ht => ?_
  refine .bind ((eat?_tokens (by decide)).run ht.after) fun {o _} ho => ?_
  refine .eat ho.after (by decide) (fun hl => ?_) ?_
  · refine .bind ((manyUntil_parts (member_spans hd)).run hl.after) fun hs => ?_
    refine .expect hs.after (by decide) fun hr => .pure ?_
    exact (ht.first.enclosed ((ho.eaten.append hl.eats).append hs) hr).close rfl rfl
  · cases o with
    | none => exact .fail _
    | some name => exact .pure ((ht.first.token (t := name) (ho.mono id)).close rfl rfl)

theorem initializer_spans : Reads (initializer deep) Spans := by
  refine .of_run fun hc => .eat? hc (by decide) (fun hl => ?_) ((assignment_spans hd).run hc)
  refine .bind ((bracedItems_parts hd.initializer).run hl.after) fun hs => ?_
  exact .expect hs.after (by decide) fun hr => .pure ((hl.first.enclosed hs hr).close rfl rfl)

theorem initDeclarator_spans : Reads (initDeclarator deep) Spans := by
  refine .of_run fun hc => .bind (hd.declarator.run hc) fun hn => ?_
  refine .after hd.initializer hn.after (by decide) fun ho => .pure ?_
  exact (hn.traced.tail ho).close rfl rfl

theorem staticAssert_spans (hc : c.Ended) (hk : c.peek.kind = .kwStaticAssert) :
    Ensures (Spanned c) (staticAssert deep c) := by
  refine .advance hc (by simp [hk]) fun ht => .expect ht.after (by decide) fun hl => ?_
  refine .bind ((conditional_spans hd).run hl.after) fun hn => ?_
  refine .expect hn.after (by decide) fun hq => .bind (strings_reads.run hq.after) fun hs => ?_
  refine .expect hs.after (by decide) fun hr => .expect hr.after (by decide) fun he => .pure ?_
  have texts : Series _ [] _ := hs.mono fun _ => .tokens _
  exact ((((ht.first.token hl).node hn).token hq).enclosed (texts.append hr.eats) he).close rfl rfl

theorem declaration_spans : Reads (declaration deep) Spans := by
  refine .of_run fun hc => .check ?_
  split
  next hk => exact staticAssert_spans hd hc (eq_of_beq hk)
  refine .bind ((declSpecs_spans hd).run hc) fun hs => ?_
  refine .commasBefore (initDeclarator_spans hd) hs.after fun {ns _} hns => ?_
  refine .eat? hns.after (by decide) (fun ht => .pure ?_) (.fail _)
  refine (hs.traced.enclosed hns ht).close rfl ?_
  rw [Shape.children, Node.getD_nonempty?]

end Grammar

end CPretty
