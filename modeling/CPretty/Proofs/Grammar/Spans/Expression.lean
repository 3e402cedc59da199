import CPretty.Grammar.SourceFile
import CPretty.Proofs.Grammar.Soundness.Expression
import CPretty.Proofs.Parse.Ensures
import CPretty.Proofs.Syntax.Spans

namespace CPretty

open Parse

variable {α β : Type} {b c d e : Cursor} {sp : Span} {n : Node} {ns ms : List Node} {t : Token}
  {s : Shape Node} {k : Kind} {F : β → Cursor → Prop}

abbrev Spanned (c : Cursor) (n : Node) (d : Cursor) : Prop := Between Spans c n d

/-- The nodes cover parts of the tokens between two cursors. -/
abbrev Series (c : Cursor) (ns : List Node) (d : Cursor) : Prop := Between (Parts Spans) c ns d

/-- The tokens between two cursors are what a node with the given range and children covers so
far. -/
abbrev Traced (c : Cursor) (sp : Span) (ns : List Node) (d : Cursor) : Prop :=
  Between (fun xs p => Stretch xs p.1 p.2) c (sp, ns) d

namespace Between

theorem first (h : Eats c t d) : Traced c t.span [] d := by
  refine h.mono ?_
  rintro _ rfl
  exact .first t

theorem traced (h : Spanned c n d) : Traced c n.span [n] d := h.mono Spans.stretch

theorem series (h : Spanned c n d) : Series c [n] d := h.mono Parts.single

theorem token (h : Traced b sp ns c) (ht : Eats c t d) : Traced b (sp.through t.span) ns d := by
  refine h.trans ht ?_
  rintro xs _ hx rfl
  exact hx.token t

theorem opened {o : Option Node} (h : Between Spans? b o c) (ht : Eats c t d) :
    Traced b ((Node.spanOr o t.span).through t.span) o.toList d := by
  refine h.trans ht ?_
  rintro xs _ hx rfl
  exact .opened hx t

theorem node (h : Traced b sp ns c) (hn : Spanned c n d) :
    Traced b (sp.through n.span) (ns ++ [n]) d :=
  h.trans hn fun hx hn => hx.node hn

theorem enclosed (h : Traced b sp ns c) (hs : Series c ms d) (ht : Eats d t e) :
    Traced b (sp.through t.span) (ns ++ ms) e := by
  have both : Between (fun xs _ => ∃ ys, xs = ys ++ [t] ∧ Parts Spans ys ms) c () e := by
    refine hs.trans ht ?_
    rintro ys _ hy rfl
    exact ⟨ys, rfl, hy⟩
  refine h.trans both ?_
  rintro xs _ hx ⟨ys, rfl, hy⟩
  simpa using hx.enclosed hy t

theorem close (h : Traced b sp ns c) (hs : s.isPlain = true) (hc : s.children = ns) :
    Spanned b ⟨sp, s⟩ c :=
  h.mono fun hx => hx.spans hs hc

theorem append (h : Series c ns d) (h' : Series d ms e) : Series c (ns ++ ms) e :=
  h.trans h' Parts.append

theorem eaten {o : Option Token} (h : Between (fun xs o => xs = Option.toList o) c o d) :
    Series c [] d :=
  h.mono fun _ => .tokens _

theorem eats (h : Eats c t d) : Series c [] d := h.mono fun _ => .tokens _

theorem optional {o : Option Node} (h : Between Spans? c o d) : Series c o.toList d := by
  cases o with
  | none => exact h.mono fun _ => .tokens _
  | some n => exact h.mono .single

/-- A node that stands after a token, if it stands there at all. -/
abbrev Tail (c : Cursor) (o : Option Node) (d : Cursor) : Prop :=
  Between (fun xs o => (xs = [] ∧ o = none) ∨ ∃ t ys n, xs = t :: ys ∧ Spans ys n ∧ o = some n)
    c o d

theorem tail {o : Option Node} (h : Traced b sp ns c) (ho : Tail c o d) :
    Traced b (sp.through (Node.spanOr o sp)) (ns ++ o.toList) d := by
  refine h.trans ho ?_
  rintro xs ys hx (⟨rfl, rfl⟩ | ⟨t, ys, n, rfl, hn, rfl⟩)
  · simpa [Node.spanOr, Span.through] using hx
  · simpa [Node.spanOr, Span.through] using (hx.token t).node hn

end Between

theorem eat?_tokens (hk : k ≠ .eof) : Reads (eat? k) fun xs o => xs = Option.toList o :=
  fun _ o _ hc h => ⟨o.toList, (eat?_ok h hc hk).1, rfl⟩

theorem Ensures.after {p : Parse Node} {f : Option Node → Parse β} (hp : Reads p Spans)
    (hc : c.Ended) (hk : k ≠ .eof)
    (hf : ∀ {o d}, Between.Tail c o d → Ensures F (f o d)) :
    Ensures F ((Parse.eat k >>= fun b =>
      if b then some <$> p >>= f else Pure.pure none >>= f) c) := by
  refine .eat hc hk (fun {t _} ht => ?_) (hf (.refl hc (.inl ⟨rfl, rfl⟩)))
  refine .bind_map (hp.run ht.after) fun {n _} hn => hf (ht.trans hn ?_)
  rintro _ ys rfl hn
  exact .inr ⟨t, ys, n, rfl, hn, rfl⟩

theorem Ensures.absent {p : Parse Node} {f : Option Node → Parse β} (hp : Reads p Spans)
    (hc : c.Ended) (hf : ∀ {o d}, Between Spans? c o d → Ensures F (f o d)) :
    Ensures F ((Parse.check k >>= fun b =>
      if b then Pure.pure none >>= f else some <$> p >>= f) c) :=
  .before hp hc fun {o _} ho => hf (ho.mono fun h => by cases o <;> exact h)

theorem commaList_row {p : Parse Node} (hp : Reads p Spans) :
    Reads (commaList p) fun xs ns => Row xs ns ∧ ns ≠ [] := by
  -- The items after the first, each with the comma before it, are put behind any first item.
  have tail : Reads (commaItems p) fun ys ns =>
      ∀ {xs n}, Spans xs n → Row (xs ++ ys) (n :: ns) := by
    refine many_reads (D := fun xs n => ∃ t ys, xs = t :: ys ∧ Spans ys n) ?_ ?_ ?_
    · refine .of_run fun hc => .eat hc (by decide) (fun {t _} ht => ?_) (.pure (.refl hc rfl))
      refine .bind (hp.run ht.after) fun hn => .pure (ht.trans hn ?_)
      rintro _ ys rfl hn
      exact ⟨t, ys, rfl, hn⟩
    · intro xs n hn
      simpa using Row.one hn
    · rintro _ n ys ns ⟨t, zs, rfl, hn⟩ ih xs m hm
      simpa using Row.more [t] hm (ih hn)
  refine .of_run fun hc => .bind (hp.run hc) fun hn => .bind (tail.run hn.after) fun hs => ?_
  exact .pure (hn.trans hs fun hn hs => ⟨hs hn, List.cons_ne_nil _ _⟩)

theorem commaList_parts {p : Parse Node} (hp : Reads p Spans) :
    Reads (commaList p) (Parts Spans) :=
  (commaList_row hp).mono fun _ _ h => h.1.parts

theorem Ensures.commasBefore {p : Parse Node} {f : List Node → Parse β} (hp : Reads p Spans)
    (hc : c.Ended) (hf : ∀ {ns d}, Series c ns d → Ensures F (f ns d)) :
    Ensures F ((Parse.check k >>= fun b =>
      if b then Pure.pure [] >>= f else commaList p >>= f) c) := by
  refine .check ?_
  split
  · exact hf (.refl hc .nil)
  · exact .bind ((commaList_parts hp).run hc) hf

theorem bracedItems_parts {p : Parse Node} (hp : Reads p Spans) :
    Reads (bracedItems p) (Parts Spans) := by
  have loop (n : Nat) : Reads (bracedItemsUpTo p n) (Parts Spans) := by
    induction n with
    | zero => exact .of_run fun hc => .pure (.refl hc .nil)
    | succ n ih =>
      refine .of_run fun hc => .check ?_
      split
      · exact .pure (.refl hc .nil)
      refine .bind (hp.run hc) fun hn => .eat hn.after (by decide) (fun {t _} ht => ?_) ?_
      · refine .bind (ih.run ht.after) fun hs => .pure ?_
        have rest := ht.trans (D := Parts Spans) hs (by rintro _ ys rfl hy; exact .token t hy)
        exact hn.trans rest fun hx hy => .node hx hy
      · exact .pure hn.series
  exact .of_run fun hc => .ahead ((loop _).run hc)

theorem manyUntil_parts {p : Parse Node} {close : Kind} (hp : Reads p Spans) :
    Reads (manyUntil close p) (Parts Spans) :=
  hp.manyUntil .nil fun hn hs => .node hn hs

/-- The productions one level further in yield nodes that cover what they pass. -/
structure Nested.Covering (deep : Nested) : Prop where
  operand : Reads deep.operand Spans
  expression : Reads deep.expression Spans
  conditional : Reads deep.conditional Spans
  /-- A structure is only read at its keyword. -/
  struct : ∀ {c}, c.Ended → c.peek.kind.is .structOrUnion = true →
    Ensures (Spanned c) (deep.struct c)
  initializer : Reads deep.initializer Spans
  declarator : Reads deep.declarator Spans
  abstractDeclarator : Reads deep.abstractDeclarator Spans
  statement : Reads deep.statement Spans

namespace Grammar

variable {deep : Nested}

theorem binary_spans {p : Parse Node} (hp : Reads p Spans) {levels : List Expected}
    (hl : levels ⊆ ladder) : Reads (binary p levels) Spans := by
  induction levels with
  | nil => exact hp
  | cons level tighter ih =>
    have tight := ih (List.subset_of_cons_subset hl)
    refine .of_run fun {b} hc => .bind (tight.run hc) fun hn => ?_
    refine .iterate (P := Spanned b) (fun {n c} hn => .peekKind fun k hk => ?_) hn
    split
    next ha =>
      have hk : c.peek.kind ≠ .eof := by
        intro he
        rw [← hk, he] at ha
        exact (by decide : ∀ l ∈ ladder, ¬ l.accepts .eof = true) _ (hl List.mem_cons_self) ha
      refine .advance hn.after hk fun ht => .bind (tight.run ht.after) fun hm => .pure ?_
      exact ((hn.traced.token ht).node hm).close rfl rfl
    next => exact .pure hn

variable (hd : deep.Covering)
include hd

theorem conditional_spans : Reads (conditional deep) Spans := by
  refine .of_run fun hc => .bind ((binary_spans hd.operand (List.Subset.refl _)).run hc)
    fun hn => ?_
  refine .eat hn.after (by decide) (fun hq => ?_) (.pure hn)
  refine .bind (hd.expression.run hq.after) fun hy => .expect hy.after (by decide) fun ht => ?_
  refine .bind (hd.conditional.run ht.after) fun hz => .pure ?_
  exact ((((hn.traced.token hq).node hy).token ht).node hz).close rfl rfl

theorem assignment_spans : Reads (assignment deep) Spans := by
  have loop (n : Nat) : Reads (assignmentUpTo deep n) Spans := by
    induction n with
    | zero => exact conditional_spans hd
    | succ n ih =>
      refine .of_run fun hc => .bind ((conditional_spans hd).run hc) fun hn => .peekKind
        fun k hk => ?_
      split
      next ha =>
        split
        · refine .advance hn.after (hk ▸ Kind.ne_eof_of_is ha) fun ht => ?_
          refine .bind (ih.run ht.after) fun hm => .pure ?_
          exact ((hn.traced.token ht).node hm).close rfl rfl
        · exact .fail _
      next => exact .pure hn
  exact .of_run fun hc => .ahead ((loop _).run hc)

theorem expression_spans : Reads (expression deep) Spans := by
  refine .of_run fun hc => .bind ((commaList_row (assignment_spans hd)).run hc) fun hs => .pure ?_
  exact hs.mono fun h => h.1.collect h.2 rfl rfl

theorem condition_spans (hc : c.Ended) :
    Ensures (fun n d => ∃ l c' r d', Eats c l c' ∧ Spanned c' n d' ∧ Eats d' r d)
      (condition deep c) := by
  refine .expect hc (by decide) fun hl => .bind ((expression_spans hd).run hl.after) fun hn => ?_
  exact .expect hn.after (by decide) fun hr => .pure ⟨_, _, _, _, hl, hn, hr⟩

theorem enumerator_spans : Reads (enumerator deep) Spans := by
  refine .of_run fun hc => .expect hc (by decide) fun ht => ?_
  refine .after (conditional_spans hd) ht.after (by decide) fun ho => .pure ?_
  exact (ht.first.tail ho).close rfl rfl

theorem enumSpecifier_spans (hc : c.Ended) (hk : c.peek.kind = .kwEnum) :
    Ensures (Spanned c) (enumSpecifier deep c) := by
  refine .advance hc (by simp [hk]) fun ht => ?_
  refine .bind ((eat?_tokens (by decide)).run ht.after) fun {o _} ho => ?_
  refine .eat ho.after (by decide) (fun hl => ?_) ?_
  · refine .bind ((bracedItems_parts (enumerator_spans hd)).run hl.after) fun hs => ?_
    refine .expect hs.after (by decide) fun hr => .pure ?_
    exact (ht.first.enclosed ((ho.eaten.append hl.eats).append hs) hr).close rfl rfl
  · cases o with
    | none => exact .fail _
    | some name => exact .pure ((ht.first.token (t := name) (ho.mono id)).close rfl rfl)

omit hd in
theorem atomicSpecifier_spans {p : Parse Node} (hp : Reads p Spans) (hc : c.Ended)
    (hk : c.peek.kind ≠ .eof) : Ensures (Spanned c) (atomicSpecifier p c) := by
  refine .advance hc hk fun ht => .expect ht.after (by decide) fun hl => ?_
  refine .bind (hp.run hl.after) fun hn => .expect hn.after (by decide) fun hr => .pure ?_
  exact (((ht.first.token hl).node hn).token hr).close rfl rfl

omit hd in
theorem keywordNode_spans (ht : Eats c t d) : Spanned c t.keywordNode d := by
  refine ht.mono ?_
  rintro _ rfl
  exact .keywordNode t

omit hd in
theorem identNode_spans (ht : Eats c t d) : Spanned c t.identNode d := by
  refine ht.mono ?_
  rintro _ rfl
  exact .identNode t

theorem specifier?_spans {p : Parse Node} (hp : Reads p Spans) (seen : Bool) :
    Reads (specifier? deep p seen) (StepReads fun xs r => Spans xs r.1) := by
  refine .of_run fun {c} hc => .peekKind fun k hk => .ahead ?_
  have word {b : Bool} (hne : k ≠ .eof) :
      Ensures (Between (StepReads fun xs (r : Node × Bool) => Spans xs r.1) c)
        ((do return some ((← advance).keywordNode, b)) c) :=
    .advance hc (hk ▸ hne) fun ht => .pure ((keywordNode_spans ht).mono id)
  split
  next hg =>
    simp only [Bool.and_eq_true, beq_iff_eq] at hg
    exact .bind (atomicSpecifier_spans hp hc (by simp [hk, hg.1])) fun hn => .pure (hn.mono id)
  split
  next hg =>
    simp only [Bool.or_eq_true] at hg
    obtain (hg | hg) | hg := hg <;> exact word (Kind.ne_eof_of_is hg)
  split
  next hg => exact word (Kind.ne_eof_of_is hg)
  split
  next hg => exact .bind (hd.struct hc (hk ▸ hg)) fun hn => .pure (hn.mono id)
  split
  next hg =>
    exact .bind (enumSpecifier_spans hd hc (hk.trans (eq_of_beq hg))) fun hn => .pure (hn.mono id)
  split
  next hg =>
    simp only [Bool.and_eq_true, beq_iff_eq] at hg
    refine .advance hc (by simp [hk, hg.1]) fun ht => .pure ((identNode_spans ht).mono id)
  next => exact .pure (.refl hc rfl)

omit hd in
theorem specifierNode_spans {wrap : List Node → Shape Node} (hs : Between Row c ns d)
    (hw : ∀ ns, (wrap ns).isPlain = true) (hr : ∀ ns, (wrap ns).children = ns) :
    Ensures (Spanned c) (specifierNode wrap ns d) := by
  rw [specifierNode]
  split
  · exact .fail _
  next hne =>
    exact .pure (hs.mono fun h => h.collect (by simpa using hne) (hw ns) (hr ns))

theorem typeNameOf_spans (hs : Between Row c ns d) :
    Ensures (Spanned c) (typeNameOf deep ns d) := by
  refine .bind (specifierNode_spans hs (fun _ => rfl) fun _ => rfl) fun hq => .peekKind
    fun k hk => ?_
  split
  · refine .bind (hd.abstractDeclarator.run hq.after) fun hn => .pure ?_
    exact (hq.traced.node hn).close rfl rfl
  · exact .pure hq

theorem specifiersUpTo_spans (n : Nat) (seen : Bool) : Reads (specifiersUpTo deep n seen) Row := by
  induction n generalizing seen with
  | zero => exact .of_run fun hc => .pure (.refl hc .nil)
  | succ n ih =>
    have inner : Reads (do typeNameOf deep (← specifiersUpTo deep n false)) Spans :=
      .of_run fun hc => .bind ((ih false).run hc) fun hs => typeNameOf_spans hd hs
    refine .of_run fun hc => .bind ((specifier?_spans hd inner seen).run hc) fun {o _} ho => ?_
    cases o with
    | none => exact .pure (ho.mono (by rintro _ rfl; exact .nil))
    | some r => exact .bind ((ih r.2).run ho.after) fun hs => .pure (ho.trans hs Row.cons)

theorem specifierList_spans : Reads (specifierList deep) Row :=
  .of_run fun hc => .ahead ((specifiersUpTo_spans hd _ _).run hc)

theorem declSpecs_spans : Reads (declSpecs deep) Spans :=
  .of_run fun hc => .bind ((specifierList_spans hd).run hc) fun hs =>
    specifierNode_spans hs (fun _ => rfl) fun _ => rfl

theorem specQuals_spans : Reads (specQuals deep) Spans :=
  .of_run fun hc => .bind ((specifierList_spans hd).run hc) fun hs =>
    specifierNode_spans hs (fun _ => rfl) fun _ => rfl

theorem typeName_spans : Reads (typeName deep) Spans :=
  .of_run fun hc => .bind ((specifierList_spans hd).run hc) fun hs => typeNameOf_spans hd hs

theorem primary_spans : Reads (primary deep) Spans := by
  refine .of_run fun {c} hc => .peekKind fun k hk => ?_
  split
  · exact .advance hc (by simp [hk]) fun ht => .pure (identNode_spans ht)
  · refine .advance hc (by simp [hk]) fun {t _} ht => .pure (ht.mono ?_)
    rintro _ rfl
    have single := Spans.constant t []
    rwa [Token.texts, List.map_singleton, String.intercalate_singleton] at single
  · refine .bind (strings_reads.run hc) fun hs => .pure (hs.mono ?_)
    rintro _ ⟨rfl, -⟩
    exact .constant _ _
  · refine .advance hc (by simp [hk]) fun ht => .bind ((expression_spans hd).run ht.after)
      fun hn => ?_
    refine .expect hn.after (by decide) fun hr => .pure ?_
    exact ((ht.first.node hn).token hr).close rfl rfl
  · exact .fail _

theorem arguments_spans : Reads (arguments deep) (Parts Spans) := by
  refine .of_run fun hc => .check ?_
  split
  · exact .pure (.refl hc .nil)
  · refine .bind ((commaList_parts (assignment_spans hd)).run hc) fun hs => .check ?_
    split
    · exact .pure hs
    · exact .fail _

/-- What follows an operand covers it too. -/
theorem access?_spans (hn : Spanned b n c) :
    Ensures (fun o d => Spanned b (o.getD n) d) (access? deep n c) := by
  refine .peekKind fun k hk => ?_
  split
  · refine .advance hn.after (by simp [hk]) fun hl => ?_
    refine .bind ((expression_spans hd).run hl.after) fun hi => ?_
    refine .expect hi.after (by decide) fun hr => .pure ?_
    exact (((hn.traced.token hl).node hi).token hr).close rfl rfl
  · refine .advance hn.after (by simp [hk]) fun hl => ?_
    refine .bind ((arguments_spans hd).run hl.after) fun {ns _} hs => ?_
    refine .expect hs.after (by decide) fun hr => .pure ?_
    refine ((hn.traced.token hl).enclosed hs hr).close rfl ?_
    rw [Shape.children, Node.getD_nonempty?]
  iterate 2
    · refine .advance hn.after (by simp [hk]) fun hop => ?_
      refine .expect hop.after (by decide) fun ht => .pure ?_
      exact ((hn.traced.token hop).token ht).close rfl rfl
  iterate 2
    · refine .advance hn.after (by simp [hk]) fun hop => .pure ?_
      exact (hn.traced.token hop).close rfl rfl
  · exact .pure hn

theorem postfixed_spans : Reads (postfixed deep) Spans :=
  .of_run fun {b} hc => .bind ((primary_spans hd).run hc) fun hn =>
    .iterate (P := Spanned b) (fun hn => access?_spans hd hn) hn

omit hd in
theorem prefixOperator?_spans : Reads prefixOperator? (StepReads fun xs op => xs = [op]) :=
  prefixOperator?_reads.mono fun _ o h => by cases o <;> simp_all [StepReads]

theorem unaryBody_spans : Reads (unaryBody deep) Spans := by
  refine .of_run fun hc => .peekKind fun k hk => ?_
  split
  next hg =>
    refine .advance hc (by simp [hk, eq_of_beq hg]) fun ht => .expect ht.after (by decide)
      fun hl => ?_
    refine .bind ((typeName_spans hd).run hl.after) fun hn => ?_
    refine .expect hn.after (by decide) fun hr => .pure ?_
    exact (((ht.first.token hl).node hn).token hr).close rfl rfl
  split
  next hg =>
    refine .advance hc (hk ▸ Kind.ne_eof_of_is hg) fun ht => ?_
    refine .bind (hd.operand.run ht.after) fun hn => .pure ?_
    exact (ht.first.node hn).close rfl rfl
  · exact (postfixed_spans hd).run hc

theorem unary_spans : Reads (unary deep) Spans := by
  -- The operators read before a body wrap it, the last one first.
  have wraps := many_reads (P := fun xs ops => ∀ {ys e}, Spans ys e →
    Spans (xs ++ ys) (ops.foldr Node.prefixed e)) prefixOperator?_spans (fun h => h) (by
      rintro _ op xs ops rfl ih ys e he
      exact .prefixed op (ih he))
  exact .of_run fun hc => .bind (wraps.run hc) fun hops =>
    .bind ((unaryBody_spans hd).run hops.after) fun hn => .pure (hops.trans hn fun h hn => h hn)

theorem castPrefix?_spans : Reads (castPrefix? deep)
    (StepReads fun xs r => ∀ {ys e}, Spans ys e → Spans (xs ++ ys) (Node.cast r.1 r.2 e)) := by
  refine .of_run fun hc => .check (.ahead ?_)
  split
  next hk =>
    simp only [Bool.and_eq_true, beq_iff_eq] at hk
    refine .advance hc (by simp [hk.1]) fun hl => .bind ((typeName_spans hd).run hl.after)
      fun hn => ?_
    refine .expect hn.after (by decide) fun hr => .pure ?_
    refine ((hl.first.node hn).token hr).mono ?_
    intro xs hx ys e he
    exact (hx.node he).spans rfl rfl
  next => exact .pure (.refl hc rfl)

theorem operand_spans : Reads (operand deep) Spans := by
  have wraps := many_reads (P := fun xs casts => ∀ {ys e}, Spans ys e →
    Spans (xs ++ ys) (casts.foldr (fun r inner => Node.cast r.1 r.2 inner) e))
    (castPrefix?_spans hd) (fun h => h) (by
      rintro xs r ys casts hr ih zs e he
      simpa using hr (ih he))
  exact .of_run fun hc => .bind (wraps.run hc) fun hcasts =>
    .bind ((unary_spans hd).run hcasts.after) fun hn => .pure (hcasts.trans hn fun h hn => h hn)

end Grammar

end CPretty
