import CPretty.Proofs.Grammar.Blind.SourceFile
import CPretty.Proofs.Grammar.Walk

namespace CPretty

open Parse Place Linked

variable {α : Type} {e : Ending} {P Q : Place → Prop} {p q : Place} {xs ys ts ts' : List Token}
  {c c' d : Cursor} {t : Token} {n decl : Node} {ns : List Node}

theorem Runs.linked (h : Runs e p xs q) (hl : Linked e q ts ts') :
    Linked e p (xs ++ ts) (xs ++ ts') := by
  induction h with
  | nil => exact hl
  | cons hn hq _ ih => exact .token hn hq (ih hl)

theorem Walks.cursors (h : Walks e P xs Q) {f f' : Token} (hp : P p)
    (hat : ∀ q, Q q → e.At q.within t.kind) (hf : f.kind = .eof) (hf' : f'.kind = .eof) :
    Linked.Cursors e P ⟨xs ++ t :: e.left, f⟩ ⟨xs ++ t :: e.right, f'⟩ := by
  obtain ⟨q, hq, h⟩ := h p hp
  exact ⟨⟨p, hp, h.linked (.last (hat q hq) rfl rfl)⟩, hf, hf'⟩

theorem Linked.Cursors.ended_part (h : Linked.Cursors e P c c')
    (hat : ∀ p, P p → e.At p.within c.peek.kind) : c'.advance.ahead = e.right := by
  obtain ⟨⟨p, hp, ha⟩, hc, hc'⟩ := h
  obtain ⟨us, f⟩ := c
  obtain ⟨us', f'⟩ := c'
  cases ha with
  | nil => exact absurd (show e.At p.within .eof from hc ▸ hat p hp) (Ending.not_at (by decide))
  | token hn => exact absurd (hat p hp) hn
  | last _ _ hr => exact hr
  | trailing ht => exact absurd (ht ▸ hat _ hp) (Ending.not_at (by decide))

namespace Linked.Outcome

variable {D : List Token → α → Prop} {R R' : Cursor → Cursor → Prop} {p p' : Parse α} {a : α}
  {us : List Token}

theorem ok_right (h : Outcome (fun _ d' => d'.ahead = us) (p c) (p c')) (hr : Reads p D)
    (hc' : c'.Ended) (hp : p c = .ok (a, d)) : p c' = .ok (a, ⟨us, c'.finish⟩) := by
  rw [hp] at h
  generalize hp' : p c' = r' at h
  cases h with
  | @ok _ _ d' hd =>
    obtain ⟨xs, hx, -⟩ := hr hc' hp'
    obtain ⟨us', f⟩ := d'
    rw [show us' = us from hd, show f = c'.finish from hx.finish]

theorem error_right {x : ParseError} (h : Outcome R (p c) (p' c')) (hp : p c = .error x) :
    ∃ x', p' c' = .error x' ∧ x.isTooDeep = x'.isTooDeep := by
  rw [hp] at h
  generalize p' c' = r' at h
  cases h with
  | error he => exact ⟨_, rfl, he⟩

end Linked.Outcome

theorem Derives.declaration_walks (h : Derives .declaration xs [n]) :
    ∃ ys t, xs = ys ++ [t] ∧ t.kind = .semicolon ∧ Walks e (Free []) ys (Free []) := by
  cases h with
  | declaration hs hi ht =>
    refine ⟨_, _, rfl, ht, ?_⟩
    exact (hs.walks trivial).append
      (hi.walks ⟨⟨trivial, by simp, fun _ h => h.free (by decide)⟩, fun _ h => h⟩)
  | @staticAssert kw l ys _ t m ms r semi _ hk hl hcond ht hs hr hsemi =>
    refine ⟨kw :: (l :: (ys ++ t :: m :: ms) ++ [r]), semi, by simp, hsemi, ?_⟩
    have texts := (Walks.inner (e := e) (s := [.paren]) fun t ht => by rw [hs t ht]; rfl).toFree
    have inside := (hcond.walks (s := [.paren]) trivial).toFree.append
      (.cons (.comma (by simp)) ht texts.ofFree_list)
    exact (Walks.cons (.inner rfl) hk (.ofFree (.parens hl inside hr))).toFree

theorem Derives.compound_walks (h : Derives .compound xs [n]) :
    ∃ ys t, xs = ys ++ [t] ∧ t.kind = .rBrace ∧ Walks e (At [] .block) ys (At [.block] .block) := by
  cases h with
  | compound hl hitems hr =>
    exact ⟨_, _, rfl, hr, .cons .block hl (hitems.walks ⟨rfl, fun _ h => h⟩)⟩

theorem Derives.definition_walks (h : Derives .external xs [n])
    (hn : ∃ sp specs name params ds body, n = ⟨sp, .func specs name params ds body⟩)
    (he : e.part = .definition) :
    ∃ ys t, xs = ys ++ [t] ∧ t.kind = .rBrace ∧ Walks e (At [] .block) ys (At [.block] .block) := by
  obtain ⟨sp, specs, name, params, ds, body, rfl⟩ := hn
  cases h with
  | definition hs hd _ hds hbody =>
    have apart := Ending.not_at_semicolon_of (s := []) (e := e) (by rw [he]; decide)
    have header := (hs.walks (e := e) ⟨trivial, fun _ h => h⟩).ofFree.append
      (hd.walks (s := []) trivial)
    have params := hds.walks (s := []) (e := e) ⟨⟨by simp, apart⟩, fun _ h => h.free (by decide)⟩
    obtain ⟨ys, t, rfl, ht, body⟩ := hbody.compound_walks (e := e)
    exact ⟨_, t, (List.append_assoc _ _ _).symm, ht, (header.append params).append body⟩
  | ofDeclaration h => cases h

/-- A declarator does not start with a semicolon. -/
theorem Derives.not_semicolon {ph : Phrase} (h : Derives ph xs ns)
    (hp : ph = .direct ∨ ph = .declarator) : ∃ t ts, xs = t :: ts ∧ t.kind ≠ .semicolon := by
  have append {us : List Token} (h : ∃ t ts, us = t :: ts ∧ t.kind ≠ .semicolon)
      (vs : List Token) : ∃ t ts, us ++ vs = t :: ts ∧ t.kind ≠ .semicolon := by
    obtain ⟨t, ts, rfl, ht⟩ := h
    exact ⟨t, ts ++ vs, rfl, ht⟩
  induction h with
  | directName ht => exact ⟨_, _, rfl, by rw [ht]; decide⟩
  | directNested hl => exact ⟨_, _, rfl, by rw [hl]; decide⟩
  | array _ _ _ _ ih =>
    rw [List.append_assoc]
    exact append (ih (.inl rfl)) _
  | function _ _ _ _ ih =>
    rw [List.append_assoc]
    exact append (ih (.inl rfl)) _
  | ofDirect _ ih => exact ih (.inl rfl)
  | pointer ht => exact ⟨_, _, rfl, by rw [ht]; decide⟩
  | _ => rcases hp with hp | hp <;> cases hp

namespace Grammar

variable {deep : Nested} {specs : Option Node} {f : Token}

theorem declSpecs_error
    (hk : c.peek.kind ∈ [Kind.eq, .comma, .semicolon, .kwStaticAssert, .star, .lParen]) :
    declSpecs deep c = .error (c.failure [.production "declaration specifiers"]) := by
  have none (tn : Parse Node) : specifier? deep tn false c = .ok (none, c) := by
    rw [specifier?, bind_of_ok (peekKind_apply c), bind_of_ok (ahead_apply c)]
    generalize c.peek.kind = k at hk
    simp only [List.mem_cons, List.not_mem_nil, or_false] at hk
    obtain rfl | rfl | rfl | rfl | rfl | rfl := hk <;> rfl
  have list : specifierList deep c = .ok ([], c) := by
    rw [specifierList, bind_of_ok (ahead_apply c), specifiersUpTo, bind_of_ok (none _)]
    rfl
  rw [declSpecs, bind_of_ok list]
  rfl

theorem parameterDeclarations_error (hk : c.peek.kind ∈ [Kind.eq, .comma, .semicolon]) :
    many (do if ← check .lBrace then return none else return some (← declaration deep)) c =
      .error (c.failure [.production "declaration specifiers"]) := by
  have hn : ∀ k ∉ [Kind.eq, .comma, .semicolon], ¬ (c.peek.kind == k) = true := by
    intro k hk' he
    exact hk' (eq_of_beq he ▸ hk)
  have specs : declSpecs deep c = .error (c.failure [.production "declaration specifiers"]) :=
    declSpecs_error (List.mem_append_left [Kind.kwStaticAssert, .star, .lParen] hk)
  have item : declaration deep c = .error (c.failure [.production "declaration specifiers"]) := by
    rw [declaration, bind_of_ok (check_apply _ c), if_neg (hn _ (by decide)), bind_of_error specs]
  rw [many, bind_of_ok (ahead_apply c), manyUpTo]
  refine bind_of_error ?_
  rw [bind_of_ok (check_apply _ c), if_neg (hn _ (by decide)), bind_of_error item]

/-- In a declaration an initializer, a comma or the semicolon comes after the first declarator. -/
theorem kind_after_declarator {c₁ c₂ : Cursor} {specs : Node} (h : deep.Sound) (hc : c.Ended)
    (hr : declaration deep c = .ok (n, d)) (hs : declSpecs deep c = .ok (specs, c₁))
    (hn : deep.declarator c₁ = .ok (decl, c₂)) :
    c₂.peek.kind ∈ [Kind.eq, .comma, .semicolon] := by
  rw [declaration, bind_of_ok (check_apply _ c)] at hr
  split at hr
  next hk =>
    rw [declSpecs_error (by rw [eq_of_beq hk]; decide)] at hs
    cases hs
  rw [bind_of_ok hs, bind_of_ok (check_apply _ c₁)] at hr
  obtain ⟨xs, p, -⟩ := declSpecs_reads h hc hs
  split at hr
  next hk =>
    obtain ⟨ys, p', hd⟩ := h.declarator (p.ended hc) hn
    obtain ⟨t, ts, rfl, ht⟩ := hd.not_semicolon (.inr rfl)
    rw [Cursor.peek, p'.ahead] at hk
    exact absurd (eq_of_beq hk) ht
  by_cases he : c₂.peek.kind = .eq
  · simp [he]
  by_cases hm : c₂.peek.kind = .comma
  · simp [hm]
  have init : initDeclarator deep c₁ =
      .ok (Node.between decl.span decl.span (.initDecl decl none), c₂) := by
    rw [initDeclarator, bind_of_ok hn, bind_of_ok (eat_of_ne he)]
    rfl
  have items : commaItems (initDeclarator deep) c₂ = .ok ([], c₂) := by
    rw [commaItems, many, bind_of_ok (ahead_apply c₂), manyUpTo]
    have stop : (do if ← eat .comma then return some (← initDeclarator deep) else return none :
        Parse (Option Node)) c₂ = .ok (none, c₂) := by
      rw [bind_of_ok (eat_of_ne hm)]
      rfl
    rw [bind_of_ok stop]
    rfl
  have list : commaList (initDeclarator deep) c₁ =
      .ok ([Node.between decl.span decl.span (.initDecl decl none)], c₂) := by
    rw [commaList, bind_of_ok init, bind_of_ok items]
    rfl
  rw [bind_of_ok list] at hr
  obtain ⟨o, c₃, h₃, hr⟩ := bind_ok hr
  rw [eat?_apply] at h₃
  split at h₃
  next hk => simp [eq_of_beq hk]
  next =>
    cases h₃
    cases hr

theorem func_of_functionDefinition (h : functionDefinition deep specs c = .ok (n, d)) :
    ∃ sp specs name params ds body, n = ⟨sp, .func specs name params ds body⟩ := by
  obtain ⟨decl, c₁, -, h⟩ := bind_ok h
  split at h
  · obtain ⟨ds, c₂, -, h⟩ := bind_ok h
    obtain ⟨body, c₃, -, h⟩ := bind_ok h
    obtain ⟨rfl, -⟩ := pure_ok h
    exact ⟨_, _, _, _, _, _, rfl⟩
  · cases h

/-- The first reading of an external declaration: a function definition with specifiers. -/
abbrev typed (deep : Nested) : Parse Node := do functionDefinition deep (some (← declSpecs deep))

theorem typed_outcome {Q : Cursor → Cursor → Prop} (h : Linked.Nesteds e deep)
    (he : e.part ≠ .declaration) (hc : Linked.Cursors e (At [] .block) c c')
    (hQ : ∀ {d d'}, d.peek.kind = .rBrace → Linked.Cursors e (At [.block] .block) d d' →
      Q d.advance d'.advance) : Linked.Outcome Q (typed deep c) (typed deep c') :=
  .bind (declSpecs_blind h hc.free) fun hd => functionDefinition_outcome h he hd hQ

theorem typed_outcome_of_declaration {Q : Cursor → Cursor → Prop} (h : Linked.Nesteds e deep)
    (hc : Linked.Cursors e (At [] .block) c c') (hr : declaration deep c = .ok (n, d)) :
    Linked.Outcome Q (typed deep c) (typed deep c') := by
  refine .bindOk (declSpecs_blind h hc.free) fun {_ c₁ c₁'} hs _ hd => ?_
  refine .bindOk (h.declarator (by simp) hd) fun {_ c₂ c₂'} hn _ hd => ?_
  split
  · have hk := kind_after_declarator h.sound hc.ended hr hs hn
    have hk' : c₂'.peek.kind ∈ [Kind.eq, .comma, .semicolon] := by
      rwa [← hd.kind_eq fun _ h => by cases h]
    rw [bind_of_error (parameterDeclarations_error hk),
      bind_of_error (parameterDeclarations_error hk')]
    exact .error rfl
  · exact .fail _

theorem cursors_append {zs : List Token} (p : c.Passes (zs ++ [t]) d) (hc : c.Ended)
    (hf : f.kind = .eof) (hw : Walks e (At [] .block) zs Q)
    (hat : ∀ q, Q q → e.At q.within t.kind) (hl : e.left = d.ahead) :
    Linked.Cursors e (At [] .block) c ⟨zs ++ [t] ++ e.right, f⟩ := by
  have all := hw.cursors rfl hat hc hf
  have ahead : c.ahead = zs ++ t :: e.left := by
    rw [p.ahead, hl, List.append_assoc, List.singleton_append]
  rwa [← ahead, List.append_cons zs] at all

section Append

variable (h : ∀ e, Linked.Nesteds e deep) (hc : c.Ended) (hf : f.kind = .eof)
  (hp : c.Passes xs d) (us : List Token)
include h hc hf hp

/-- A function definition is read up to the brace that closes its body. -/
theorem definition_append (hx : Derives .external xs [n])
    (hn : ∃ sp specs name params ds body, n = ⟨sp, .func specs name params ds body⟩)
    (hr : typed deep c = .ok (n, d) ∨
      ∃ x, either (typed deep) (declaration deep) c = .error x ∧ ¬ x.isTooDeep = true ∧
        functionDefinition deep none c = .ok (n, d)) :
    externalDeclaration deep ⟨xs ++ us, f⟩ = .ok (n, ⟨us, f⟩) := by
  let e : Ending := ⟨.definition, d.ahead, us⟩
  have part : e.part ≠ .declaration := nofun
  have hl : Linked.Cursors e (At [] .block) c ⟨xs ++ us, f⟩ := by
    obtain ⟨zs, t, rfl, ht, hw⟩ := hx.definition_walks (e := e) hn rfl
    exact cursors_append hp hc hf hw (by rintro _ rfl; exact .inl ⟨rfl, rfl, ht⟩) rfl
  have brace {c c' : Cursor} (hk : c.peek.kind = .rBrace)
      (hc : Linked.Cursors e (At [.block] .block) c c') : c'.advance.ahead = us :=
    hc.ended_part (by rintro _ rfl; exact .inl ⟨rfl, rfl, hk⟩)
  have out := typed_outcome (Q := fun _ d' => d'.ahead = us) (h e) part hl brace
  obtain hr | ⟨x, hx, hn, hr⟩ := hr
  · exact either_of_ok (either_of_ok (out.ok_right (typedDefinition_reads (h e).sound) hf hr) _) _
  · have decl := declaration_blind (h e) (by simp) (Ending.not_at_semicolon_of part) hl.free
    have first := Linked.Outcome.either (Q := fun _ _ => True) (out.mono fun _ => trivial)
      (decl.mono fun _ => trivial)
    obtain ⟨y, hy, he⟩ := first.error_right hx
    have second : Linked.Outcome (fun _ d' => d'.ahead = us)
        (functionDefinition deep none c) (functionDefinition deep none ⟨xs ++ us, f⟩) :=
      functionDefinition_outcome (h e) part hl.free brace
    exact either_of_error hy (he ▸ hn)
      (second.ok_right (untypedDefinition_reads (h e).sound) hf hr)

/-- A declaration is read up to its semicolon. -/
theorem declaration_append (hx : Derives .declaration xs [n]) {x : ParseError}
    (he : typed deep c = .error x) (hn : ¬ x.isTooDeep = true)
    (hr : declaration deep c = .ok (n, d)) :
    externalDeclaration deep ⟨xs ++ us, f⟩ = .ok (n, ⟨us, f⟩) := by
  let e : Ending := ⟨.declaration, d.ahead, us⟩
  have hl : Linked.Cursors e (At [] .block) c ⟨xs ++ us, f⟩ := by
    obtain ⟨zs, t, rfl, ht, hw⟩ := hx.declaration_walks (e := e)
    refine cursors_append hp hc hf hw.ofFree ?_ rfl
    rintro _ ⟨_, _, rfl⟩
    exact .inr (.inl ⟨rfl, rfl, ht⟩)
  have semicolon {c c' : Cursor} (hk : c.peek.kind = .semicolon)
      (hc : Linked.Cursors e (Free []) c c') : c'.advance.ahead = us :=
    hc.ended_part (by rintro _ ⟨_, _, rfl⟩; exact .inr (.inl ⟨rfl, rfl, hk⟩))
  have first := typed_outcome_of_declaration (Q := fun _ _ => True) (h e) hl hr
  obtain ⟨y, hy, hxy⟩ := first.error_right he
  have out := declaration_outcome (Q := fun _ d' => d'.ahead = us) (h e) (by simp)
    hl.free semicolon
  have decl := out.ok_right (declaration_reads (h e).sound) hf hr
  exact either_of_ok (either_of_error hy (hxy ▸ hn) decl) _

end Append

/-- What stands behind a function definition or a declaration does not bear on how it is read. -/
theorem externalDeclaration_append (h : ∀ e, Linked.Nesteds e deep) (hc : c.Ended)
    (hf : f.kind = .eof) (hp : c.Passes xs d) (hr : externalDeclaration deep c = .ok (n, d))
    (us : List Token) : externalDeclaration deep ⟨xs ++ us, f⟩ = .ok (n, ⟨us, f⟩) := by
  have sound := (h ⟨.source, [], []⟩).sound
  obtain hr | ⟨x, hx, hn, hr⟩ := either_cases hr
  · obtain hr | ⟨x, hx, hn, hr⟩ := either_cases hr
    · obtain ⟨ys, py, hder⟩ := typedDefinition_reads sound hc hr
      obtain rfl := hp.unique py
      obtain ⟨specs, c₁, -, hdef⟩ := bind_ok hr
      exact definition_append h hc hf hp us hder (func_of_functionDefinition hdef) (.inl hr)
    · obtain ⟨ys, py, hder⟩ := declaration_reads sound hc hr
      obtain rfl := hp.unique py
      exact declaration_append h hc hf hp us hder hx hn hr
  · obtain ⟨ys, py, hder⟩ := untypedDefinition_reads sound hc hr
    obtain rfl := hp.unique py
    exact definition_append h hc hf hp us hder (func_of_functionDefinition hr)
      (.inr ⟨x, hx, hn, hr⟩)

end Grammar
end CPretty
