import CPretty.Proofs.Grammar.Soundness.Expression

namespace CPretty

open Parse

attribute [local simp] Node.between Token.leaf Token.identNode Token.keywordNode Node.pointer

namespace Grammar

theorem qualifier?_reads :
    Reads qualifier? (StepReads fun xs n => Derives .qualifier xs [n]) := by
  intro c o d hc h
  obtain ⟨k, c₁, h₁, h⟩ := bind_ok h
  cases h₁
  split at h
  · rename_i hk
    obtain ⟨t, c₁, h₁, h⟩ := bind_ok h
    obtain ⟨ht, p⟩ := advance_of_is h₁ hc hk
    obtain ⟨rfl, rfl⟩ := pure_ok h
    exact ⟨_, p, .qualifier ht⟩
  · obtain ⟨rfl, rfl⟩ := pure_ok h
    exact ⟨[], .refl d, rfl⟩

theorem pointerLevel?_reads : Reads pointerLevel? (StepReads fun xs r => ∃ ys,
    xs = r.1 :: ys ∧ Token.Of .star r.1 ∧ Derives (.sequence .qualifier) ys r.2) := by
  intro c o d hc h
  obtain ⟨star, c₁, h₁, h⟩ := bind_ok h
  obtain ⟨p₁, hs, -⟩ := eat?_ok h₁ hc (by decide)
  cases star with
  | none =>
    obtain ⟨rfl, rfl⟩ := pure_ok h
    exact ⟨[], p₁, rfl⟩
  | some t =>
    obtain ⟨qs, c₂, h₂, h⟩ := bind_ok h
    obtain ⟨ys, p₂, hq⟩ := many_reads qualifier?_reads Derives.sequenceNil
      (fun h => Derives.sequenceMore h) (p₁.ended hc) h₂
    obtain ⟨rfl, rfl⟩ := pure_ok h
    exact ⟨_, p₁.trans p₂, ys, rfl, hs t rfl, hq⟩

theorem parameterEnd_ok {c d : Cursor} {u : Unit} (h : parameterEnd c = .ok (u, d)) : c = d := by
  obtain ⟨b, c₁, h₁, h⟩ := bind_ok h
  cases h₁
  obtain ⟨b', c₁, h₁, h⟩ := bind_ok h
  cases h₁
  split at h <;> cases h
  rfl

variable {b c d : Cursor} {n : Node} {deep : Nested} (hd : deep.Sound)
include hd

theorem parameterDeclarator_reads : Reads (parameterDeclarator deep) fun xs o =>
    Derives (.optional .paramDeclarator) xs o.toList := by
  refine .either (.either ?_ ?_) ?_
  · intro c o d hc h
    obtain ⟨a, c₁, h₁, h⟩ := bind_ok h
    obtain ⟨xs, p, ha⟩ := hd.declarator hc h₁
    obtain ⟨u, c₂, h₂, h⟩ := bind_ok h
    cases parameterEnd_ok h₂
    obtain ⟨rfl, rfl⟩ := pure_ok h
    exact ⟨xs, p, .present (.paramNamed ha)⟩
  · intro c o d hc h
    obtain ⟨a, c₁, h₁, h⟩ := bind_ok h
    obtain ⟨xs, p, ha⟩ := hd.abstractDeclarator hc h₁
    obtain ⟨u, c₂, h₂, h⟩ := bind_ok h
    cases parameterEnd_ok h₂
    obtain ⟨rfl, rfl⟩ := pure_ok h
    exact ⟨xs, p, .present (.paramUnnamed ha)⟩
  · intro c o d hc h
    obtain ⟨u, c₁, h₁, h⟩ := bind_ok h
    cases parameterEnd_ok h₁
    obtain ⟨rfl, rfl⟩ := pure_ok h
    exact ⟨[], .refl d, .absent⟩

theorem parameter_reads : ReadsAs (parameter deep) .param := by
  intro c n d hc h
  obtain ⟨s, c₁, h₁, h⟩ := bind_ok h
  obtain ⟨xs, p₁, hs⟩ := declSpecs_reads hd hc h₁
  obtain ⟨o, c₂, h₂, h⟩ := bind_ok h
  obtain ⟨ys, p₂, ho⟩ := parameterDeclarator_reads hd (p₁.ended hc) h₂
  obtain ⟨rfl, rfl⟩ := pure_ok h
  refine ⟨xs ++ ys, p₁.trans p₂, ?_⟩
  simpa using Derives.param hs ho

/-- A bound above the number of tokens left is never used up, so the list ends in a parameter. -/
theorem parametersUpTo_reads {m : Nat} {ns : List Node} (hc : c.Ended) (hm : c.ahead.length < m)
    (h : parametersUpTo deep m c = .ok (ns, d)) :
    ∃ xs, c.Passes xs d ∧ Derives .paramList xs ns := by
  induction m generalizing c d ns with
  | zero => exact absurd hm (Nat.not_lt_zero _)
  | succ m ih =>
    obtain ⟨n, c₁, h₁, h⟩ := bind_ok h
    obtain ⟨xs, p₁, hn⟩ := parameter_reads hd hc h₁
    obtain ⟨b, c₂, h₂, h⟩ := bind_ok h
    obtain ⟨rfl, t, ht, p₂⟩ | ⟨rfl, rfl, -⟩ := eat_ok h₂ (p₁.ended hc) (by decide)
    · have hc₂ := p₂.ended (p₁.ended hc)
      obtain ⟨o, c₃, h₃, h⟩ := bind_ok h
      obtain ⟨p₃, ho, -⟩ := eat?_ok h₃ hc₂ (by decide)
      cases o with
      | none =>
        obtain ⟨ms, c₄, h₄, h⟩ := bind_ok h
        have hlt := p₁.length_lt hn.ne_nil
        obtain ⟨ys, p₄, hms⟩ := ih (p₃.ended hc₂)
          (by have := p₂.length_le; have := p₃.length_le; omega) h₄
        obtain ⟨rfl, rfl⟩ := pure_ok h
        exact ⟨_, p₁.trans (p₂.trans (p₃.trans p₄)), .moreParams hn ht hms⟩
      | some dots =>
        obtain ⟨rfl, rfl⟩ := pure_ok h
        exact ⟨_, p₁.trans (p₂.trans p₃), .ellipsis hn ht (ho dots rfl)⟩
    · obtain ⟨rfl, rfl⟩ := pure_ok h
      exact ⟨xs, p₁, .lastParam hn⟩

omit hd in
theorem name_reads : ReadsAs (Token.identNode <$> expect .ident) .name := by
  intro c n d hc h
  obtain ⟨t, hp, rfl⟩ := map_ok h
  obtain ⟨ht, p⟩ := expect_ok hp hc (by decide)
  exact ⟨[t], p, .name ht⟩

theorem parameterList_reads : Reads (parameterList deep) fun xs o =>
    ∃ ps, Derives (.optional .params) xs ps ∧ o = Node.nonempty? ps := by
  intro c o d hc h
  obtain ⟨b, c₁, h₁, h⟩ := bind_ok h
  cases h₁
  split at h
  · obtain ⟨rfl, rfl⟩ := pure_ok h
    exact ⟨[], .refl d, [], .absent, rfl⟩
  · obtain ⟨ts, c₁, h₁, h⟩ := bind_ok h
    cases h₁
    split at h
    · obtain ⟨ns, c₁, h₁, h⟩ := bind_ok h
      obtain ⟨xs, p, hn⟩ := commaList_reads name_reads hc h₁
      obtain ⟨rfl, rfl⟩ := pure_ok h
      exact ⟨xs, p, ns, .present (.names hn), by simp [Node.nonempty?, hn.commas_ne_nil]⟩
    · obtain ⟨ts, c₁, h₁, h⟩ := bind_ok h
      cases h₁
      obtain ⟨ns, c₁, h₁, h⟩ := bind_ok h
      obtain ⟨xs, p, hn⟩ := parametersUpTo_reads hd hc (Nat.lt_succ_self _) h₁
      obtain ⟨b, c₂, h₂, h⟩ := bind_ok h
      cases h₂
      split at h
      · obtain ⟨rfl, rfl⟩ := pure_ok h
        refine ⟨xs, p, ns, .present (.typedParams hn), ?_⟩
        have : ns ≠ [] := by cases hn <;> exact List.cons_ne_nil _ _
        simp [Node.nonempty?, this]
      · cases h

/-- What a suffix makes of the declarator before it. -/
theorem suffix?_reads (decl : Option Node) : Reads (suffix? deep decl) (StepReads fun xs n =>
    ∃ l ys r, xs = l :: ys ++ [r] ∧
      ((∃ size sp, Token.Of .lBracket l ∧ Derives (.optional .assignment) ys size ∧
          Token.Of .rBracket r ∧ n = ⟨sp, .array decl size.head?⟩) ∨
        ∃ ps sp, Token.Of .lParen l ∧ Derives (.optional .params) ys ps ∧ Token.Of .rParen r ∧
          n = ⟨sp, .function decl (Node.nonempty? ps)⟩)) := by
  intro c o d hc h
  obtain ⟨k, c₁, h₁, h⟩ := bind_ok h
  cases h₁
  generalize hk : c.peek.kind = k at h
  split at h
  · obtain ⟨l, c₁, h₁, h⟩ := bind_ok h
    obtain ⟨hl, p₁⟩ := advance_of_kind h₁ hc hk (by decide)
    have hc₁ := p₁.ended hc
    obtain ⟨b, c₂, h₂, h⟩ := bind_ok h
    cases h₂
    have size : ∃ size ys c₃ r, c₁.Passes ys c₃ ∧ Derives (.optional .assignment) ys size ∧
        Token.Of .rBracket r ∧ c₃.Passes [r] d ∧
        o = some (Node.between (Node.spanOr decl l.span) r.span (.array decl size.head?)) := by
      split at h
      · obtain ⟨v, c₃, h₃, h⟩ := bind_ok h
        cases h₃
        obtain ⟨r, c₃, h₃, h⟩ := bind_ok h
        obtain ⟨hr, p₃⟩ := expect_ok h₃ hc₁ (by decide)
        obtain ⟨rfl, rfl⟩ := pure_ok h
        exact ⟨[], [], c₁, r, .refl c₁, .absent, hr, p₃, rfl⟩
      · obtain ⟨v, c₃, h₃, h⟩ := bind_ok h
        obtain ⟨e, he, rfl⟩ := map_ok h₃
        obtain ⟨ys, p₃, he⟩ := assignment_reads hd hc₁ he
        obtain ⟨r, c₄, h₄, h⟩ := bind_ok h
        obtain ⟨hr, p₄⟩ := expect_ok h₄ (p₃.ended hc₁) (by decide)
        obtain ⟨rfl, rfl⟩ := pure_ok h
        exact ⟨[e], ys, c₃, r, p₃, .present he, hr, p₄, rfl⟩
    obtain ⟨size, ys, c₃, r, p₃, hs, hr, p₄, rfl⟩ := size
    exact ⟨_, p₁.trans (p₃.trans p₄), l, ys, r, rfl, .inl ⟨size, _, hl, hs, hr, rfl⟩⟩
  · obtain ⟨l, c₁, h₁, h⟩ := bind_ok h
    obtain ⟨hl, p₁⟩ := advance_of_kind h₁ hc hk (by decide)
    obtain ⟨o, c₂, h₂, h⟩ := bind_ok h
    obtain ⟨ys, p₂, ps, hps, rfl⟩ := parameterList_reads hd (p₁.ended hc) h₂
    obtain ⟨r, c₃, h₃, h⟩ := bind_ok h
    obtain ⟨hr, p₃⟩ := expect_ok h₃ (p₂.ended (p₁.ended hc)) (by decide)
    obtain ⟨rfl, rfl⟩ := pure_ok h
    exact ⟨_, p₁.trans (p₂.trans p₃), l, ys, r, rfl, .inr ⟨ps, _, hl, hps, hr, rfl⟩⟩
  · obtain ⟨rfl, rfl⟩ := pure_ok h
    exact ⟨[], .refl d, rfl⟩

theorem declaratorBase_cases (hc : c.Ended) (h : declaratorBase deep c = .ok (n, d)) :
    (c.peek.kind = .ident ∧ c.Passes [c.peek] d ∧ n = c.peek.identNode) ∨
    ∃ a r xs c₁ c₂, c.peek.kind = .lParen ∧ r.kind = .rParen ∧ c.Passes [c.peek] c₁ ∧
      deep.declarator c₁ = .ok (a, c₂) ∧ c₁.Passes xs c₂ ∧ Derives .declarator xs [a] ∧
      c₂.Passes [r] d ∧ n = Node.between c.peek.span r.span (.nested a) := by
  obtain ⟨k, c₁, h₁, h⟩ := bind_ok h
  cases h₁
  generalize hk : c.peek.kind = k at h
  split at h
  · obtain ⟨t, c₁, h₁, h⟩ := bind_ok h
    obtain ⟨ht, p⟩ := advance_of_kind h₁ hc hk (by decide)
    obtain ⟨rfl, rfl⟩ := pure_ok h
    cases h₁
    exact .inl ⟨rfl, p, rfl⟩
  · obtain ⟨l, c₁, h₁, h⟩ := bind_ok h
    obtain ⟨hl, p₁⟩ := advance_of_kind h₁ hc hk (by decide)
    obtain ⟨a, c₂, h₂, h⟩ := bind_ok h
    obtain ⟨xs, p₂, ha⟩ := hd.declarator (p₁.ended hc) h₂
    obtain ⟨r, c₃, h₃, h⟩ := bind_ok h
    obtain ⟨hr, p₃⟩ := expect_ok h₃ (p₂.ended (p₁.ended hc)) (by decide)
    obtain ⟨rfl, rfl⟩ := pure_ok h
    cases h₁
    exact .inr ⟨a, r, xs, _, c₂, rfl, hr, p₁, h₂, p₂, ha, p₃, rfl⟩
  · cases h

theorem declaratorBase_reads : ReadsAs (declaratorBase deep) .direct := by
  intro c n d hc h
  obtain ⟨hk, p, rfl⟩ | ⟨a, r, xs, c₁, c₂, hl, hr, p₁, -, p₂, ha, p₃, rfl⟩ :=
    declaratorBase_cases hd hc h
  · exact ⟨_, p, .directName hk⟩
  · exact ⟨_, p₁.trans (p₂.trans p₃), .directNested hl ha hr⟩

theorem declarator_reads : ReadsAs (declarator deep) .declarator := by
  intro c n d hc h
  obtain ⟨levels, c₁, h₁, h⟩ := bind_ok h
  -- The stars read before a declarator wrap it, the last one first.
  obtain ⟨xs, p₁, hlevels⟩ := many_reads (P := fun xs levels => ∀ {ys a},
    Derives .declarator ys [a] →
    Derives .declarator (xs ++ ys) [levels.foldr (fun r inner =>
      Node.pointer r.1 r.2 (some inner)) a]) pointerLevel?_reads (fun h => h) (by
      rintro xs ⟨star, qs⟩ ys levels ⟨zs, rfl, hs, hq⟩ ih ws a ha
      simpa using Derives.pointer hs hq (ih ha)) hc h₁
  obtain ⟨base, c₂, h₂, h⟩ := bind_ok h
  obtain ⟨ys, p₂, hb⟩ := declaratorBase_reads hd (p₁.ended hc) h₂
  obtain ⟨a, c₃, h₃, h⟩ := bind_ok h
  obtain ⟨zs, p₃, ha⟩ := iterate_ok (P := fun xs a => Derives .direct xs [a]) h₃ (p₁.ended hc) p₂ hb
    (fun {ys a} ha => (suffix?_reads hd (some a)).mono (by
      rintro xs (_ | n) hx
      · exact hx
      · obtain ⟨l, ys, r, rfl, ⟨size, sp, hl, hs, hr, rfl⟩ | ⟨ps, sp, hl, hps, hr, rfl⟩⟩ := hx
        · simpa [StepReads] using Derives.array ha hl hs hr
        · simpa [StepReads] using Derives.function ha hl hps hr))
  obtain ⟨rfl, rfl⟩ := pure_ok h
  exact ⟨xs ++ zs, p₁.trans p₃, hlevels (.ofDirect ha)⟩

theorem abstractBase_reads :
    Reads (abstractBase deep) fun xs o => Derives .abstractDirect xs o.toList := by
  intro c o d hc h
  obtain ⟨ts, c₁, h₁, h⟩ := bind_ok h
  cases h₁
  split at h
  · rename_i hk
    have hk := Lookahead.peek_of_startsNestedAbstract hk
    obtain ⟨l, c₁, h₁, h⟩ := bind_ok h
    obtain ⟨hl, p₁⟩ := advance_of_kind h₁ hc hk (by decide)
    obtain ⟨a, c₂, h₂, h⟩ := bind_ok h
    obtain ⟨xs, p₂, ha⟩ := hd.abstractDeclarator (p₁.ended hc) h₂
    obtain ⟨r, c₃, h₃, h⟩ := bind_ok h
    obtain ⟨hr, p₃⟩ := expect_ok h₃ (p₂.ended (p₁.ended hc)) (by decide)
    obtain ⟨rfl, rfl⟩ := pure_ok h
    exact ⟨_, p₁.trans (p₂.trans p₃), .abstractNested hl ha hr⟩
  · obtain ⟨rfl, rfl⟩ := pure_ok h
    exact ⟨[], .refl d, .abstractNone⟩

theorem abstractDeclarator_reads : ReadsAs (abstractDeclarator deep) .abstractDeclarator := by
  intro c n d hc h
  obtain ⟨levels, c₁, h₁, h⟩ := bind_ok h
  obtain ⟨xs, p₁, hlevels⟩ := many_reads (P := fun xs levels => ∀ {ys a}, Derives .pointed ys
    (Option.toList a) → Derives .pointed (xs ++ ys) (levels.foldr (fun r inner =>
      some (Node.pointer r.1 r.2 inner)) a).toList) pointerLevel?_reads (fun h => h) (by
      rintro xs ⟨star, qs⟩ ys levels ⟨zs, rfl, hs, hq⟩ ih ws a ha
      simpa using Derives.abstractPointer hs hq (ih ha)) hc h₁
  obtain ⟨base, c₂, h₂, h⟩ := bind_ok h
  obtain ⟨ys, p₂, hb⟩ := abstractBase_reads hd (p₁.ended hc) h₂
  obtain ⟨a, c₃, h₃, h⟩ := bind_ok h
  obtain ⟨zs, p₃, ha⟩ := iterate_ok (P := fun xs a => Derives .abstractDirect xs (Option.toList a))
    h₃ (p₁.ended hc) p₂ hb (by
      intro ys a ha c o d hc h
      obtain ⟨o, c₁, h₁, h⟩ := bind_ok h
      obtain ⟨rfl, rfl⟩ := pure_ok h
      obtain ⟨xs, p, hx⟩ := suffix?_reads hd a hc h₁
      cases o with
      | none => exact ⟨xs, p, hx⟩
      | some n =>
        refine ⟨xs, p, ?_⟩
        obtain ⟨l, ys, r, rfl, ⟨size, sp, hl, hs, hr, rfl⟩ | ⟨ps, sp, hl, hps, hr, rfl⟩⟩ := hx
        · simpa [StepReads] using Derives.abstractArray ha hl hs hr
        · simpa [StepReads] using Derives.abstractFunction ha hl hps hr)
  have hw := hlevels (.ofAbstractDirect ha)
  dsimp only at h
  generalize levels.foldr _ a = whole at h hw
  cases whole with
  | none => cases h
  | some n =>
    obtain ⟨rfl, rfl⟩ := pure_ok h
    exact ⟨xs ++ zs, p₁.trans p₃, .abstractDeclarator hw⟩

theorem memberDeclarator_reads : ReadsAs (memberDeclarator deep) .memberDeclarator := by
  -- A bit-field after its colon, with or without a declarator before it.
  have width : ∀ {b c d : Cursor} {o : Option Node} {t : Token} {xs : List Token} {n : Node},
      b.Ended → b.Passes (xs ++ [t]) c → Derives (.optional .declarator) xs o.toList →
      Token.Of .colon t → bitfield deep o t c = .ok (n, d) →
      ∃ ys, b.Passes ys d ∧ Derives .memberDeclarator ys [n] := by
    intro b c d o t xs n hb p ho ht h
    obtain ⟨w, c₁, h₁, h⟩ := bind_ok h
    obtain ⟨ys, p₁, hw⟩ := conditional_reads hd (p.ended hb) h₁
    obtain ⟨rfl, rfl⟩ := pure_ok h
    exact ⟨_, p.trans p₁, by simpa using Derives.bitfield ho ht hw⟩
  intro c n d hc h
  obtain ⟨o, c₁, h₁, h⟩ := bind_ok h
  obtain ⟨p₁, ho, -⟩ := eat?_ok h₁ hc (by decide)
  cases o with
  | some t => exact width hc p₁ (.absent (p := .declarator)) (ho t rfl) h
  | none =>
    obtain ⟨a, c₂, h₂, h⟩ := bind_ok h
    obtain ⟨xs, p₂, ha⟩ := hd.declarator (p₁.ended hc) h₂
    obtain ⟨o, c₃, h₃, h⟩ := bind_ok h
    obtain ⟨p₃, ho, -⟩ := eat?_ok h₃ (p₂.ended (p₁.ended hc)) (by decide)
    cases o with
    | some t =>
      exact width hc ((p₁.trans p₂).trans p₃) (o := some a) (.present ha) (ho t rfl) h
    | none =>
      obtain ⟨rfl, rfl⟩ := pure_ok h
      exact ⟨_, p₁.trans (p₂.trans p₃), by simpa using Derives.plainMember ha⟩

theorem member_reads : ReadsAs (member deep) .member := by
  intro c n d hc h
  obtain ⟨q, c₁, h₁, h⟩ := bind_ok h
  obtain ⟨xs, p₁, hq⟩ := specQuals_reads hd hc h₁
  have hc₁ := p₁.ended hc
  have decls : ∃ ds ys c₂ t, c₁.Passes ys c₂ ∧
      Derives (.optional (.commas .memberDeclarator)) ys ds ∧ Token.Of .semicolon t ∧
      c₂.Passes [t] d ∧ n = Node.between q.span t.span (.member q ds) := by
    obtain ⟨b, c₂, h₂, h⟩ := bind_ok h
    cases h₂
    split at h
    · obtain ⟨ds, c₂, h₂, h⟩ := bind_ok h
      cases h₂
      obtain ⟨t, c₃, h₃, h⟩ := bind_ok h
      obtain ⟨ht, p₃⟩ := expect_ok h₃ hc₁ (by decide)
      obtain ⟨rfl, rfl⟩ := pure_ok h
      exact ⟨[], [], c₁, t, .refl c₁, .absent, ht, p₃, rfl⟩
    · obtain ⟨ds, c₂, h₂, h⟩ := bind_ok h
      obtain ⟨t, c₃, h₃, h⟩ := bind_ok h
      obtain ⟨ys, p₂, hds⟩ := commaList_reads (memberDeclarator_reads hd) hc₁ h₂
      obtain ⟨ht, p₃⟩ := expect_ok h₃ (p₂.ended hc₁) (by decide)
      obtain ⟨rfl, rfl⟩ := pure_ok h
      exact ⟨ds, ys, c₂, t, p₂, .present hds, ht, p₃, rfl⟩
  obtain ⟨ds, ys, c₂, t, p₂, hds, ht, p₃, rfl⟩ := decls
  exact ⟨_, p₁.trans (p₂.trans p₃), by simpa using Derives.member hq hds ht⟩

theorem structSpecifier_reads (hc : c.Ended) (hk : c.peek.kind.is .structOrUnion = true)
    (h : structSpecifier deep c = .ok (n, d)) : ∃ xs, c.Passes xs d ∧ Derives .record xs [n] := by
  obtain ⟨kw, c₁, h₁, h⟩ := bind_ok h
  obtain ⟨hkw, p₁⟩ := advance_of_is h₁ hc hk
  obtain ⟨name, c₂, h₂, h⟩ := bind_ok h
  obtain ⟨p₂, hname, -⟩ := eat?_ok h₂ (p₁.ended hc) (by decide)
  have hc₂ := p₂.ended (p₁.ended hc)
  obtain ⟨b, c₃, h₃, h⟩ := bind_ok h
  obtain ⟨rfl, l, hl, p₃⟩ | ⟨rfl, rfl, -⟩ := eat_ok h₃ hc₂ (by decide)
  · obtain ⟨ms, c₄, h₄, h⟩ := bind_ok h
    obtain ⟨xs, p₄, hm⟩ := manyUntil_reads (member_reads hd) (p₃.ended hc₂) h₄
    obtain ⟨r, c₅, h₅, h⟩ := bind_ok h
    obtain ⟨hr, p₅⟩ := expect_ok h₅ (p₄.ended (p₃.ended hc₂)) (by decide)
    obtain ⟨rfl, rfl⟩ := pure_ok h
    exact ⟨_, p₁.trans (p₂.trans (p₃.trans (p₄.trans p₅))),
      by simpa using Derives.structBody hkw hname hl hm hr⟩
  · cases name with
    | none => cases h
    | some t =>
      obtain ⟨rfl, rfl⟩ := pure_ok h
      exact ⟨_, p₁.trans p₂, .structName hkw (hname t rfl)⟩

theorem initializer_reads : ReadsAs (initializer deep) .initializer := by
  intro c n d hc h
  obtain ⟨o, c₁, h₁, h⟩ := bind_ok h
  obtain ⟨p₁, ho, -⟩ := eat?_ok h₁ hc (by decide)
  cases o with
  | none =>
    obtain ⟨xs, p₂, he⟩ := assignment_reads hd (p₁.ended hc) h
    exact ⟨_, p₁.trans p₂, .ofAssignment he⟩
  | some l =>
    obtain ⟨ns, c₂, h₂, h⟩ := bind_ok h
    obtain ⟨xs, p₂, hn⟩ := bracedItems_reads hd.initializer (p₁.ended hc) h₂
    obtain ⟨r, c₃, h₃, h⟩ := bind_ok h
    obtain ⟨hr, p₃⟩ := expect_ok h₃ (p₂.ended (p₁.ended hc)) (by decide)
    obtain ⟨rfl, rfl⟩ := pure_ok h
    exact ⟨_, p₁.trans (p₂.trans p₃), .initList (ho l rfl) hn hr⟩

theorem initDeclarator_reads : ReadsAs (initDeclarator deep) .initDeclarator := by
  intro c n d hc h
  obtain ⟨a, c₁, h₁, h⟩ := bind_ok h
  obtain ⟨xs, p₁, ha⟩ := hd.declarator hc h₁
  obtain ⟨b, c₂, h₂, h⟩ := bind_ok h
  obtain ⟨rfl, q, hq, p₂⟩ | ⟨rfl, rfl, -⟩ := eat_ok h₂ (p₁.ended hc) (by decide)
  · obtain ⟨o, c₃, h₃, h⟩ := bind_ok h
    obtain ⟨v, hv, rfl⟩ := map_ok h₃
    obtain ⟨ys, p₃, hy⟩ := hd.initializer (p₂.ended (p₁.ended hc)) hv
    obtain ⟨rfl, rfl⟩ := pure_ok h
    exact ⟨_, p₁.trans (p₂.trans p₃), .initValue ha hq hy⟩
  · obtain ⟨rfl, rfl⟩ := pure_ok h
    exact ⟨xs, p₁, .plainInit ha⟩

theorem staticAssert_reads (hc : c.Ended) (hk : c.peek.kind = .kwStaticAssert)
    (h : staticAssert deep c = .ok (n, d)) : ∃ xs, c.Passes xs d ∧ Derives .declaration xs [n] := by
  obtain ⟨kw, c₁, h₁, h⟩ := bind_ok h
  obtain ⟨hkw, p₁⟩ := advance_of_kind h₁ hc hk (by decide)
  obtain ⟨l, c₂, h₂, h⟩ := bind_ok h
  obtain ⟨hl, p₂⟩ := expect_ok h₂ (p₁.ended hc) (by decide)
  have hc₂ := p₂.ended (p₁.ended hc)
  obtain ⟨e, c₃, h₃, h⟩ := bind_ok h
  obtain ⟨xs, p₃, he⟩ := conditional_reads hd hc₂ h₃
  obtain ⟨t, c₄, h₄, h⟩ := bind_ok h
  obtain ⟨ht, p₄⟩ := expect_ok h₄ (p₃.ended hc₂) (by decide)
  have hc₄ := p₄.ended (p₃.ended hc₂)
  obtain ⟨m, c₅, h₅, h⟩ := bind_ok h
  obtain ⟨ms, p₅, rfl, hm⟩ := strings_reads hc₄ h₅
  obtain ⟨r, c₆, h₆, h⟩ := bind_ok h
  obtain ⟨hr, p₆⟩ := expect_ok h₆ (p₅.ended hc₄) (by decide)
  obtain ⟨semi, c₇, h₇, h⟩ := bind_ok h
  obtain ⟨hs, p₇⟩ := expect_ok h₇ (p₆.ended (p₅.ended hc₄)) (by decide)
  obtain ⟨rfl, rfl⟩ := pure_ok h
  exact ⟨_, p₁.trans (p₂.trans (p₃.trans (p₄.trans (p₅.trans (p₆.trans p₇))))),
    by simpa using Derives.staticAssert hkw hl he ht hm hr hs⟩

theorem declaration_reads : ReadsAs (declaration deep) .declaration := by
  intro c n d hc h
  obtain ⟨b, c₁, h₁, h⟩ := bind_ok h
  cases h₁
  split at h
  · rename_i hk
    exact staticAssert_reads hd hc (beq_iff_eq.mp hk) h
  · obtain ⟨s, c₁, h₁, h⟩ := bind_ok h
    obtain ⟨xs, p₁, hs⟩ := declSpecs_reads hd hc h₁
    have hc₁ := p₁.ended hc
    have inits : ∃ is ys c₂ t, c₁.Passes ys c₂ ∧
        Derives (.optional (.commas .initDeclarator)) ys is ∧ Token.Of .semicolon t ∧
        c₂.Passes [t] d ∧ n = Node.between s.span t.span (.decl s (Node.nonempty? is)) := by
      obtain ⟨b, c₂, h₂, h⟩ := bind_ok h
      cases h₂
      split at h
      · obtain ⟨is, c₂, h₂, h⟩ := bind_ok h
        cases h₂
        obtain ⟨o, c₃, h₃, h⟩ := bind_ok h
        obtain ⟨p₃, ho, -⟩ := eat?_ok h₃ hc₁ (by decide)
        cases o with
        | none => cases h
        | some t =>
          obtain ⟨rfl, rfl⟩ := pure_ok h
          exact ⟨[], [], c₁, t, .refl c₁, .absent, ho t rfl, p₃, rfl⟩
      · obtain ⟨is, c₂, h₂, h⟩ := bind_ok h
        obtain ⟨o, c₃, h₃, h⟩ := bind_ok h
        obtain ⟨ys, p₂, his⟩ := commaList_reads (initDeclarator_reads hd) hc₁ h₂
        obtain ⟨p₃, ho, -⟩ := eat?_ok h₃ (p₂.ended hc₁) (by decide)
        cases o with
        | none => cases h
        | some t =>
          obtain ⟨rfl, rfl⟩ := pure_ok h
          exact ⟨is, ys, c₂, t, p₂, .present his, ho t rfl, p₃, rfl⟩
    obtain ⟨is, ys, c₂, t, p₂, his, ht, p₃, rfl⟩ := inits
    exact ⟨_, p₁.trans (p₂.trans p₃), by simpa using Derives.declaration hs his ht⟩

end Grammar

end CPretty
