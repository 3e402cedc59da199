import CPretty.Proofs.Grammar.Repetition

namespace CPretty

open Parse

/-- The productions one level further in read their phrases. -/
structure Nested.Sound (deep : Nested) : Prop where
  operand : ReadsAs deep.operand .operand
  expression : ReadsAs deep.expression .expression
  conditional : ReadsAs deep.conditional .conditional
  /-- A structure is only read at its keyword. -/
  struct : ∀ ⦃c n d⦄, c.Ended → c.peek.kind.is .structOrUnion = true → deep.struct c = .ok (n, d) →
    ∃ xs, c.Passes xs d ∧ Derives .record xs [n]
  initializer : ReadsAs deep.initializer .initializer
  declarator : ReadsAs deep.declarator .declarator
  abstractDeclarator : ReadsAs deep.abstractDeclarator .abstractDeclarator
  statement : ReadsAs deep.statement .statement

attribute [local simp] Node.between Token.leaf Token.identNode Token.keywordNode Node.binary
  Node.assign Node.prefixed Node.cast Node.pointer

namespace Grammar

variable {b c d : Cursor} {n : Node} {deep : Nested} (hd : deep.Sound)
include hd

omit hd in
theorem accepts_eof {l : Expected} (h : l ∈ ladder) : ¬ l.accepts .eof = true := by
  revert l
  decide

omit hd in
theorem binary_reads {operand : Parse Node} (ho : ReadsAs operand .operand) {levels : List Expected}
    (hl : levels ⊆ ladder) : ReadsAs (binary operand levels) (.binary levels) := by
  induction levels with
  | nil => exact ho.mono fun _ _ h => .ofOperand h
  | cons l ls ih =>
    have hls := ih (List.subset_of_cons_subset hl)
    intro c n d hc h
    obtain ⟨e, c₁, h₁, h⟩ := bind_ok h
    obtain ⟨xs, p₁, he⟩ := hls hc h₁
    refine iterate_ok (P := fun xs e => Derives (.binary (l :: ls)) xs [e]) h hc p₁ (.tighter he) ?_
    intro ys e he c o d hc h
    obtain ⟨k, c₁, h₁, h⟩ := bind_ok h
    cases h₁
    split at h
    · rename_i hk
      have hk' : c.peek.kind ≠ .eof := fun he => by
        rw [he] at hk
        exact accepts_eof (hl List.mem_cons_self) hk
      obtain ⟨op, c₁, h₁, h⟩ := bind_ok h
      obtain ⟨rfl, p₁⟩ := advance_ok h₁ hc hk'
      obtain ⟨e', c₂, h₂, h⟩ := bind_ok h
      obtain ⟨zs, p₂, he'⟩ := hls (p₁.ended hc) h₂
      obtain ⟨rfl, rfl⟩ := pure_ok h
      exact ⟨_, p₁.trans p₂, .binary (hl List.mem_cons_self) he hk he'⟩
    · obtain ⟨rfl, rfl⟩ := pure_ok h
      exact ⟨[], .refl d, rfl⟩

theorem conditional_reads : ReadsAs (conditional deep) .conditional := by
  intro c n d hc h
  obtain ⟨e, c₁, h₁, h⟩ := bind_ok h
  obtain ⟨xs, p₁, he⟩ := binary_reads hd.operand (List.Subset.refl _) hc h₁
  obtain ⟨b, c₂, h₂, h⟩ := bind_ok h
  obtain ⟨rfl, q, hq, p₂⟩ | ⟨rfl, rfl, -⟩ := eat_ok h₂ (p₁.ended hc) (by decide)
  · have hc₂ := p₂.ended (p₁.ended hc)
    obtain ⟨yes, c₃, h₃, h⟩ := bind_ok h
    obtain ⟨ys, p₃, hy⟩ := hd.expression hc₂ h₃
    obtain ⟨t, c₄, h₄, h⟩ := bind_ok h
    obtain ⟨ht, p₄⟩ := expect_ok h₄ (p₃.ended hc₂) (by decide)
    obtain ⟨no, c₅, h₅, h⟩ := bind_ok h
    obtain ⟨zs, p₅, hn⟩ := hd.conditional (p₄.ended (p₃.ended hc₂)) h₅
    obtain ⟨rfl, rfl⟩ := pure_ok h
    exact ⟨_, p₁.trans (p₂.trans (p₃.trans (p₄.trans p₅))),
      by simpa using Derives.ternary he hq hy ht hn⟩
  · obtain ⟨rfl, rfl⟩ := pure_ok h
    exact ⟨xs, p₁, .ofBinary he⟩

theorem assignment_reads : ReadsAs (assignment deep) .assignment := by
  have loop : ∀ n, ReadsAs (assignmentUpTo deep n) .assignment := by
    intro n
    induction n with
    | zero => exact (conditional_reads hd).mono fun _ _ h => .ofConditional h
    | succ n ih =>
      intro c e d hc h
      obtain ⟨v, c₁, h₁, h⟩ := bind_ok h
      obtain ⟨xs, p₁, hv⟩ := conditional_reads hd hc h₁
      obtain ⟨k, c₂, h₂, h⟩ := bind_ok h
      cases h₂
      split at h
      · rename_i hk
        split at h
        · rename_i ht
          obtain ⟨op, c₂, h₂, h⟩ := bind_ok h
          obtain ⟨hop, p₂⟩ := advance_of_is h₂ (p₁.ended hc) hk
          obtain ⟨e', c₃, h₃, h⟩ := bind_ok h
          obtain ⟨ys, p₃, he⟩ := ih (p₂.ended (p₁.ended hc)) h₃
          obtain ⟨rfl, rfl⟩ := pure_ok h
          exact ⟨_, p₁.trans (p₂.trans p₃), .assign hv ht hop he⟩
        · cases h
      · obtain ⟨rfl, rfl⟩ := pure_ok h
        exact ⟨xs, p₁, .ofConditional hv⟩
  intro c e d hc h
  obtain ⟨ts, c₁, h₁, h⟩ := bind_ok h
  cases h₁
  exact loop _ hc h

theorem expression_reads : ReadsAs (expression deep) .expression := by
  intro c e d hc h
  obtain ⟨ns, c₁, h₁, h⟩ := bind_ok h
  obtain ⟨xs, p₁, hns⟩ := commaList_reads (assignment_reads hd) hc h₁
  obtain ⟨rfl, rfl⟩ := pure_ok h
  exact ⟨xs, p₁, .expression hns⟩

theorem condition_reads : Reads (condition deep) fun xs e => ∃ l ys r, xs = l :: ys ++ [r] ∧
    Token.Of .lParen l ∧ Derives .expression ys [e] ∧ Token.Of .rParen r := by
  intro c e d hc h
  obtain ⟨l, c₁, h₁, h⟩ := bind_ok h
  obtain ⟨hl, p₁⟩ := expect_ok h₁ hc (by decide)
  obtain ⟨e', c₂, h₂, h⟩ := bind_ok h
  obtain ⟨ys, p₂, he⟩ := expression_reads hd (p₁.ended hc) h₂
  obtain ⟨r, c₃, h₃, h⟩ := bind_ok h
  obtain ⟨hr, p₃⟩ := expect_ok h₃ (p₂.ended (p₁.ended hc)) (by decide)
  obtain ⟨rfl, rfl⟩ := pure_ok h
  exact ⟨_, p₁.trans (p₂.trans p₃), l, ys, r, rfl, hl, he, hr⟩

theorem enumerator_reads : ReadsAs (enumerator deep) .enumerator := by
  intro c n d hc h
  obtain ⟨t, c₁, h₁, h⟩ := bind_ok h
  obtain ⟨ht, p₁⟩ := expect_ok h₁ hc (by decide)
  obtain ⟨b, c₂, h₂, h⟩ := bind_ok h
  obtain ⟨rfl, q, hq, p₂⟩ | ⟨rfl, rfl, -⟩ := eat_ok h₂ (p₁.ended hc) (by decide)
  · obtain ⟨o, c₃, h₃, h⟩ := bind_ok h
    obtain ⟨v, hv, rfl⟩ := map_ok h₃
    obtain ⟨xs, p₃, hx⟩ := conditional_reads hd (p₂.ended (p₁.ended hc)) hv
    obtain ⟨rfl, rfl⟩ := pure_ok h
    exact ⟨_, p₁.trans (p₂.trans p₃), .enumeratorValue ht hq hx⟩
  · obtain ⟨rfl, rfl⟩ := pure_ok h
    exact ⟨_, p₁, .enumerator ht⟩

theorem enumSpecifier_reads (hc : c.Ended) (hk : c.peek.kind = .kwEnum)
    (h : enumSpecifier deep c = .ok (n, d)) :
    ∃ xs, c.Passes xs d ∧ Derives .enumeration xs [n] := by
  obtain ⟨kw, c₁, h₁, h⟩ := bind_ok h
  obtain ⟨hkw, p₁⟩ := advance_of_kind h₁ hc hk (by decide)
  obtain ⟨name, c₂, h₂, h⟩ := bind_ok h
  obtain ⟨p₂, hname, -⟩ := eat?_ok h₂ (p₁.ended hc) (by decide)
  have hc₂ := p₂.ended (p₁.ended hc)
  obtain ⟨b, c₃, h₃, h⟩ := bind_ok h
  obtain ⟨rfl, l, hl, p₃⟩ | ⟨rfl, rfl, -⟩ := eat_ok h₃ hc₂ (by decide)
  · obtain ⟨items, c₄, h₄, h⟩ := bind_ok h
    obtain ⟨xs, p₄, hi⟩ := bracedItems_reads (enumerator_reads hd) (p₃.ended hc₂) h₄
    obtain ⟨r, c₅, h₅, h⟩ := bind_ok h
    obtain ⟨hr, p₅⟩ := expect_ok h₅ (p₄.ended (p₃.ended hc₂)) (by decide)
    obtain ⟨rfl, rfl⟩ := pure_ok h
    exact ⟨_, p₁.trans (p₂.trans (p₃.trans (p₄.trans p₅))),
      by simpa using Derives.enumBody hkw hname hl hi hr⟩
  · cases name with
    | none => cases h
    | some t =>
      obtain ⟨rfl, rfl⟩ := pure_ok h
      exact ⟨_, p₁.trans p₂, .enumName hkw (hname t rfl)⟩

omit hd in
theorem atomicSpecifier_reads {typeName : Parse Node} (ht : ReadsAs typeName .typeName)
    (hc : c.Ended) (hk : c.peek.kind = .kwAtomic) (h : atomicSpecifier typeName c = .ok (n, d)) :
    ∃ xs, c.Passes xs d ∧ Derives .specifier xs [n] := by
  obtain ⟨kw, c₁, h₁, h⟩ := bind_ok h
  obtain ⟨hkw, p₁⟩ := advance_of_kind h₁ hc hk (by decide)
  obtain ⟨l, c₂, h₂, h⟩ := bind_ok h
  obtain ⟨hl, p₂⟩ := expect_ok h₂ (p₁.ended hc) (by decide)
  have hc₂ := p₂.ended (p₁.ended hc)
  obtain ⟨m, c₃, h₃, h⟩ := bind_ok h
  obtain ⟨xs, p₃, hm⟩ := ht hc₂ h₃
  obtain ⟨r, c₄, h₄, h⟩ := bind_ok h
  obtain ⟨hr, p₄⟩ := expect_ok h₄ (p₃.ended hc₂) (by decide)
  obtain ⟨rfl, rfl⟩ := pure_ok h
  exact ⟨_, p₁.trans (p₂.trans (p₃.trans p₄)), by simpa using Derives.atomic hkw hl hm hr⟩

/-- A specifier is a keyword, an atomic type, a structure, an enumeration or a type name. -/
theorem specifier?_reads {typeName : Parse Node} (ht : ReadsAs typeName .typeName)
    (seenType : Bool) : Reads (specifier? deep typeName seenType)
      (StepReads fun xs r => Derives .specifier xs [r.1]) := by
  intro c o d hc h
  obtain ⟨k, c₁, h₁, h⟩ := bind_ok h
  cases h₁
  obtain ⟨ts, c₁, h₁, h⟩ := bind_ok h
  cases h₁
  split at h
  · rename_i hk
    obtain ⟨n, c₁, h₁, h⟩ := bind_ok h
    obtain ⟨rfl, rfl⟩ := pure_ok h
    simp only [Bool.and_eq_true, beq_iff_eq] at hk
    exact atomicSpecifier_reads ht hc hk.1 h₁
  split at h
  · rename_i hk
    obtain ⟨t, c₁, h₁, h⟩ := bind_ok h
    obtain ⟨rfl, rfl⟩ := pure_ok h
    simp only [Bool.or_eq_true] at hk
    obtain ⟨rfl, p⟩ := advance_ok h₁ hc
      (hk.elim (·.elim Kind.ne_eof_of_is Kind.ne_eof_of_is) Kind.ne_eof_of_is)
    exact ⟨_, p, .word (by simp only [Token.isSpecifierWord, Bool.or_eq_true]; exact .inl hk)⟩
  split at h
  · rename_i hk
    obtain ⟨t, c₁, h₁, h⟩ := bind_ok h
    obtain ⟨rfl, rfl⟩ := pure_ok h
    obtain ⟨hk, p⟩ := advance_of_is h₁ hc hk
    exact ⟨_, p, .word (by simp only [Token.isSpecifierWord, Bool.or_eq_true]; exact .inr hk)⟩
  split at h
  · rename_i hk
    obtain ⟨n, c₁, h₁, h⟩ := bind_ok h
    obtain ⟨rfl, rfl⟩ := pure_ok h
    obtain ⟨xs, p, hn⟩ := hd.struct hc hk h₁
    exact ⟨xs, p, .ofRecord hn⟩
  split at h
  · rename_i hk
    obtain ⟨n, c₁, h₁, h⟩ := bind_ok h
    obtain ⟨rfl, rfl⟩ := pure_ok h
    obtain ⟨xs, p, hn⟩ := enumSpecifier_reads hd hc (beq_iff_eq.mp hk) h₁
    exact ⟨xs, p, .ofEnumeration hn⟩
  split at h
  · rename_i hk
    obtain ⟨t, c₁, h₁, h⟩ := bind_ok h
    obtain ⟨rfl, rfl⟩ := pure_ok h
    simp only [Bool.and_eq_true, beq_iff_eq] at hk
    obtain ⟨ht, p⟩ := advance_of_kind h₁ hc hk.1 (by decide)
    exact ⟨_, p, .typedefName ht⟩
  · obtain ⟨rfl, rfl⟩ := pure_ok h
    exact ⟨[], .refl d, rfl⟩

omit hd in
theorem specifierNode_ok {wrap : List Node → Shape Node} {specs : List Node}
    (h : specifierNode wrap specs c = .ok (n, d)) :
    specs ≠ [] ∧ n = Node.collect wrap specs ∧ c = d := by
  rw [specifierNode] at h
  split at h
  · cases h
  · rename_i hs
    obtain ⟨rfl, rfl⟩ := pure_ok h
    exact ⟨by simpa using hs, rfl, rfl⟩

theorem typeNameOf_reads {specs : List Node} {xs : List Token}
    (hs : Derives (.sequence .specifier) xs specs) (p : b.Passes xs c) (hb : b.Ended)
    (h : typeNameOf deep specs c = .ok (n, d)) :
    ∃ ys, b.Passes ys d ∧ Derives .typeName ys [n] := by
  obtain ⟨q, c₁, h₁, h⟩ := bind_ok h
  obtain ⟨hne, rfl, rfl⟩ := specifierNode_ok h₁
  obtain ⟨k, c₂, h₂, h⟩ := bind_ok h
  cases h₂
  split at h
  · obtain ⟨a, c₂, h₂, h⟩ := bind_ok h
    obtain ⟨ys, p₂, ha⟩ := hd.abstractDeclarator (p.ended hb) h₂
    obtain ⟨rfl, rfl⟩ := pure_ok h
    exact ⟨xs ++ ys, p.trans p₂, .typeName (.specQuals hs hne) ha⟩
  · obtain ⟨rfl, rfl⟩ := pure_ok h
    exact ⟨xs, p, .ofSpecQuals (.specQuals hs hne)⟩

theorem specifiersUpTo_reads (n : Nat) (seenType : Bool) :
    Reads (specifiersUpTo deep n seenType) (Derives (.sequence .specifier)) := by
  induction n generalizing seenType with
  | zero =>
    intro c ns d hc h
    cases h
    exact ⟨[], .refl c, .sequenceNil⟩
  | succ n ih =>
    intro c ns d hc h
    have inner : ReadsAs (do typeNameOf deep (← specifiersUpTo deep n false)) .typeName := by
      intro c m d hc h
      obtain ⟨ms, c₁, h₁, h⟩ := bind_ok h
      obtain ⟨xs, p, hs⟩ := ih _ hc h₁
      exact typeNameOf_reads hd hs p hc h
    obtain ⟨o, c₁, h₁, h⟩ := bind_ok h
    obtain ⟨xs, p₁, hx⟩ := specifier?_reads hd inner seenType hc h₁
    cases o with
    | none =>
      obtain ⟨rfl, rfl⟩ := pure_ok h
      cases hx
      exact ⟨[], p₁, .sequenceNil⟩
    | some r =>
      obtain ⟨ms, c₂, h₂, h⟩ := bind_ok h
      obtain ⟨ys, p₂, hm⟩ := ih _ (p₁.ended hc) h₂
      obtain ⟨rfl, rfl⟩ := pure_ok h
      exact ⟨xs ++ ys, p₁.trans p₂, .sequenceMore hx hm⟩

theorem specifierList_reads : Reads (specifierList deep) (Derives (.sequence .specifier)) := by
  intro c ns d hc h
  obtain ⟨ts, c₁, h₁, h⟩ := bind_ok h
  cases h₁
  exact specifiersUpTo_reads hd _ _ hc h

theorem declSpecs_reads : ReadsAs (declSpecs deep) .declSpecs := by
  intro c n d hc h
  obtain ⟨ns, c₁, h₁, h⟩ := bind_ok h
  obtain ⟨xs, p, hs⟩ := specifierList_reads hd hc h₁
  obtain ⟨hne, rfl, rfl⟩ := specifierNode_ok h
  exact ⟨xs, p, .declSpecs hs hne⟩

theorem specQuals_reads : ReadsAs (specQuals deep) .specQuals := by
  intro c n d hc h
  obtain ⟨ns, c₁, h₁, h⟩ := bind_ok h
  obtain ⟨xs, p, hs⟩ := specifierList_reads hd hc h₁
  obtain ⟨hne, rfl, rfl⟩ := specifierNode_ok h
  exact ⟨xs, p, .specQuals hs hne⟩

theorem typeName_reads : ReadsAs (typeName deep) .typeName := by
  intro c n d hc h
  obtain ⟨ns, c₁, h₁, h⟩ := bind_ok h
  obtain ⟨xs, p, hs⟩ := specifierList_reads hd hc h₁
  exact typeNameOf_reads hd hs p hc h

theorem primary_reads : ReadsAs (primary deep) .primary := by
  intro c n d hc h
  obtain ⟨k, c₁, h₁, h⟩ := bind_ok h
  cases h₁
  generalize hk : c.peek.kind = k at h
  split at h
  · obtain ⟨t, c₁, h₁, h⟩ := bind_ok h
    obtain ⟨ht, p⟩ := advance_of_kind h₁ hc hk (by decide)
    obtain ⟨rfl, rfl⟩ := pure_ok h
    exact ⟨_, p, .ident ht⟩
  · obtain ⟨t, c₁, h₁, h⟩ := bind_ok h
    obtain ⟨ht, p⟩ := advance_of_kind h₁ hc hk (by decide)
    obtain ⟨rfl, rfl⟩ := pure_ok h
    exact ⟨_, p, .constant ht⟩
  · obtain ⟨r, c₁, h₁, h⟩ := bind_ok h
    obtain ⟨xs, p, rfl, hs⟩ := strings_reads hc h₁
    obtain ⟨rfl, rfl⟩ := pure_ok h
    exact ⟨_, p, .strings hs⟩
  · obtain ⟨l, c₁, h₁, h⟩ := bind_ok h
    obtain ⟨hl, p₁⟩ := advance_of_kind h₁ hc hk (by decide)
    obtain ⟨e, c₂, h₂, h⟩ := bind_ok h
    obtain ⟨xs, p₂, he⟩ := expression_reads hd (p₁.ended hc) h₂
    obtain ⟨r, c₃, h₃, h⟩ := bind_ok h
    obtain ⟨hr, p₃⟩ := expect_ok h₃ (p₂.ended (p₁.ended hc)) (by decide)
    obtain ⟨rfl, rfl⟩ := pure_ok h
    exact ⟨_, p₁.trans (p₂.trans p₃), .parens hl he hr⟩
  · cases h

theorem arguments_reads :
    Reads (arguments deep) (Derives (.optional (.commas .assignment))) := by
  intro c ns d hc h
  obtain ⟨b, c₁, h₁, h⟩ := bind_ok h
  cases h₁
  split at h
  · obtain ⟨rfl, rfl⟩ := pure_ok h
    exact ⟨[], .refl d, .absent⟩
  · obtain ⟨ms, c₁, h₁, h⟩ := bind_ok h
    obtain ⟨xs, p₁, hm⟩ := commaList_reads (assignment_reads hd) hc h₁
    obtain ⟨b, c₂, h₂, h⟩ := bind_ok h
    cases h₂
    split at h
    · obtain ⟨rfl, rfl⟩ := pure_ok h
      exact ⟨xs, p₁, .present hm⟩
    · cases h

theorem access?_reads {e : Node} {ys : List Token} (he : Derives .postfixed ys [e]) :
    Reads (access? deep e) (StepReads fun xs e' => Derives .postfixed (ys ++ xs) [e']) := by
  intro c o d hc h
  obtain ⟨k, c₁, h₁, h⟩ := bind_ok h
  cases h₁
  generalize hk : c.peek.kind = k at h
  split at h
  · obtain ⟨l, c₁, h₁, h⟩ := bind_ok h
    obtain ⟨hl, p₁⟩ := advance_of_kind h₁ hc hk (by decide)
    obtain ⟨i, c₂, h₂, h⟩ := bind_ok h
    obtain ⟨xs, p₂, hi⟩ := expression_reads hd (p₁.ended hc) h₂
    obtain ⟨r, c₃, h₃, h⟩ := bind_ok h
    obtain ⟨hr, p₃⟩ := expect_ok h₃ (p₂.ended (p₁.ended hc)) (by decide)
    obtain ⟨rfl, rfl⟩ := pure_ok h
    exact ⟨_, p₁.trans (p₂.trans p₃), by simpa [StepReads] using Derives.index he hl hi hr⟩
  · obtain ⟨l, c₁, h₁, h⟩ := bind_ok h
    obtain ⟨hl, p₁⟩ := advance_of_kind h₁ hc hk (by decide)
    obtain ⟨args, c₂, h₂, h⟩ := bind_ok h
    obtain ⟨xs, p₂, ha⟩ := arguments_reads hd (p₁.ended hc) h₂
    obtain ⟨r, c₃, h₃, h⟩ := bind_ok h
    obtain ⟨hr, p₃⟩ := expect_ok h₃ (p₂.ended (p₁.ended hc)) (by decide)
    obtain ⟨rfl, rfl⟩ := pure_ok h
    exact ⟨_, p₁.trans (p₂.trans p₃), by simpa [StepReads] using Derives.call he hl ha hr⟩
  iterate 2
    · obtain ⟨op, c₁, h₁, h⟩ := bind_ok h
      obtain ⟨hop, p₁⟩ := advance_of_kind h₁ hc hk (by decide)
      obtain ⟨t, c₂, h₂, h⟩ := bind_ok h
      obtain ⟨ht, p₂⟩ := expect_ok h₂ (p₁.ended hc) (by decide)
      obtain ⟨rfl, rfl⟩ := pure_ok h
      exact ⟨_, p₁.trans p₂, .field he (by rw [Token.Of, Token.Of, hop]; decide) ht⟩
  iterate 2
    · obtain ⟨op, c₁, h₁, h⟩ := bind_ok h
      obtain ⟨hop, p₁⟩ := advance_of_kind h₁ hc hk (by decide)
      obtain ⟨rfl, rfl⟩ := pure_ok h
      exact ⟨_, p₁, .postUnary he (by rw [Token.In, hop]; rfl)⟩
  · obtain ⟨rfl, rfl⟩ := pure_ok h
    exact ⟨[], .refl d, rfl⟩

theorem postfixed_reads : ReadsAs (postfixed deep) .postfixed := by
  intro c n d hc h
  obtain ⟨e, c₁, h₁, h⟩ := bind_ok h
  obtain ⟨xs, p₁, he⟩ := primary_reads hd hc h₁
  exact iterate_ok (P := fun xs e => Derives .postfixed xs [e]) h hc p₁ (.ofPrimary he)
    fun he => access?_reads hd he

omit hd in
theorem prefixOperator?_reads : Reads prefixOperator?
    (StepReads fun xs op => xs = [op] ∧ (Token.In .count op ∨ Token.Of .kwSizeof op)) := by
  intro c o d hc h
  obtain ⟨k, c₁, h₁, h⟩ := bind_ok h
  cases h₁
  obtain ⟨ts, c₁, h₁, h⟩ := bind_ok h
  cases h₁
  split at h
  · rename_i hk
    have hop : Token.In .count c.peek ∨ Token.Of .kwSizeof c.peek := by
      simp only [Bool.or_eq_true, Bool.and_eq_true, beq_iff_eq] at hk
      exact hk.imp_right And.left
    obtain ⟨op, c₁, h₁, h⟩ := bind_ok h
    obtain ⟨rfl, p⟩ := advance_ok h₁ hc (hop.elim Kind.ne_eof_of_is (by rintro h; simp [h]))
    obtain ⟨rfl, rfl⟩ := pure_ok h
    exact ⟨_, p, rfl, hop⟩
  · obtain ⟨rfl, rfl⟩ := pure_ok h
    exact ⟨[], .refl d, rfl⟩

theorem unaryBody_reads : ReadsAs (unaryBody deep) .unary := by
  intro c n d hc h
  obtain ⟨k, c₁, h₁, h⟩ := bind_ok h
  cases h₁
  split at h
  · rename_i hk
    obtain ⟨kw, c₁, h₁, h⟩ := bind_ok h
    obtain ⟨hkw, p₁⟩ := advance_of_kind h₁ hc (beq_iff_eq.mp hk) (by decide)
    obtain ⟨l, c₂, h₂, h⟩ := bind_ok h
    obtain ⟨hl, p₂⟩ := expect_ok h₂ (p₁.ended hc) (by decide)
    have hc₂ := p₂.ended (p₁.ended hc)
    obtain ⟨m, c₃, h₃, h⟩ := bind_ok h
    obtain ⟨xs, p₃, hm⟩ := typeName_reads hd hc₂ h₃
    obtain ⟨r, c₄, h₄, h⟩ := bind_ok h
    obtain ⟨hr, p₄⟩ := expect_ok h₄ (p₃.ended hc₂) (by decide)
    obtain ⟨rfl, rfl⟩ := pure_ok h
    exact ⟨_, p₁.trans (p₂.trans (p₃.trans p₄)), by simpa using Derives.sizeofType hkw hl hm hr⟩
  · split at h
    · rename_i hk
      obtain ⟨op, c₁, h₁, h⟩ := bind_ok h
      obtain ⟨hop, p₁⟩ := advance_of_is h₁ hc hk
      obtain ⟨e, c₂, h₂, h⟩ := bind_ok h
      obtain ⟨xs, p₂, he⟩ := hd.operand (p₁.ended hc) h₂
      obtain ⟨rfl, rfl⟩ := pure_ok h
      exact ⟨_, p₁.trans p₂, .operator hop he⟩
    · obtain ⟨xs, p, he⟩ := postfixed_reads hd hc h
      exact ⟨xs, p, .ofPostfixed he⟩

theorem unary_reads : ReadsAs (unary deep) .unary := by
  intro c n d hc h
  obtain ⟨ops, c₁, h₁, h⟩ := bind_ok h
  -- The operators read before a body wrap it, the last one first.
  obtain ⟨xs, p₁, hops⟩ := many_reads (P := fun xs ops => ∀ {ys e}, Derives .unary ys [e] →
    Derives .unary (xs ++ ys) [ops.foldr Node.prefixed e]) prefixOperator?_reads
    (fun h => h) (by
      rintro xs op ys ops ⟨rfl, hop⟩ ih zs e he
      simpa using Derives.prefixed hop (ih he)) hc h₁
  obtain ⟨e, c₂, h₂, h⟩ := bind_ok h
  obtain ⟨ys, p₂, he⟩ := unaryBody_reads hd (p₁.ended hc) h₂
  obtain ⟨rfl, rfl⟩ := pure_ok h
  exact ⟨xs ++ ys, p₁.trans p₂, hops he⟩

theorem castPrefix?_reads : Reads (castPrefix? deep) (StepReads fun xs r => ∃ ys t,
    xs = r.1 :: ys ++ [t] ∧ Token.Of .lParen r.1 ∧ Derives .typeName ys [r.2] ∧
      Token.Of .rParen t) := by
  intro c o d hc h
  obtain ⟨b, c₁, h₁, h⟩ := bind_ok h
  cases h₁
  obtain ⟨ts, c₁, h₁, h⟩ := bind_ok h
  cases h₁
  split at h
  · rename_i hk
    simp only [Bool.and_eq_true, beq_iff_eq] at hk
    obtain ⟨l, c₁, h₁, h⟩ := bind_ok h
    obtain ⟨hl, p₁⟩ := advance_of_kind h₁ hc hk.1 (by decide)
    obtain ⟨ty, c₂, h₂, h⟩ := bind_ok h
    obtain ⟨ys, p₂, hty⟩ := typeName_reads hd (p₁.ended hc) h₂
    obtain ⟨r, c₃, h₃, h⟩ := bind_ok h
    obtain ⟨hr, p₃⟩ := expect_ok h₃ (p₂.ended (p₁.ended hc)) (by decide)
    obtain ⟨rfl, rfl⟩ := pure_ok h
    exact ⟨_, p₁.trans (p₂.trans p₃), ys, r, rfl, hl, hty, hr⟩
  · obtain ⟨rfl, rfl⟩ := pure_ok h
    exact ⟨[], .refl d, rfl⟩

theorem operand_reads : ReadsAs (operand deep) .operand := by
  intro c n d hc h
  obtain ⟨casts, c₁, h₁, h⟩ := bind_ok h
  obtain ⟨xs, p₁, hcasts⟩ := many_reads (P := fun xs casts => ∀ {ys e}, Derives .operand ys [e] →
    Derives .operand (xs ++ ys) [casts.foldr (fun r inner =>
      Node.cast r.1 r.2 inner) e]) (castPrefix?_reads hd) (fun h => h) (by
      rintro xs ⟨l, ty⟩ ys casts ⟨zs, t, rfl, hl, hty, ht⟩ ih ws e he
      simpa using Derives.cast hl hty ht (ih he)) hc h₁
  obtain ⟨e, c₂, h₂, h⟩ := bind_ok h
  obtain ⟨ys, p₂, he⟩ := unary_reads hd (p₁.ended hc) h₂
  obtain ⟨rfl, rfl⟩ := pure_ok h
  exact ⟨xs ++ ys, p₁.trans p₂, hcasts (.ofUnary he)⟩

end Grammar

end CPretty
