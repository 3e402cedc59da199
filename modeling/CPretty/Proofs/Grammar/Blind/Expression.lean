import CPretty.Proofs.Grammar.Soundness.SourceFile
import CPretty.Proofs.Parse.Linked

namespace CPretty.Linked

open Parse Place

variable {e : Ending} {P P' : Place → Prop} {p : Place} {s : List Bracket} {o : Opening}
  {ts ts' : List Token} {c c' : Cursor} {k : Kind}

open Lookahead

theorem head?_any (h : Linked e p ts ts') {f : Kind → Bool} (hf : f .comma = f .rBrace) :
    ts.head?.any (fun t => f t.kind) = ts'.head?.any (fun t => f t.kind) := by
  cases h with
  | nil => rfl
  | token => rfl
  | last => rfl
  | trailing ht hr => simp [ht, hr, hf]

theorem dropStars (h : Linked e p ts ts') :
    ∃ q, q.within = p.within ∧ Linked e q (ts.dropWhile isStar) (ts'.dropWhile isStar) := by
  induction h with
  | nil => exact ⟨_, rfl, .nil⟩
  | @token p q t ts ts' hn hq h ih =>
    rw [List.dropWhile_cons, List.dropWhile_cons]
    split
    next hk =>
      rw [eq_of_beq hk] at hq
      cases hq
      exact ih
    next => exact ⟨p, rfl, .token hn hq h⟩
  | @last p t ts ts' ht hl hr =>
    have hk : isStar t = false := beq_false_of_ne (Ending.kind_ne ht (by decide))
    rw [List.dropWhile_cons_of_neg (by simp [hk]), List.dropWhile_cons_of_neg (by simp [hk])]
    exact ⟨p, rfl, .last ht hl hr⟩
  | trailing ht hr h _ =>
    rw [List.dropWhile_cons_of_neg (by simp [isStar, ht]),
      List.dropWhile_cons_of_neg (by simp [isStar, hr])]
    exact ⟨_, rfl, .trailing ht hr h⟩

theorem within_of_ident {q : Place} (h : p.after? .ident = some q) : q.within = p.within := by
  obtain ⟨w, o⟩ := p
  cases o <;> (cases h; rfl)

theorem startsTypeName_eq (h : Linked e p ts ts') (hp : p.within = .paren :: s) (inCast : Bool) :
    startsTypeName inCast ts = startsTypeName inCast ts' := by
  cases h with
  | nil => rfl
  | last ht => exact absurd (hp ▸ ht) (Ending.not_at_within (by decide))
  | trailing => cases hp
  | @token _ _ t ts ts' _ hq h =>
    rw [startsTypeName, startsTypeName]
    by_cases hk : t.kind = .ident
    · have hs : ts.head?.any isStar = ts'.head?.any isStar := head?_any h (f := (· == .star)) rfl
      obtain ⟨r, hr, hd⟩ := dropStars h
      rw [hk] at hq
      rw [within_of_ident hq, hp] at hr
      rw [hs]
      generalize ts.dropWhile isStar = us, ts'.dropWhile isStar = us' at hd
      cases hd with
      | nil => rfl
      | last ht => exact absurd (hr ▸ ht) (Ending.not_at_within (by decide))
      | trailing => cases hr
      | token _ _ h => simp only [head?_any h (f := castOperands.contains) rfl]
    · rw [beq_false_of_ne hk, Bool.false_and, Bool.false_and]

theorem startsDeclaration_eq (h : Linked e p ts ts') (hp : p.within.head? ≠ some .list) :
    startsDeclaration ts = startsDeclaration ts' := by
  cases h with
  | nil => rfl
  | @last _ t _ _ ht =>
    have hk : (t.kind == .ident) = false := beq_false_of_ne (Ending.kind_ne ht (by decide))
    rw [startsDeclaration, startsDeclaration, hk, Bool.false_and, Bool.false_and]
  | trailing => exact absurd rfl hp
  | token _ _ h =>
    obtain ⟨r, -, hd⟩ := dropStars h
    rw [startsDeclaration, startsDeclaration, head?_any hd (f := (· == .ident)) rfl]

theorem isIdentifierList_of_ne {t : Token} (h : t.kind ≠ .ident) (ts : List Token) :
    isIdentifierList (t :: ts) = false := by
  cases ts with
  | nil => rfl
  | cons u us => rw [isIdentifierList, beq_false_of_ne h, Bool.false_and]

theorem isIdentifierList_eq (h : Linked e p ts ts') (hp : p.within.head? ≠ some .list) :
    isIdentifierList ts = isIdentifierList ts' := by
  induction ts using isIdentifierList.induct generalizing p ts' with
  | case1 a b ts ih =>
    cases h with
    | last ht =>
      have ha : a.kind ≠ .ident := Ending.kind_ne ht (by decide)
      rw [isIdentifierList_of_ne ha, isIdentifierList_of_ne ha]
    | trailing => exact absurd rfl hp
    | @token _ _ _ _ us _ hq h =>
      by_cases ha : a.kind = .ident
      · have hw := within_of_ident (ha ▸ hq)
        rw [← hw] at hp
        cases h with
        | last ht =>
          have hb : (b.kind == .comma) = false := beq_false_of_ne (Ending.kind_ne ht (by decide))
          rw [isIdentifierList, isIdentifierList, hb, Bool.false_and, Bool.false_and]
        | trailing => exact absurd rfl hp
        | token _ hr h =>
          rw [isIdentifierList, isIdentifierList]
          by_cases hb : b.kind = .comma
          · rw [hb, after?, if_neg (fun he => hp he.1)] at hr
            cases hr
            rw [ih h hp]
          · rw [beq_false_of_ne hb, Bool.false_and, Bool.false_and]
      · rw [isIdentifierList_of_ne ha, isIdentifierList_of_ne ha]
  | case2 ts hne =>
    cases h with
    | nil => rfl
    | @last _ t _ _ ht =>
      have ht : t.kind ≠ .ident := Ending.kind_ne ht (by decide)
      rw [isIdentifierList_of_ne ht, isIdentifierList_of_ne ht]
    | trailing => exact absurd rfl hp
    | @token _ _ t ts us _ _ h =>
      cases h with
      | nil => rfl
      | _ => exact absurd rfl (hne _ _ _)

theorem startsNestedAbstract_eq (h : Linked e p ts ts') :
    startsNestedAbstract ts = startsNestedAbstract ts' := by
  have first (t : Token) (ts : List Token) : startsNestedAbstract (t :: ts) =
      (t.kind == .lParen && ts.head?.any fun u => u.kind == .star || u.kind == .lBracket) := by
    cases ts <;> simp [startsNestedAbstract]
  cases h with
  | nil => rfl
  | last ht =>
    rw [first, first, beq_false_of_ne (Ending.kind_ne ht (by decide)), Bool.false_and,
      Bool.false_and]
  | trailing ht hr => rw [first, first, ht, hr]; rfl
  | token _ _ h => rw [first, first, head?_any h (f := fun k => k == .star || k == .lBracket) rfl]

theorem afterParen (h : Linked e p ts ts') (hk : ts.head?.any (·.kind == .lParen) = true) :
    ∃ q, q.within = .paren :: p.within ∧ Linked e q ts.tail ts'.tail := by
  cases h with
  | nil => cases hk
  | token _ hq h =>
    rw [eq_of_beq hk] at hq
    cases hq
    exact ⟨_, rfl, h⟩
  | last ht =>
    exact absurd (eq_of_beq hk) (Ending.kind_ne ht (by decide))
  | trailing ht => cases ht.symm.trans (eq_of_beq hk)

theorem startsTypeName_afterParen (h : Linked e p ts ts') (inCast : Bool) :
    (ts.head?.any (·.kind == .lParen) && startsTypeName inCast ts.tail) =
      (ts'.head?.any (·.kind == .lParen) && startsTypeName inCast ts'.tail) := by
  rw [← head?_any h (f := (· == .lParen)) rfl]
  by_cases hk : ts.head?.any (·.kind == .lParen) = true
  · obtain ⟨q, hq, h⟩ := afterParen h hk
    rw [startsTypeName_eq h hq]
  · rw [Bool.eq_false_iff.mpr hk, Bool.false_and, Bool.false_and]

theorem startsSizeofType_eq (h : Linked e p ts ts') :
    Grammar.startsSizeofType ts = Grammar.startsSizeofType ts' := by
  have first (t : Token) (ts : List Token) : Grammar.startsSizeofType (t :: ts) =
      (t.kind == .kwSizeof &&
        (ts.head?.any (·.kind == .lParen) && startsTypeName false ts.tail)) := by
    cases ts <;> simp [Grammar.startsSizeofType, Bool.and_assoc]
  cases h with
  | nil => rfl
  | last ht =>
    rw [first, first, beq_false_of_ne (Ending.kind_ne ht (by decide)), Bool.false_and,
      Bool.false_and]
  | trailing ht hr => rw [first, first, ht, hr]; rfl
  | token _ _ h => rw [first, first, startsTypeName_afterParen h]

/-- Nesting productions that do the same at linked positions. -/
structure Nesteds (e : Ending) (deep : Nested) : Prop where
  sound : deep.Sound
  operand : ∀ s, Blind e (Free s) (Free s) deep.operand
  expression : ∀ ⦃s⦄, s.head? ≠ some .list → Blind e (Free s) (Free s) deep.expression
  conditional : ∀ s, Blind e (Free s) (Free s) deep.conditional
  struct : ∀ ⦃s c c'⦄, Cursors e (Free s) c c' → c.peek.kind.is .structOrUnion = true →
    Outcome (Cursors e (Free s)) (deep.struct c) (deep.struct c')
  initializer : ∀ s, Blind e (At s .list) (Free s) deep.initializer
  declarator : ∀ ⦃s⦄, s.head? ≠ some .list → Blind e (Free s) (At s .block) deep.declarator
  abstractDeclarator : ∀ ⦃s⦄, s.head? ≠ some .list →
    Blind e (Free s) (Free s) deep.abstractDeclarator
  statement : ∀ s, Blind e (At (.block :: s) .block) (At (.block :: s) .block) deep.statement

variable {deep : Nested}

open Grammar

theorem isInner_of_is {g : Category} (hg : ∀ k ∈ g.members, k.isInner = true)
    (h : k.is g = true) : k.isInner = true :=
  Kind.of_is (P := fun k => k.isInner = true) h hg

theorem isInner_of_accepts {l : Expected} (hl : l ∈ ladder) (hk : l.accepts k = true) :
    k.isInner = true := by
  cases l with
  | token k' =>
    obtain rfl : k = k' := eq_of_beq hk
    simp only [ladder, List.mem_cons, Expected.token.injEq, reduceCtorEq, List.not_mem_nil,
      or_false] at hl
    obtain rfl | rfl | rfl | rfl | rfl := hl <;> rfl
  | category g =>
    simp only [ladder, List.mem_cons, Expected.category.injEq, reduceCtorEq, List.not_mem_nil,
      or_false, false_or] at hl
    obtain rfl | rfl | rfl | rfl | rfl := hl <;> exact isInner_of_is (by decide) hk
  | production _ => cases hk

theorem binary_blind {p : Parse Node} (hp : ReadsAs p .operand) (h : Blind e (Free s) (Free s) p)
    {levels : List Expected} (hl : levels ⊆ ladder) :
    Blind e (Free s) (Free s) (binary p levels) := by
  induction levels with
  | nil => exact h
  | cons level tighter ih =>
    have hi := ih (List.subset_of_cons_subset hl)
    have inner {k : Kind} := isInner_of_accepts (k := k) (hl List.mem_cons_self)
    have apart : level.accepts .rBrace = level.accepts .comma := by
      rw [Bool.eq_false_iff.mpr fun h => absurd (inner h) (by decide),
        Bool.eq_false_iff.mpr fun h => absurd (inner h) (by decide)]
    intro c c' hc
    refine .bind (hi hc) fun {n d d'} hd => Blind.iterate (fun lhs => ?_)
      (fun lhs c c' hc => ?_) n hd
    · intro c m d hc h
      obtain ⟨k, c₁, h₁, h⟩ := bind_ok h
      cases h₁
      split at h
      next ha =>
        have hk : c.peek.kind ≠ .eof := fun hk => absurd (inner ha) (by rw [hk]; decide)
        refine length_lt_of_advance hc hk (fun t => ?_) h
        exact .bind (.of_reads (binary_reads hp (List.subset_of_cons_subset hl))) fun _ => .pure _
      next => cases h
    · refine .peekKind hc (by rw [apart]) fun k hk => ?_
      split
      next ha =>
        exact .advance hc hk (.inner (inner ha)) fun hd => .bind (hi hd.free) fun hd => .pure hd
      next => exact .pure hc

theorem conditional_blind (h : Nesteds e deep) : Blind e (Free s) (Free s) (conditional deep) := by
  intro c c' hc
  refine .bind (binary_blind h.sound.operand (h.operand s) (List.Subset.refl _) hc) fun hd => ?_
  refine .eat hd (hd.sees (by decide)) .choice (fun _ hd => ?_) (.pure hd)
  refine .bind (h.expression (by simp) hd.free) fun hd => ?_
  refine .expect hd (hd.sees (by decide)) .closeChoice fun hd => ?_
  exact .bind (h.conditional s hd.free) fun hd => .pure hd

theorem assignmentUpTo_of_end (hd : deep.Sound) (hc : c.Ended) (h : c.ahead.isEmpty = true)
    (n : Nat) : assignmentUpTo deep n c = conditional deep c := by
  cases n with
  | zero => rfl
  | succ n =>
    rw [assignmentUpTo]
    cases hr : conditional deep c with
    | error e => rw [bind_of_error hr]
    | ok r =>
      obtain ⟨xs, p, hx⟩ := conditional_reads hd hc hr
      have := p.length_lt hx.ne_nil
      rw [List.isEmpty_iff.mp h] at this
      exact absurd this (Nat.not_lt_zero _)

theorem assignment_blind (h : Nesteds e deep) : Blind e (Free s) (Free s) (assignment deep) := by
  have loop (n : Nat) : ∀ {m c c'}, c.ahead.length ≤ n → c'.ahead.length ≤ m →
      Cursors e (Free s) c c' →
      Outcome (Cursors e (Free s)) (assignmentUpTo deep n c) (assignmentUpTo deep m c') := by
    have ends {n m : Nat} {c c' : Cursor} (hc : Cursors e (Free s) c c')
        (he : c.ahead.isEmpty = true) :
        Outcome (Cursors e (Free s)) (assignmentUpTo deep n c) (assignmentUpTo deep m c') := by
      rw [assignmentUpTo_of_end h.sound hc.ended he,
        assignmentUpTo_of_end h.sound hc.ended' (hc.isEmpty ▸ he)]
      exact conditional_blind h hc
    induction n with
    | zero =>
      intro m c c' hn hm hc
      exact ends hc (List.isEmpty_iff_length_eq_zero.mpr (Nat.le_zero.mp hn))
    | succ n ih =>
      intro m c c' hn hm hc
      obtain _ | m := m
      · exact ends hc (hc.isEmpty.trans (List.isEmpty_iff_length_eq_zero.mpr (Nat.le_zero.mp hm)))
      refine .bindOk (conditional_blind h hc) fun hs hs' hd => ?_
      have hn' := Nat.le_trans ((conditional_reads h.sound).length_le hc.ended hs) hn
      have hm' := Nat.le_trans ((conditional_reads h.sound).length_le hc.ended' hs') hm
      refine .peekKind hd rfl fun k hk => ?_
      split
      next hg =>
        split
        · obtain ⟨hl, hl'⟩ := hd.advance_lt hk (.assignment hg)
          refine .advance hd hk (.assignment hg) fun hd => .bind (ih ?_ ?_ hd) fun hd => .pure hd
          · exact Nat.le_of_lt_succ (Nat.lt_of_lt_of_le hl hn')
          · exact Nat.le_of_lt_succ (Nat.lt_of_lt_of_le hl' hm')
        · exact .fail _
      next => exact .pure hd
  intro c c' hc
  exact .ahead (loop _ (Nat.le_refl _) (Nat.le_refl _) hc)

theorem expression_blind (h : Nesteds e deep) (hs : s.head? ≠ some .list) :
    Blind e (Free s) (Free s) (expression deep) := fun _ _ hc =>
  .bind (Blind.commaList (assignment_reads h.sound) hs (assignment_blind h) hc) fun hd => .pure hd

theorem condition_blind (h : Nesteds e deep) :
    Blind e (Free s) (At s .block) (condition deep) := by
  intro c c' hc
  refine .expect hc (hc.sees (by decide)) .paren fun hd => ?_
  refine .bind (expression_blind h (by simp) hd.free) fun hd => ?_
  exact .expect hd (hd.sees (by decide)) .closeParen fun hd => .pure hd

theorem enumerator_blind (h : Nesteds e deep) : Blind e (Free s) (Free s) (enumerator deep) := by
  intro c c' hc
  refine .expect hc (hc.sees (by decide)) (.inner rfl) fun hd => ?_
  refine .after hd.free (hd.sees (by decide)) .eq (fun hd => ?_) hd.free fun hd => .pure hd
  exact conditional_blind h hd.free_list

theorem enumSpecifier_blind (h : Nesteds e deep) (hk : c.peek.kind = .kwEnum)
    (hc : Cursors e (Free s) c c') :
    Outcome (Cursors e (Free s)) (enumSpecifier deep c) (enumSpecifier deep c') := by
  have item : Blind e (At (.list :: s) .list) (Free (.list :: s)) (enumerator deep) :=
    fun _ _ hc => enumerator_blind h hc.free_list
  have reads := enumerator_reads h.sound
  refine .advance hc hk .enumWord fun hd => ?_
  refine .eat? hd (hd.sees (by decide)) .enumName (fun hd => ?_) ?_
  · refine .eat hd (hd.sees (by decide)) (.list (.inl rfl)) (fun _ hd => ?_) (.pure hd.free_list)
    exact .list reads item hd fun hd => .pure hd.free
  · refine .eat hd (hd.sees (by decide)) (.list (.inr rfl)) (fun _ hd => ?_) (.fail _)
    exact .list reads item hd fun hd => .pure hd.free

/-- An atomic type specifier. Its type name is read further on. -/
theorem atomicSpecifier_blind {p p' : Parse Node} (hk : c.peek.kind = .kwAtomic)
    (hc : Cursors e (Free s) c c')
    (h : ∀ {d d'}, d.ahead.length < c.ahead.length → d'.ahead.length < c'.ahead.length →
      Cursors e (Free (.paren :: s)) d d' →
      Outcome (Cursors e (Free (.paren :: s))) (p d) (p' d')) :
    Outcome (Cursors e (Free s)) (atomicSpecifier p c) (atomicSpecifier p' c') := by
  obtain ⟨hl, hl'⟩ := hc.advance_lt hk (.inner rfl)
  refine .advance hc hk (.inner rfl) fun hd => ?_
  refine .expect hd.free (hd.sees (by decide)) .paren fun hd => ?_
  refine .bind (h ?_ ?_ hd.free) fun hd => ?_
  · exact Nat.lt_of_le_of_lt (Cursor.advance_length_le _) hl
  · exact Nat.lt_of_le_of_lt (Cursor.advance_length_le _) hl'
  · exact .expect hd (hd.sees (by decide)) .closeParen fun hd => .pure hd.free

theorem second_any (hc : Cursors e P c c') (hk : c.peek.kind = k) (hl : Leads e P k P')
    {f : Kind → Bool}
    (hf : f .comma = f .rBrace) :
    c.ahead[1]?.any (fun t => f t.kind) = c'.ahead[1]?.any (fun t => f t.kind) := by
  obtain ⟨-, hd⟩ := hc.advance (hk ▸ hl)
  obtain ⟨p, -, hd⟩ := hd.ahead
  have := head?_any hd hf
  simpa [Cursor.advance] using this

theorem specifier?_blind (h : Nesteds e deep) {p q : Parse Node} (hc : Cursors e (Free s) c c')
    (hp : ∀ {d d'}, d.ahead.length < c.ahead.length → d'.ahead.length < c'.ahead.length →
      Cursors e (Free (.paren :: s)) d d' →
      Outcome (Cursors e (Free (.paren :: s))) (p d) (q d')) (seen : Bool) :
    Outcome (Cursors e (Free s)) (specifier? deep p seen c) (specifier? deep q seen c') := by
  refine .peekKind hc rfl fun k hk => .ahead ?_
  have word {f : Token → Parse (Option (Node × Bool))} (hi : k.isInner = true)
      (hf : ∀ {t d d'}, Cursors e (Free s) d d' →
        Outcome (Cursors e (Free s)) (f t d) (f t d')) :
      Outcome (Cursors e (Free s)) ((advance >>= f) c) ((advance >>= f) c') :=
    .advance hc hk (.inner hi) fun hd => hf hd.free
  have atomic : (k == .kwAtomic && c.ahead[1]?.any (·.kind == .lParen)) =
      (k == .kwAtomic && c'.ahead[1]?.any (·.kind == .lParen)) := by
    by_cases ha : k = .kwAtomic
    · rw [second_any hc (hk.trans ha) (.inner rfl) (f := (· == .lParen)) rfl]
    · rw [beq_false_of_ne ha, Bool.false_and, Bool.false_and]
  rw [← atomic]
  split
  next hg =>
    have ha : c.peek.kind = .kwAtomic := by
      rw [hk]
      exact eq_of_beq (Bool.and_eq_true_iff.mp hg).1
    exact .bind (atomicSpecifier_blind ha hc hp) fun hd => .pure hd
  split
  next hg =>
    simp only [Bool.or_eq_true] at hg
    obtain (hg | hg) | hg := hg <;> exact word (isInner_of_is (by decide) hg) fun hd => .pure hd
  split
  next hg => exact word (isInner_of_is (by decide) hg) fun hd => .pure hd
  split
  next hg => exact .bind (h.struct hc (hk ▸ hg)) fun hd => .pure hd
  split
  next hg => exact .bind (enumSpecifier_blind h (hk.trans (eq_of_beq hg)) hc) fun hd => .pure hd
  split
  next hg =>
    have hi : k.isInner = true := by
      rw [eq_of_beq (Bool.and_eq_true_iff.mp hg).1]
      rfl
    exact word hi fun hd => .pure hd
  next => exact .pure hc

theorem specifierNode_blind {wrap : List Node → Shape Node} {ns : List Node} :
    Blind e (Free s) (Free s) (specifierNode wrap ns) := by
  intro c c' hc
  rw [specifierNode]
  split
  · exact .fail _
  · exact .pure hc

theorem typeNameOf_blind (h : Nesteds e deep) {ns : List Node} (hs : s.head? ≠ some .list) :
    Blind e (Free s) (Free s) (typeNameOf deep ns) := by
  intro c c' hc
  refine .bind (specifierNode_blind hc) fun hd => .peekKind hd rfl fun k hk => ?_
  split
  · exact .bind (h.abstractDeclarator hs hd) fun hd => .pure hd
  · exact .pure hd

theorem typeNameUpTo_reads (hd : deep.Sound) (n : Nat) :
    ReadsAs (do typeNameOf deep (← specifiersUpTo deep n false)) .typeName := by
  intro c t d hc h
  obtain ⟨ns, c₁, h₁, h⟩ := bind_ok h
  obtain ⟨xs, p, hs⟩ := specifiersUpTo_reads hd n false hc h₁
  exact typeNameOf_reads hd hs p hc h

theorem specifiersUpTo_blind (h : Nesteds e deep) (n : Nat) : ∀ {m s seen c c'},
    c.ahead.length < n → c'.ahead.length < m → Cursors e (Free s) c c' →
    Outcome (Cursors e (Free s)) (specifiersUpTo deep n seen c)
      (specifiersUpTo deep m seen c') := by
  induction n with
  | zero => exact fun hn => absurd hn (Nat.not_lt_zero _)
  | succ n ih =>
    intro m s seen c c' hn hm hc
    obtain _ | m := m
    · exact absurd hm (Nat.not_lt_zero _)
    have hr := specifier?_blind h hc (p := do typeNameOf deep (← specifiersUpTo deep n false))
      (q := do typeNameOf deep (← specifiersUpTo deep m false)) (fun hl hl' hd =>
        .bind (ih (Nat.lt_of_lt_of_le hl (Nat.le_of_lt_succ hn))
          (Nat.lt_of_lt_of_le hl' (Nat.le_of_lt_succ hm)) hd) fun hd =>
            typeNameOf_blind h (by simp) hd) seen
    have takes (n : Nat) := Takes.of_reads
      (specifier?_reads h.sound (typeNameUpTo_reads h.sound n) seen) fun xs r hx => hx.ne_nil
    refine .bindOk hr fun {o d d'} hs hs' hd => ?_
    cases o with
    | none => exact .pure hd
    | some r =>
      have hl := takes n hc.ended hs
      have hl' := takes m hc.ended' hs'
      exact .bind (ih (Nat.lt_of_lt_of_le hl (Nat.le_of_lt_succ hn))
        (Nat.lt_of_lt_of_le hl' (Nat.le_of_lt_succ hm)) hd) fun hd => .pure hd

theorem specifierList_blind (h : Nesteds e deep) :
    Blind e (Free s) (Free s) (specifierList deep) := fun _ _ hc =>
  .ahead (specifiersUpTo_blind h _ (Nat.lt_succ_self _) (Nat.lt_succ_self _) hc)

theorem declSpecs_blind (h : Nesteds e deep) : Blind e (Free s) (Free s) (declSpecs deep) :=
  fun _ _ hc => .bind (specifierList_blind h hc) fun hd => specifierNode_blind hd

theorem specQuals_blind (h : Nesteds e deep) : Blind e (Free s) (Free s) (specQuals deep) :=
  fun _ _ hc => .bind (specifierList_blind h hc) fun hd => specifierNode_blind hd

theorem typeName_blind (h : Nesteds e deep) (hs : s.head? ≠ some .list) :
    Blind e (Free s) (Free s) (typeName deep) :=
  fun _ _ hc => .bind (specifierList_blind h hc) fun hd => typeNameOf_blind h hs hd

end CPretty.Linked
