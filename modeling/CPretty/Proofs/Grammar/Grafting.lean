import CPretty.Proofs.Grammar.Settled
import CPretty.Proofs.Syntax.Grafted

namespace CPretty

open Parse Linked

variable {c d : Cursor} {a a' n : Node} {deep : Nested} {l k : Nat} {f : Token} {us : List Token}
  {params : Option (List Node)}

/-- The tokens `xs` and `ys` of a declarator. The list is put between them: directly after the name,
if the declarator starts with it. -/
structure Cursor.Splits (c : Cursor) (xs ys : List Token) (d : Cursor) : Prop where
  ne_nil : xs ≠ []
  name : c.peek.kind = .ident → xs = [c.peek]
  passes : c.Passes (xs ++ ys) d

theorem Cursor.Splits.peek_eq {xs ys : List Token} (h : c.Splits xs ys d) (us : List Token) :
    ((d.before ys).before (xs ++ us)).peek = c.peek := by
  obtain ⟨t, ts, rfl⟩ := List.exists_cons_of_ne_nil h.ne_nil
  rw [h.passes.eq_before]
  rfl

/-- With the tokens `us` of a parameter list put in, the parser reads the same declarator with this
list. -/
def Grafts (us : List Token) (params : Option (List Node)) (p : Parse Node) (c : Cursor) (n : Node)
    (d : Cursor) : Prop :=
  ∃ xs ys n', c.Splits xs ys d ∧ n.Grafted params n' ∧
    p ((d.before ys).before (xs ++ us)) = .ok (n', d)

/-- The tokens `us` are a parameter list, whatever stands before and behind them. -/
structure Nested.ReadsList (deep : Nested) (us : List Token) (params : Option (List Node)) :
    Prop where
  ne_nil : us ≠ []
  suffix : ∀ b ⦃c : Cursor⦄, c.Ended → ∃ sp,
    Grammar.suffix? deep (some b) (c.before us) = .ok (some ⟨sp, .function (some b) params⟩, c)

namespace Grammar

theorem qualifiers_settled {qs : List Node} (hc : c.Ended) (h : many qualifier? c = .ok (qs, d)) :
    Settled (many qualifier?) c qs d := by
  refine .many qualifier?_reads (fun _ _ h => h.ne_nil) ?_ ?_ hc h
  · intro c d a hc h
    obtain ⟨k, c₁, h₁, h⟩ := bind_ok h
    cases h₁
    split at h
    next hk =>
      obtain ⟨t, c₁, h₁, h⟩ := bind_ok h
      obtain ⟨ht, pt⟩ := advance_of_is h₁ hc hk
      obtain ⟨ha, rfl⟩ := pure_ok h
      refine ⟨[t], pt, fun d' _ _ => ?_⟩
      rw [qualifier?, bind_of_ok (peekKind_apply _), Cursor.peek_before_cons, if_pos ht, ha]
      rfl
    next => cases h
  · intro c c' d hn h
    obtain ⟨k, c₁, h₁, h⟩ := bind_ok h
    cases h₁
    split at h
    next =>
      obtain ⟨t, c₁, -, h⟩ := bind_ok h
      cases h
    next hk =>
      rw [qualifier?, bind_of_ok (peekKind_apply c'), hn, if_neg hk]
      rfl

theorem pointerLevels_settled {ls : List (Token × List Node)} (hc : c.Ended)
    (h : many pointerLevel? c = .ok (ls, d)) : Settled (many pointerLevel?) c ls d := by
  refine .many pointerLevel?_reads ?_ ?_ ?_ hc h
  · rintro _ r ⟨ys, rfl, -⟩
    exact List.cons_ne_nil _ _
  · intro c d a hc h
    obtain ⟨star, c₁, h₁, h⟩ := bind_ok h
    obtain ⟨p₁, hs, -⟩ := eat?_ok h₁ hc (by decide)
    cases star with
    | none => cases h
    | some t =>
      obtain ⟨qs, c₂, h₂, h⟩ := bind_ok h
      obtain ⟨ha, rfl⟩ := pure_ok h
      obtain ⟨xs, p₂, run⟩ := qualifiers_settled (p₁.ended hc) h₂
      refine ⟨_, p₁.trans p₂, fun d' hd' hn => ?_⟩
      rw [Cursor.before_append, pointerLevel?, bind_of_ok (eat?_before hs nofun)]
      dsimp only
      rw [bind_of_ok (run hd' hn), ha]
      rfl
  · intro c c' d hn h
    obtain ⟨star, c₁, h₁, h⟩ := bind_ok h
    cases star with
    | some t =>
      obtain ⟨qs, c₂, -, h⟩ := bind_ok h
      cases h
    | none =>
      have hk : ¬ (c'.peek.kind == Kind.star) = true := by
        rw [hn]
        intro hk
        rw [eat?_apply, if_pos hk] at h₁
        cases h₁
      rw [pointerLevel?, bind_of_ok (d := c') (a := none) (by rw [eat?_apply, if_neg hk])]
      rfl

theorem many_pointerLevel?_of_ne (hk : c.peek.kind ≠ .star) :
    many pointerLevel? c = .ok ([], c) := by
  have none : eat? .star c = .ok (none, c) := by rw [eat?_apply, if_neg (by simpa using hk)]
  rw [many, bind_of_ok (ahead_apply c), manyUpTo, bind_of_ok (a := Option.none) (d := c)]
  · rfl
  · rw [pointerLevel?, bind_of_ok none]
    rfl

theorem declaratorBase_nested {l r : Token} {xs : List Token} (hl : l.kind = .lParen)
    (hr : r.kind = .rParen)
    (h : deep.declarator ((d.before [r]).before xs) = .ok (n, d.before [r])) :
    declaratorBase deep (((d.before [r]).before xs).before [l]) =
      .ok (Node.between l.span r.span (.nested n), d) := by
  rw [declaratorBase, bind_of_ok (peekKind_apply _), Cursor.peek_before_cons, hl]
  dsimp only
  rw [bind_of_ok (advance_apply _), Cursor.peek_before_cons, Cursor.advance_before_cons,
    Cursor.before_nil, bind_of_ok h, bind_of_ok (expect_before hr)]
  rfl

theorem declaratorBase_settled (h : ∀ e, Linked.Nesteds e deep) (hc : c.Ended)
    (hr : declaratorBase deep c = .ok (n, d)) : ∃ xs, c.Passes xs d ∧
      ∀ ⦃d' : Cursor⦄, d'.Ended → declaratorBase deep (d'.before xs) = .ok (n, d') := by
  have sound := (h ⟨.source, [], []⟩).sound
  obtain ⟨hk, p, rfl⟩ | ⟨a, r, xs, c₁, c₂, hl, hr', p₁, h₂, p₂, ha, p₃, rfl⟩ :=
    declaratorBase_cases sound hc hr
  · refine ⟨_, p, fun d' _ => ?_⟩
    rw [declaratorBase, bind_of_ok (peekKind_apply _), Cursor.peek_before_cons, hk]
    rfl
  · refine ⟨_, p₁.trans (p₂.trans p₃), fun d' hd' => ?_⟩
    have close : c₂.peek = r := by
      rw [p₃.eq_before]
      rfl
    have inner : deep.declarator ((d'.before [r]).before xs) = .ok (a, d'.before [r]) := by
      refine Linked.enclosed (P := Place.Free []) (Q := Place.At [] .block) sound.declarator
        (p₁.ended hc) p₂ h₂ (.inl (close ▸ hr')) hd' close.symm
        ⟨.block, by decide, rfl⟩ (by rintro _ rfl; rfl) (ha.walks (s := []) trivial) fun hb => ?_
      exact (h _).declarator (by simp) hb
    simp only [Cursor.before_append]
    exact declaratorBase_nested hl hr' inner

/-- A suffix is read alike after two related declarators. -/
theorem suffix?_congr {R : Node → Node → Prop} (hR : Node.Suffixing R) {o : Option Node}
    (hg : R a a') (h : suffix? deep (some a) c = .ok (o, d)) :
    ∃ o', suffix? deep (some a') c = .ok (o', d) ∧ Option.Rel R o o' := by
  obtain ⟨k, c₁, h₁, h⟩ := bind_ok h
  cases h₁
  rw [suffix?, bind_of_ok (peekKind_apply c)]
  generalize c.peek.kind = k at h
  split at h
  next =>
    obtain ⟨l, c₁, h₁, h⟩ := bind_ok h
    obtain ⟨b, c₂, h₂, h⟩ := bind_ok h
    dsimp only
    rw [bind_of_ok h₁, bind_of_ok h₂]
    split at h
    next hb =>
      obtain ⟨size, c₃, h₃, h⟩ := bind_ok h
      obtain ⟨r, c₄, h₄, h⟩ := bind_ok h
      obtain ⟨rfl, rfl⟩ := pure_ok h
      rw [if_pos hb, bind_of_ok h₃, bind_of_ok h₄]
      exact ⟨_, rfl, .some (hR.array hg)⟩
    next hb =>
      obtain ⟨size, c₃, h₃, h⟩ := bind_ok h
      obtain ⟨r, c₄, h₄, h⟩ := bind_ok h
      obtain ⟨rfl, rfl⟩ := pure_ok h
      rw [if_neg hb, bind_of_ok h₃, bind_of_ok h₄]
      exact ⟨_, rfl, .some (hR.array hg)⟩
  next =>
    obtain ⟨l, c₁, h₁, h⟩ := bind_ok h
    obtain ⟨ps, c₂, h₂, h⟩ := bind_ok h
    obtain ⟨r, c₃, h₃, h⟩ := bind_ok h
    obtain ⟨rfl, rfl⟩ := pure_ok h
    rw [bind_of_ok h₁, bind_of_ok h₂, bind_of_ok h₃]
    exact ⟨_, rfl, .some (hR.function hg)⟩
  next =>
    obtain ⟨rfl, rfl⟩ := pure_ok h
    exact ⟨none, rfl, .none⟩

theorem suffixes_congr {R : Node → Node → Prop} (hR : Node.Suffixing R) (hd : deep.Sound)
    (i : Nat) : ∀ {j c a a'}, c.Ended → c.ahead.length < i → c.ahead.length < j → R a a' →
      iterateUpTo (fun decl => suffix? deep (some decl)) i a c = .ok (n, d) →
      ∃ ys n', c.Passes ys d ∧ R n n' ∧
        iterateUpTo (fun decl => suffix? deep (some decl)) j a' c = .ok (n', d) := by
  induction i with
  | zero => exact fun _ hi => absurd hi (Nat.not_lt_zero _)
  | succ i ih =>
    intro j c a a' hc hi hj hg h
    obtain ⟨j, rfl⟩ := Nat.exists_eq_add_one_of_ne_zero (Nat.ne_zero_of_lt hj)
    obtain ⟨o, c₁, h₁, h⟩ := bind_ok h
    obtain ⟨xs, px, hx⟩ := suffix?_reads hd (some a) hc h₁
    obtain ⟨o', h₂, hr⟩ := suffix?_congr hR hg h₁
    rw [iterateUpTo, bind_of_ok h₂]
    cases hr with
    | none =>
      obtain ⟨rfl, rfl⟩ := pure_ok h
      exact ⟨xs, a', px, hg, rfl⟩
    | some hg =>
      obtain ⟨l, ys, r, rfl, -⟩ := hx
      have shorter := px.length_lt (by simp)
      obtain ⟨zs, n', pz, hn, run⟩ := ih (j := j) (px.ended hc) (by omega) (by omega) hg h
      exact ⟨_, n', px.trans pz, hn, run⟩

theorem suffixes_related {R : Node → Node → Prop} (hR : Node.Suffixing R) (hd : deep.Sound)
    (hc : c.Ended) (hg : R a a')
    (h : iterate (fun decl => suffix? deep (some decl)) a c = .ok (n, d)) :
    ∃ ys n', c.Passes ys d ∧ R n n' ∧
      iterate (fun decl => suffix? deep (some decl)) a' c = .ok (n', d) := by
  obtain ⟨_, c₁, h₁, hi⟩ := bind_ok h
  cases h₁
  obtain ⟨ys, n', py, hn, run⟩ :=
    suffixes_congr hR hd _ hc (Nat.lt_succ_self _) (Nat.lt_succ_self _) hg hi
  refine ⟨ys, n', py, hn, ?_⟩
  rw [iterate, bind_of_ok (ahead_apply _)]
  exact run

/-- A declarator under its pointers: the part in the middle and the suffixes after it. -/
abbrev direct (deep : Nested) : Parse Node := do
  iterate (fun decl => suffix? deep (some decl)) (← declaratorBase deep)

theorem declarator_cases (h : declarator deep c = .ok (n, d)) :
    ∃ ls c₁ a, many pointerLevel? c = .ok (ls, c₁) ∧ direct deep c₁ = .ok (a, d) ∧
      n = ls.foldr (fun (star, quals) inner => Node.pointer star quals (some inner)) a := by
  obtain ⟨ls, c₁, h₁, h⟩ := bind_ok h
  obtain ⟨b, c₂, h₂, h⟩ := bind_ok h
  obtain ⟨a, c₃, h₃, h⟩ := bind_ok h
  obtain ⟨rfl, rfl⟩ := pure_ok h
  exact ⟨ls, c₁, a, h₁, by rw [direct, bind_of_ok h₂, h₃], rfl⟩

theorem declarator_of_direct {ls : List (Token × List Node)} {c₁ : Cursor}
    (h₁ : many pointerLevel? c = .ok (ls, c₁)) (h : direct deep c₁ = .ok (a, d)) :
    declarator deep c =
      .ok (ls.foldr (fun (star, quals) inner => Node.pointer star quals (some inner)) a, d) := by
  obtain ⟨b, c₂, h₂, h₃⟩ := bind_ok h
  rw [declarator, bind_of_ok h₁, bind_of_ok h₂, bind_of_ok h₃]
  rfl

theorem readsList_emptyList (deep : Nested) : deep.ReadsList Derives.emptyList none := by
  refine ⟨List.cons_ne_nil _ _, fun b c _ => ?_⟩
  rw [Derives.emptyList, suffix?, bind_of_ok (peekKind_apply _), Cursor.peek_before_cons]
  dsimp only
  rw [bind_of_ok (advance_apply _), Cursor.peek_before_cons, Cursor.advance_before_cons]
  have none : parameterList deep (c.before [⟨.rParen, ")", default⟩]) =
      .ok (none, c.before [⟨.rParen, ")", default⟩]) := by
    rw [parameterList, bind_of_ok (check_apply _ _), Cursor.peek_before_cons]
    rfl
  have close : expect .rParen (c.before [⟨.rParen, ")", default⟩]) =
      .ok (⟨.rParen, ")", default⟩, c) := expect_before rfl
  rw [bind_of_ok none, bind_of_ok close]
  exact ⟨_, rfl⟩

/-- Directly after its name a declarator goes on with the list. -/
theorem suffixes_grafts (hu : deep.ReadsList us params) (hd : deep.Sound) (hc : c.Ended)
    (hb : a.isBareName = true)
    (h : iterate (fun decl => suffix? deep (some decl)) a c = .ok (n, d)) :
    ∃ ys n', c.Passes ys d ∧ n.Grafted params n' ∧
      iterate (fun decl => suffix? deep (some decl)) a (c.before us) = .ok (n', d) := by
  obtain ⟨_, c₁, h₁, hi⟩ := bind_ok h
  cases h₁
  obtain ⟨sp, list⟩ := hu.suffix a hc
  have put : a.Grafted params ⟨sp, .function (some a) params⟩ := .bareName hb
  have some : 0 < us.length := List.length_pos_iff.mpr hu.ne_nil
  obtain ⟨ys, n', py, hg, hn⟩ := suffixes_congr (Node.Grafted.suffixing params) hd _ hc
    (Nat.lt_succ_self _) (j := us.length + c.ahead.length) (by omega) put hi
  refine ⟨ys, n', py, hg, ?_⟩
  have len : (c.before us).ahead.length = us.length + c.ahead.length := List.length_append
  rw [iterate, bind_of_ok (ahead_apply _), len, iterateUpTo, bind_of_ok list]
  exact hn

/-- A list that does not come after the parentheses comes somewhere in them. -/
theorem declaratorBase_grafts (hd : deep.Sound) (hc : c.Ended)
    (ih : ∀ {c' n d}, c'.Ended → c'.ahead.length < c.ahead.length →
      deep.declarator c' = .ok (n, d) → Grafts us params deep.declarator c' n d)
    (hr : declaratorBase deep c = .ok (n, d)) (hb : n.isBareName = false) :
    Grafts us params (declaratorBase deep) c n d := by
  obtain ⟨-, -, rfl⟩ | ⟨m, r, xs, c₁, c₂, hl, hr', p₁, h₂, -, -, p₃, rfl⟩ :=
    declaratorBase_cases hd hc hr
  · cases hb
  obtain ⟨vs, ws, m', p₂, hm, run⟩ := ih (p₁.ended hc) (p₁.length_lt (List.cons_ne_nil _ _)) h₂
  have inside : (Node.between c.peek.span r.span (.nested m)).Grafted params
      (Node.between c.peek.span r.span (.nested m')) := hm.nested hb
  refine ⟨c.peek :: vs, ws ++ [r], _, ⟨List.cons_ne_nil _ _, fun hk => ?_, ?_⟩, inside, ?_⟩
  · cases hl.symm.trans hk
  · simpa using p₁.trans (p₂.passes.trans p₃)
  · rw [p₃.eq_before, ← Cursor.before_append] at run
    simpa only [Cursor.before, List.append_assoc, List.cons_append, List.nil_append] using
      declaratorBase_nested hl hr' run

/-- Under its pointers the list is put after the name or into the parentheses around it. -/
theorem direct_grafts (h : ∀ e, Linked.Nesteds e deep) (hu : deep.ReadsList us params)
    (hc : c.Ended) (ih : ∀ {c' n d}, c'.Ended → c'.ahead.length < c.ahead.length →
      deep.declarator c' = .ok (n, d) → Grafts us params deep.declarator c' n d)
    (hr : direct deep c = .ok (n, d)) : Grafts us params (direct deep) c n d := by
  have sound := (h ⟨.source, [], []⟩).sound
  obtain ⟨b, c₁, h₁, hi⟩ := bind_ok hr
  cases hb : b.isBareName with
  | true =>
    obtain ⟨xs, px, run⟩ := declaratorBase_settled h hc h₁
    obtain ⟨ys, n', py, hn, suffixes⟩ := suffixes_grafts hu sound (px.ended hc) hb hi
    have name : c.peek.kind = .ident → xs = [c.peek] := by
      intro hk
      obtain ⟨-, p, -⟩ | ⟨_, _, _, _, _, hl, -⟩ := declaratorBase_cases sound hc h₁
      · exact px.unique p
      · cases hl.symm.trans hk
    have some : xs ≠ [] := by
      obtain ⟨_, px', hx⟩ := declaratorBase_reads sound hc h₁
      exact px.unique px' ▸ hx.ne_nil
    refine ⟨xs, ys, n', ⟨some, name, px.trans py⟩, hn, ?_⟩
    have base : declaratorBase deep ((c₁.before us).before xs) = .ok (b, c₁.before us) :=
      run (px.ended hc)
    rw [← py.eq_before, Cursor.before_append, direct, bind_of_ok base]
    exact suffixes
  | false =>
    obtain ⟨xs, ys, b', p, hg, base⟩ := declaratorBase_grafts sound hc ih h₁ hb
    obtain ⟨zs, n', pz, hn, suffixes⟩ :=
      suffixes_related (Node.Grafted.suffixing params) sound (p.passes.ended hc) hg hi
    refine ⟨xs, ys ++ zs, n', ⟨p.ne_nil, p.name, by simpa using p.passes.trans pz⟩, hn, ?_⟩
    rw [Cursor.before_append ys, ← pz.eq_before, direct, bind_of_ok base]
    exact suffixes

theorem pointers_grafted (ls : List (Token × List Node)) (hg : a.Grafted params a') :
    (ls.foldr (fun (star, quals) inner => Node.pointer star quals (some inner)) a).Grafted params
      (ls.foldr (fun (star, quals) inner => Node.pointer star quals (some inner)) a') := by
  induction ls with
  | nil => exact hg
  | cons r ls ih => exact ih.pointer

/-- At the levels of nesting where the name can stand, the list has to be read. -/
theorem declarator_grafts (h : ∀ e k, Linked.Nesteds e (.levels l k)) (k : Nat) :
    ∀ {c n d}, c.Ended → (∀ j, k ≤ j + c.ahead.length → (Nested.levels l j).ReadsList us params) →
      (Nested.levels l k).declarator c = .ok (n, d) →
      Grafts us params (Nested.levels l k).declarator c n d := by
  induction k with
  | zero => exact fun _ _ hr => nomatch hr
  | succ k ih =>
    intro c n d hc hu hr
    obtain ⟨ls, c₁, a, h₁, hd, rfl⟩ := declarator_cases hr
    obtain ⟨xs, px, run⟩ := pointerLevels_settled hc h₁
    have hc₁ := px.ended hc
    have hl := px.length_le
    obtain ⟨b, c₂, h₂, -⟩ := bind_ok hd
    obtain ⟨_, pb, hb⟩ := declaratorBase_reads (h ⟨.source, [], []⟩ k).sound hc₁ h₂
    have some := pb.length_lt hb.ne_nil
    obtain ⟨ys, zs, a', p, hg, hn⟩ := direct_grafts (h · k) (hu k (by omega)) hc₁
      (fun hc' hl' => ih hc' fun j hj => hu j (by omega)) hd
    refine ⟨xs ++ ys, zs, _, ⟨?_, ?_, ?_⟩, pointers_grafted ls hg, ?_⟩
    · exact List.append_ne_nil_of_right_ne_nil _ p.ne_nil
    · intro hk
      rw [many_pointerLevel?_of_ne (by rw [hk]; decide)] at h₁
      cases h₁
      rw [px.eq_nil, List.nil_append, p.name hk]
    · simpa using px.trans p.passes
    · rw [List.append_assoc, Cursor.before_append]
      exact declarator_of_direct (run (p.passes.ended hc₁) (p.peek_eq us)) hn

end Grammar
end CPretty
