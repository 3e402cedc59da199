import CPretty.Proofs.Grammar.Detaching

namespace CPretty

open Parse Linked

variable {c d : Cursor} {a a' n : Node} {deep : Nested} {l l' k k' : Nat} {xs us vs : List Token}
  {params : Option (List Node)}

/-- The parser reads the declarator `a'` from the tokens `vs`. It is the declarator `a` with the
list of its name put back. -/
structure Regrafts (p : Parse Node) (c : Cursor) (a : Node) (d : Cursor) (vs : List Token)
    (a' : Node) : Prop where
  name : c.peek.kind = .ident → ∃ ws, vs = c.peek :: (Derives.emptyList ++ ws)
  peek : (d.before vs).peek = c.peek
  subset : ∀ xs, c.Passes xs d → vs ⊆ xs ++ Derives.emptyList
  bare : a'.bare = (a.header.1.attachParams a.header.2).bare
  header : a'.header.1.bare = a.header.1.bare
  params : a'.header.2.map (List.map Node.bare) = a.header.2.map (List.map Node.bare)
  keepsList : a'.keepsList = true
  run : p (d.before vs) = .ok (a', d)

/-- A list found behind a name at the start of a declarator is kept. -/
theorem Derives.keepsList_of_ident {p : Phrase} {name : Node} (h : Derives p xs [n])
    (hp : p.isDeclarator = true) (hx : xs.head?.any (·.kind == .ident) = true)
    (hn : n.detachParams? = some (name, params)) : n.keepsList = true := by
  generalize hns : [n] = ns at h
  induction h generalizing n name params with
  | directName =>
    cases hns
    cases hn
  | directNested hl => simp [show _ = Kind.lParen from hl] at hx
  | @array xs d l zs size r sp h hl hs hr ih _ =>
    cases hns
    obtain ⟨⟨name', params'⟩, hd, -⟩ := Option.map_eq_some_iff.mp hn
    rw [List.append_assoc, List.head?_append_of_ne_nil _ h.ne_nil] at hx
    rw [Node.keepsList]
    exact ih rfl hx hd rfl
  | @function xs d l zs ps r sp h hl hs hr ih _ =>
    cases hns
    rw [List.append_assoc, List.head?_append_of_ne_nil _ h.ne_nil] at hx
    obtain ⟨name', hd, -⟩ | ⟨-, rfl, -, hb | ⟨sp', inner, rfl⟩⟩ :=
      Node.detachParams?_function_cases hn
    · rw [Node.keepsList_function hd]
      exact ih rfl hx hd rfl
    · rw [Node.keepsList, hb, Bool.true_or]
    · cases h with
      | directNested hl => simp [show _ = Kind.lParen from hl] at hx
  | ofDirect h ih => exact ih rfl hx hn hns
  | pointer ht => simp [show _ = Kind.star from ht] at hx
  | _ => cases hp

namespace Grammar

theorem exists_regrafts {b : Node} {xs ws : List Token} (hc : c.Ended) (px : c.Passes xs d)
    (peek : (d.before ws).peek = c.peek)
    (hu : ∀ j, k ≤ j + (d.before ws).ahead.length → (Nested.levels l j).ReadsList us a.header.2)
    (hb : (Nested.levels l k).declarator (d.before ws) = .ok (b, d))
    (bare : b.bare = a.header.1.bare) (sub : us ++ ws ⊆ xs ++ Derives.emptyList)
    (name : c.peek.kind = .ident → us = Derives.emptyList) :
    ∃ vs a', Regrafts (Nested.levels l k).declarator c a d vs a' := by
  have ended : (d.before ws).Ended := px.ended hc
  obtain ⟨ys, zs, a', p, hg, run⟩ := declarator_grafts (fun _ _ => .levels _ _) k ended hu hb
  obtain ⟨_, -, der⟩ := (Nested.Sound.levels l k).declarator ended hb
  obtain ⟨header, params, keeps⟩ := der.header_of_grafted hg
  obtain rfl := (Cursor.Passes.before ws d).unique p.passes
  refine ⟨ys ++ us ++ zs, a', fun hk => ?_, ?_, fun xs' px' => ?_,
    hg.trans (Node.bare_attachParams_congr bare rfl), header.trans bare, params, keeps, ?_⟩
  · rw [p.name (peek ▸ hk), peek, name hk]
    exact ⟨zs, rfl⟩
  · rw [Cursor.before_append, p.peek_eq us, peek]
  · obtain rfl := px.unique px'
    intro t ht
    refine sub ?_
    simp only [List.mem_append] at ht ⊢
    tauto
  · rw [Cursor.before_append]
    exact run

theorem regrafts_of_none (hc : c.Ended) (ha : (Nested.levels l k).declarator c = .ok (a, d))
    (hn : a.detachParams? = none) :
    ∃ vs a', Regrafts (Nested.levels l k).declarator c a d vs a' := by
  obtain ⟨xs, px, -⟩ := (Nested.Sound.levels l k).declarator hc ha
  have header : a.header = (a, none) := by rw [Node.header, hn]; rfl
  have again : (Nested.levels l k).declarator (d.before xs) = .ok (a, d) := px.eq_before ▸ ha
  refine exists_regrafts hc px (by rw [px.eq_before]) (fun j _ => ?_) again (by rw [header]) ?_
    fun _ => rfl
  · rw [header]
    exact readsList_emptyList _
  · intro t ht
    simp only [List.mem_append] at ht ⊢
    tauto

/-- A declarator whose list is put back at another place is read with the list there, if there is
room for it at all the levels of nesting where the name can stand. -/
theorem regrafts_of_some {name : Node} (hc : c.Ended)
    (ha : (Nested.levels l k).declarator c = .ok (a, d))
    (hn : a.detachParams? = some (name, params)) (hk : a.keepsList = false)
    (hk' : k + c.ahead.length ≤ k') :
    ∃ vs a', Regrafts (Nested.levels l' k').declarator c a d vs a' := by
  obtain ⟨xs, us, ys, b, hx, p, ⟨name', hn', hb⟩, list, run⟩ := declarator_strips k hc ha hn
  cases hn.symm.trans hn'
  have header : a.header = (name, params) := by rw [Node.header, hn]; rfl
  obtain ⟨zs, px, der⟩ := (Nested.Sound.levels l k).declarator hc ha
  have shorter : (d.before (xs ++ ys)).ahead.length ≤ c.ahead.length := by
    rw [p.ahead]
    simp
  obtain ⟨m, rfl⟩ := Nat.exists_eq_add_of_le hk'
  have raised : (Nested.levels l' (k + c.ahead.length + m)).declarator (d.before (xs ++ ys)) =
      .ok (b, d) := by
    rw [Nat.add_assoc]
    exact (Likeness.lower_levels l l' k _).declarator.raise_node run
  have reads (j : Nat) (hj : k ≤ j) : (Nested.levels l' j).ReadsList us a.header.2 := by
    rw [header]
    exact list l' j hj
  refine exists_regrafts hc p ?_ (fun j hj => reads j (by omega)) raised (by rw [hb, header]) ?_
    fun hi => ?_
  · obtain ⟨t, ts, rfl⟩ := List.exists_cons_of_ne_nil hx
    rw [p.eq_before]
    rfl
  · intro t ht
    simp only [List.mem_append] at ht ⊢
    tauto
  · have kept : a.keepsList = true := by
      refine der.keepsList_of_ident rfl ?_ hn
      obtain ⟨t, ts, rfl⟩ := List.exists_cons_of_ne_nil der.ne_nil
      rw [px.eq_before] at hi
      exact beq_iff_eq.mpr hi
    rw [hk] at kept
    cases kept

theorem struct_settled (l k : Nat) : ∀ {c d n}, c.Ended → c.peek.kind ≠ .eof →
    (Nested.levels l k).struct c = .ok (n, d) → Settled (Nested.levels l k).struct c n d := by
  cases k with
  | zero => exact fun _ _ hr => nomatch hr
  | succ k => exact fun hc hk hr => structSpecifier_settled (fun _ => .levels l k) hc hk hr

theorem functionDefinition_of_declarator {specs : Option Node} {c₁ c' : Cursor}
    (hr : functionDefinition deep specs c = .ok (n, d)) (ha : deep.declarator c = .ok (a, c₁))
    (ha' : deep.declarator c' = .ok (a', c₁)) (hf : a'.declaresFunction = true) :
    ∃ sp sp' ds body, n = ⟨sp, .func specs a.header.1 a.header.2 ds body⟩ ∧
      functionDefinition deep specs c' =
        .ok (⟨sp', .func specs a'.header.1 a'.header.2 ds body⟩, d) := by
  rw [functionDefinition, bind_of_ok ha] at hr
  split at hr
  next hd =>
    obtain ⟨ds, c₂, h₂, hr⟩ := bind_ok hr
    obtain ⟨body, c₃, h₃, hr⟩ := bind_ok hr
    obtain ⟨rfl, rfl⟩ := pure_ok hr
    rw [functionDefinition, bind_of_ok ha', if_pos hf, bind_of_ok h₂, bind_of_ok h₃]
    exact ⟨_, _, ds, body, rfl, rfl⟩
  next => cases hr

/-- From the tokens `ts` behind the tokens `ss` of its specifiers the function definition is read as
the same node, with a header that keeps its list. -/
def Rereads (p : Parse Node) (ss ts : List Token) (n : Node) (d : Cursor) : Prop :=
  ∃ a n', n'.bare = n.bare ∧ a.keepsList = true ∧ Defines a (ss ++ ts) n' ∧
    p (d.before ts) = .ok (n', d)

theorem functionDefinition_rereads (hd : deep.Sound) {specs : List Node} {ss : List Token}
    {c₁ : Cursor} (hs : Derives (.optional .declSpecs) ss specs) (hc : c.Ended)
    (hr : functionDefinition deep specs.head? c = .ok (n, d))
    (ha : deep.declarator c = .ok (a, c₁)) (hg : Regrafts deep.declarator c a c₁ vs a')
    (hf : a'.declaresFunction = true) : ∃ ws, c₁.Passes ws d ∧
      Rereads (functionDefinition deep specs.head?) ss (vs ++ ws) n d := by
  obtain ⟨_, _, _, ws, ha₁, pu, pw, -⟩ := functionDefinition_reads hd hs hc hr
  cases ha.symm.trans ha₁
  obtain ⟨sp, sp', ds, body, rfl, hr'⟩ := functionDefinition_of_declarator hr ha hg.run hf
  have ended : (c₁.before vs).Ended := pu.ended hc
  obtain ⟨_, _, vs', ws', ha₂, pv', pw', hdef⟩ := functionDefinition_reads hd hs ended hr'
  cases hg.run.symm.trans ha₂
  obtain rfl := pw.unique pw'
  obtain rfl := (Cursor.Passes.before vs c₁).unique pv'
  refine ⟨ws, pw, a', _, ?_, hg.keepsList, by simpa using hdef, ?_⟩
  · simp only [Node.bare_mk, Shape.map, hg.header, hg.params]
  · rw [Cursor.before_append, ← pw.eq_before]
    exact hr'

theorem subset_around {ys es : List Token} (h : vs ⊆ ys ++ es) (ss zs : List Token) :
    ss ++ (vs ++ zs) ⊆ ss ++ ys ++ zs ++ es := by
  intro t ht
  have := @h t
  simp only [List.mem_append] at this ht ⊢
  tauto

/-- Where the first parser reads a declarator of a function with the property `Q`, the second one
reads it with its list put back, if there are at most `m` tokens ahead. -/
def Regrafting (deep deep' : Nested) (m : Nat) (Q : Node → Prop) : Prop :=
  ∀ ⦃c a d⦄, c.Ended → c.ahead.length ≤ m → deep.declarator c = .ok (a, d) →
    a.declaresFunction = true → Q a →
      ∃ vs a', Regrafts deep'.declarator c a d vs a' ∧ a'.declaresFunction = true

theorem declSpecs_name (deep : Nested) {t : Token} (ht : t.kind = .ident)
    (hk : c.peek.kind = .lParen) :
    ∃ s, declSpecs deep (c.before [t]) = .ok (s, c) := by
  have first (tn : Parse Node) : specifier? deep tn false (c.before [t]) =
      .ok (some (t.identNode, true), c) := by
    rw [specifier?_apply, Cursor.peek_before_cons, ht]
    rfl
  have last (tn : Parse Node) : specifier? deep tn true c = .ok (none, c) := by
    rw [specifier?_apply, hk]
    rfl
  have list : specifierList deep (c.before [t]) = .ok ([t.identNode], c) := by
    rw [specifierList, bind_of_ok (ahead_apply _)]
    change specifiersUpTo deep (c.ahead.length + 1 + 1) false _ = _
    rw [specifiersUpTo, bind_of_ok (first _)]
    dsimp only
    rw [specifiersUpTo, bind_of_ok (d := c) (a := []) (by rw [bind_of_ok (last _)]; rfl)]
    rfl
  rw [declSpecs, bind_of_ok list]
  exact ⟨_, rfl⟩

theorem declarator_emptyList (l k : Nat) (c : Cursor) :
    ∃ e : ParseError, e.isTooDeep = false ∧
      (Nested.levels l (k + 2)).declarator (c.before Derives.emptyList) = .error e := by
  let close : Token := ⟨.rParen, ")", default⟩
  have inner : (Nested.levels l (k + 1)).declarator (c.before [close]) =
      .error ((c.before [close]).failure [.token .ident, .token .lParen]) := by
    change declarator _ _ = _
    rw [declarator, bind_of_ok (many_pointerLevel?_of_ne (by rw [Cursor.peek_before_cons]; decide))]
    rfl
  refine ⟨(c.before [close]).failure [.token .ident, .token .lParen], rfl, ?_⟩
  change declarator _ _ = _
  rw [declarator, Derives.emptyList,
    bind_of_ok (many_pointerLevel?_of_ne (by rw [Cursor.peek_before_cons]; decide))]
  refine bind_of_error ?_
  rw [declaratorBase, bind_of_ok (peekKind_apply _), Cursor.peek_before_cons]
  dsimp only
  rw [bind_of_ok (advance_apply _)]
  exact bind_of_error inner

theorem kind_of_declarator {c₁ : Cursor} (hc : c.Ended)
    (h : (Nested.levels l k).declarator c = .ok (a, c₁)) :
    c.peek.kind ∈ [Kind.star, .lParen, .ident] := by
  cases k with
  | zero => cases h
  | succ k =>
    obtain ⟨ls, c₂, b, h₁, hd, rfl⟩ := declarator_cases h
    by_cases hk : c.peek.kind = .star
    · simp [hk]
    · rw [many_pointerLevel?_of_ne hk] at h₁
      cases h₁
      obtain ⟨_, _, h₂, -⟩ := bind_ok hd
      obtain ⟨hi, -⟩ | ⟨_, _, _, _, _, hl, -⟩ := declaratorBase_cases (.levels l k) hc h₂
      · simp [hi]
      · simp [hl]

/-- A function definition is read without specifiers if there are none, or if what looks like some
is not followed by a declarator. -/
theorem externalDeclaration_of_untyped {r : Node × Cursor} {e : ParseError}
    (hr : functionDefinition deep none c = .ok r) (hk : c.peek.kind ≠ .kwStaticAssert)
    (he : e.isTooDeep = false) (h : declSpecs deep c = .error e ∨ ∃ s c₁,
      declSpecs deep c = .ok (s, c₁) ∧ c₁.peek.kind ≠ .semicolon ∧ deep.declarator c₁ = .error e) :
    externalDeclaration deep c = .ok r := by
  have first : typed deep c = .error e := by
    obtain h | ⟨s, c₁, h, -, hd⟩ := h
    · exact bind_of_error h
    · rw [typed, bind_of_ok h, functionDefinition, bind_of_error hd]
  have second : declaration deep c = .error e := by
    rw [declaration, bind_of_ok (check_apply _ c), if_neg (by simpa using hk)]
    obtain h | ⟨s, c₁, h, hs, hd⟩ := h
    · exact bind_of_error h
    · rw [bind_of_ok h, bind_of_ok (check_apply _ c₁), if_neg (by simpa using hs)]
      refine bind_of_error (bind_of_error ?_)
      rw [initDeclarator, bind_of_error hd]
  have both : either (typed deep) (declaration deep) c = .error (e.furthest e) := by
    simp only [either, first, second, he, Bool.false_eq_true, if_false]
  refine either_of_error both ?_ hr
  rw [ParseError.isTooDeep_furthest (by simp [he]), he]
  decide

section

variable {Q : Node → Prop}
  (hL : (Likeness.lower l).Nesteds (.levels l k) (.levels l' k'))
include hL

theorem typed_rereads (hc : c.Ended)
    (hg : Regrafting (.levels l k) (.levels l' k') c.ahead.length Q)
    (hr : typed (.levels l k) c = .ok (n, d)) : ∃ a xs, c.Passes xs d ∧ Defines a xs n ∧
      (Q a → ∃ ts, ts ⊆ xs ++ Derives.emptyList ∧ Rereads (typed (.levels l' k')) [] ts n d) := by
  obtain ⟨s, c₁, h₁, hr⟩ := bind_ok hr
  obtain ⟨ss, ps, hs⟩ := declSpecs_reads (.levels l k) hc h₁
  have hc₁ := ps.ended hc
  obtain ⟨a, c₂, ys, zs, ha, py, pz, hdef⟩ :=
    functionDefinition_reads (.levels l k) (.present hs) hc₁ hr
  refine ⟨a, ss ++ ys ++ zs, (ps.trans py).trans pz, hdef, fun hq => ?_⟩
  obtain ⟨vs, a', graft, hf'⟩ := hg hc₁ ps.length_le ha hdef.declaresFunction hq
  have specs' : declSpecs (.levels l' k') c = .ok (s, c₁) :=
    (Likeness.declSpecs_alike hL).raise_node h₁
  have hr' : functionDefinition (.levels l' k') (some s) c₁ = .ok (n, d) :=
    (Likeness.functionDefinition_alike hL (.some rfl)).raise_node hr
  have ha' := hL.declarator.raise_node ha
  obtain ⟨ws, pw, b, n', hb, hk, hdef', run⟩ :=
    functionDefinition_rereads (.levels l' k') (.present hs) hc₁ hr' ha' graft hf'
  obtain rfl := pz.unique pw
  obtain ⟨ss', ps', specs⟩ :=
    declSpecs_settled (fun _ => .levels l' k') (struct_settled l' k') hc specs'
  obtain rfl := ps.unique ps'
  have first := @specs (d.before (vs ++ zs)) ((pz.ended (py.ended hc₁))) (by
    rw [Cursor.before_append, ← pz.eq_before, graft.peek])
  refine ⟨ss ++ (vs ++ zs), subset_around (graft.subset ys py) ss zs, b, n', hb, hk, hdef', ?_⟩
  rw [Cursor.before_append, typed, bind_of_ok first]
  exact run

/-- A function definition without specifiers. Where the list comes after a name at the start, the
name is taken for a type by the readings that are tried first, and they fail in the list. -/
theorem untyped_rereads (hk' : 2 ≤ k') (hc : c.Ended)
    (hg : Regrafting (.levels l k) (.levels l' k') c.ahead.length Q)
    (hr : functionDefinition (.levels l k) none c = .ok (n, d)) : ∃ a xs, c.Passes xs d ∧
      Defines a xs n ∧ (Q a → ∃ ts, ts ⊆ xs ++ Derives.emptyList ∧
        Rereads (externalDeclaration (.levels l' k')) [] ts n d) := by
  have plain : functionDefinition (.levels l k) ([] : List Node).head? c = .ok (n, d) := hr
  obtain ⟨a, c₁, ys, zs, ha, py, pz, hdef⟩ :=
    functionDefinition_reads (.levels l k) .absent hc plain
  refine ⟨a, _, py.trans pz, hdef, fun hq => ?_⟩
  obtain ⟨vs, a', graft, hf⟩ := hg hc le_rfl ha hdef.declaresFunction hq
  have plain' : functionDefinition (.levels l' k') ([] : List Node).head? c = .ok (n, d) :=
    (Likeness.functionDefinition_alike hL .none).raise_node hr
  have ha' := hL.declarator.raise_node ha
  obtain ⟨ws, pw, b, n', hb, hk, hdef', run⟩ :=
    functionDefinition_rereads (.levels l' k') .absent hc plain' ha' graft hf
  obtain rfl := pz.unique pw
  refine ⟨vs ++ zs, subset_around (graft.subset ys py) [] zs, b, n', hb, hk, hdef', ?_⟩
  have peek : (d.before (vs ++ zs)).peek = c.peek := by
    rw [Cursor.before_append, ← pz.eq_before, graft.peek]
  have head := kind_of_declarator hc ha
  by_cases hi : c.peek.kind = .ident
  · obtain ⟨k, rfl⟩ := Nat.exists_eq_add_of_le' hk'
    obtain ⟨us, hv⟩ := graft.name hi
    have split : d.before (vs ++ zs) =
        ((d.before (us ++ zs)).before Derives.emptyList).before [c.peek] := by
      simp [hv, Cursor.before]
    obtain ⟨e, he, hd⟩ := declarator_emptyList l' k (d.before (us ++ zs))
    have paren : ((d.before (us ++ zs)).before Derives.emptyList).peek.kind = .lParen := rfl
    obtain ⟨s, specs⟩ := declSpecs_name (.levels l' (k + 2)) hi paren
    rw [split] at run ⊢
    exact externalDeclaration_of_untyped run (by rw [Cursor.peek_before_cons, hi]; decide) he
      (.inr ⟨s, _, specs, by rw [paren]; decide, hd⟩)
  · have hk : c.peek.kind ∈ [Kind.star, .lParen] := by simpa [hi] using head
    rw [← peek] at hk
    refine externalDeclaration_of_untyped run (fun h => ?_) rfl (.inl (declSpecs_error
      (List.mem_append_right [Kind.eq, .comma, .semicolon, .kwStaticAssert] hk)))
    rw [h] at hk
    revert hk
    decide

theorem externalDeclaration_rereads (hk' : 2 ≤ k') (hc : c.Ended)
    (hg : Regrafting (.levels l k) (.levels l' k') c.ahead.length Q)
    (hr : externalDeclaration (.levels l k) c = .ok (n, d)) :
    ∃ xs, c.Passes xs d ∧ (Derives .declaration xs [n] ∨ ∃ a, Defines a xs n ∧
      (Q a → ∃ ts, ts ⊆ xs ++ Derives.emptyList ∧
        Rereads (externalDeclaration (.levels l' k')) [] ts n d)) := by
  obtain hr | ⟨x, hx, hn, hr⟩ := either_cases hr
  · obtain hr | ⟨x, hx, hn, hr⟩ := either_cases hr
    · obtain ⟨a, xs, px, hdef, graft⟩ := typed_rereads hL hc hg hr
      refine ⟨xs, px, .inr ⟨a, hdef, fun hq => ?_⟩⟩
      obtain ⟨ts, sub, b, n', hb, hk, hdef', run⟩ := graft hq
      exact ⟨ts, sub, b, n', hb, hk, hdef', either_of_ok (either_of_ok run _) _⟩
    · obtain ⟨xs, px, hder⟩ := declaration_reads (.levels l k) hc hr
      exact ⟨xs, px, .inl hder⟩
  · obtain ⟨a, xs, px, hdef, graft⟩ := untyped_rereads hL hk' hc hg hr
    exact ⟨xs, px, .inr ⟨a, hdef, graft⟩⟩

end

end Grammar
end CPretty
