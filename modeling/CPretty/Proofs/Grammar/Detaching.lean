import CPretty.Proofs.Grammar.Alike.SourceFile
import CPretty.Proofs.Grammar.Grafting

namespace CPretty

open Parse Linked Place

variable {c d : Cursor} {a b n : Node} {deep : Nested} {l k : Nat} {us : List Token}
  {params : Option (List Node)}

/-- Without the tokens `us` of the parameter list of the name, the parser reads the same declarator
without this list. The list is read wherever `k` levels of nesting are left. -/
def Strips (k : Nat) (params : Option (List Node)) (p : Parse Node) (c : Cursor) (n : Node)
    (d : Cursor) : Prop :=
  ∃ xs us ys n', xs ≠ [] ∧ c.Passes (xs ++ us ++ ys) d ∧ n.Detached params n' ∧
    (∀ l j, k ≤ j → (Nested.levels l j).ReadsList us params) ∧ p (d.before (xs ++ ys)) = .ok (n', d)

theorem Likeness.lower_lists {l : Nat} {o o' : Option (List Node)}
    (h : Option.Rel (List.Forall₂ (lower l).Nodes) o o') : o = o' := by
  cases h with
  | none => rfl
  | some h => exact congrArg some (List.forall₂_eq_eq_eq ▸ h.imp fun _ _ => lower_nodes.mp)

namespace Grammar

theorem parameterList_settled (h : ∀ e, Linked.Nesteds e deep) {ps : Option (List Node)}
    (hc : c.Ended) (hr : parameterList deep c = .ok (ps, d)) (hk : d.peek.kind = .rParen) :
    Settled (parameterList deep) c ps d := by
  have reads := parameterList_reads (h ⟨.source, [], []⟩).sound
  obtain ⟨xs, px, ns, hns, rfl⟩ := reads hc hr
  refine ⟨xs, px, fun d' hd' hn => ?_⟩
  have fits : (Phrase.optional .params).Fits (.closing .enclosed d d') [] :=
    ⟨by simp [Phrase.Fits], fun _ h => h⟩
  exact Linked.enclosed (P := Free []) (Q := Free []) reads hc px hr (.inl hk) hd' hn
    ⟨.block, by decide, rfl⟩ (by rintro _ ⟨_, _, rfl⟩; rfl) (hns.walks fits)
    (parameterList_blind (h _) (by simp) ·)

/-- A parameter list that is read at some level of nesting is read at any level with as much room
left, after any declarator and before any text. -/
theorem readsList_of_suffix? {l k : Nat} {sp : Span} (hc : c.Ended)
    (hr : suffix? (.levels l k) (some b) c = .ok (some ⟨sp, .function (some b) params⟩, d)) :
    ∃ us, c.Passes us d ∧
      ∀ l' j, k ≤ j → (Nested.levels l' j).ReadsList us params := by
  obtain ⟨kind, c₁, h₁, hr⟩ := bind_ok hr
  cases h₁
  generalize hk : c.peek.kind = kind at hr
  split at hr
  next =>
    obtain ⟨_, _, -, hr⟩ := bind_ok hr
    obtain ⟨_, _, -, hr⟩ := bind_ok hr
    split at hr
    all_goals
      obtain ⟨_, _, -, hr⟩ := bind_ok hr
      obtain ⟨_, _, -, hr⟩ := bind_ok hr
      cases hr
  next =>
    obtain ⟨t, c₁, h₁, hr⟩ := bind_ok hr
    obtain ⟨ht, p₁⟩ := advance_of_kind h₁ hc hk (by decide)
    have hc₁ := p₁.ended hc
    obtain ⟨ps, c₂, h₂, hr⟩ := bind_ok hr
    obtain ⟨xs, p₂, -⟩ := parameterList_reads (.levels l k) hc₁ h₂
    obtain ⟨r, c₃, h₃, hr⟩ := bind_ok hr
    obtain ⟨hr', p₃⟩ := expect_ok h₃ (p₂.ended hc₁) (by decide)
    cases hr
    refine ⟨_, p₁.trans (p₂.trans p₃), fun l' j hj => ⟨by simp, fun b c' hc' => ?_⟩⟩
    obtain ⟨m, rfl⟩ := Nat.exists_eq_add_of_le hj
    have raised : parameterList (.levels l' (k + m)) c₁ = .ok (params, c₂) :=
      (Likeness.parameterList_alike (Likeness.lower_levels l l' k m)).raise
        (fun _ _ hps => Likeness.lower_lists hps) h₂
    obtain ⟨xs', px', run⟩ := parameterList_settled (fun _ => .levels l' (k + m)) hc₁ raised
      (peek_of_expect h₃)
    obtain rfl := p₂.unique px'
    have list := @run (c'.before [r]) hc' (by rw [p₃.eq_before]; rfl)
    rw [Cursor.before_append, Cursor.before_append, suffix?, bind_of_ok (peekKind_apply _),
      Cursor.peek_before_cons, ht]
    dsimp only
    rw [bind_of_ok (advance_apply _), Cursor.peek_before_cons, Cursor.advance_before_cons,
      Cursor.before_nil, bind_of_ok list, bind_of_ok (expect_before hr')]
    exact ⟨_, rfl⟩
  next => cases hr

/-- The list of the name is the first suffix where none stands before it. -/
theorem first_of_detachParams? (hd : deep.Sound) {name : Node} (hc : c.Ended)
    (hr : iterate (fun decl => suffix? deep (some decl)) b c = .ok (n, d))
    (hb : b.detachParams? = none) (hn : n.detachParams? = some (name, params)) :
    ∃ sp c₁ us ys n', suffix? deep (some b) c = .ok (some ⟨sp, .function (some b) params⟩, c₁) ∧
      c.Passes us c₁ ∧ c₁.Passes ys d ∧ n.Detached params n' ∧
      iterate (fun decl => suffix? deep (some decl)) b c₁ = .ok (n', d) := by
  obtain ⟨_, c₀, h₀, hr⟩ := bind_ok hr
  cases h₀
  obtain ⟨o, c₁, h₁, hr⟩ := bind_ok hr
  obtain ⟨us, px, hx⟩ := suffix?_reads hd (some b) hc h₁
  cases o with
  | none =>
    obtain ⟨rfl, -⟩ := pure_ok hr
    rw [hb] at hn
    cases hn
  | some b₁ =>
    have shorter : c₁.ahead.length < c.ahead.length := by
      obtain ⟨_, _, _, rfl, -⟩ := hx
      exact px.length_lt (by simp)
    -- Behind a first suffix that is no list of the name, none is found any more.
    have listless (h : b₁.detachParams? = none) (h' : b₁.isNameOrNested = false) : False := by
      have rest : Node.Listless b₁ b₁ := ⟨h, h'⟩
      obtain ⟨_, _, -, ⟨hn', -⟩, -⟩ := suffixes_congr Node.suffixing_listless hd _
        (px.ended hc) shorter shorter rest hr
      rw [hn] at hn'
      cases hn'
    obtain ⟨_, _, _, rfl, ⟨size, sp, -, -, -, rfl⟩ | ⟨ps, sp, -, -, -, rfl⟩⟩ := hx
    · exact (listless (by simp [hb]) rfl).elim
    · have list : (⟨sp, .function (some b) (Node.nonempty? ps)⟩ : Node).Detached
          (Node.nonempty? ps) b := by
        cases hq : Node.detachParams? ⟨sp, .function (some b) (Node.nonempty? ps)⟩ with
        | none => exact (listless hq rfl).elim
        | some q =>
          obtain ⟨_, hs, -⟩ | ⟨-, rfl, hp, -⟩ := Node.detachParams?_function_cases hq
          · rw [hb] at hs
            cases hs
          · exact ⟨_, by rw [hq, ← hp], rfl⟩
      obtain ⟨ys, n', py, hn', run⟩ := suffixes_congr (Node.Detached.suffixing _) hd _
        (px.ended hc) shorter (Nat.lt_succ_self _) list hr
      obtain ⟨name', hd', -⟩ := id hn'
      cases hn.symm.trans hd'
      refine ⟨sp, c₁, _, ys, n', h₁, px, py, hn', ?_⟩
      rw [iterate, bind_of_ok (ahead_apply _)]
      exact run

theorem declaratorBase_strips {name : Node} (hc : c.Ended)
    (ih : ∀ {c n d name params}, c.Ended → (Nested.levels l k).declarator c = .ok (n, d) →
      n.detachParams? = some (name, params) →
        Strips k params (Nested.levels l k).declarator c n d)
    (hr : declaratorBase (.levels l k) c = .ok (n, d))
    (hn : n.detachParams? = some (name, params)) :
    Strips k params (declaratorBase (.levels l k)) c n d := by
  obtain ⟨-, -, rfl⟩ | ⟨a, r, _, c₁, c₂, hl, hr', p₁, h₂, -, -, p₃, rfl⟩ :=
    declaratorBase_cases (.levels l k) hc hr
  · cases hn
  obtain ⟨⟨name', _⟩, ha, he⟩ := Option.map_eq_some_iff.mp hn
  cases he
  obtain ⟨xs, us, ys, a', hx, p₂, ha', list, run⟩ := ih (p₁.ended hc) h₂ ha
  have inside : (Node.between c.peek.span r.span (.nested a)).Detached params
      (Node.between c.peek.span r.span (.nested a')) := ha'.nested
  refine ⟨c.peek :: xs, us, ys ++ [r], _, List.cons_ne_nil _ _, ?_, inside, list, ?_⟩
  · simpa using p₁.trans (p₂.trans p₃)
  · rw [p₃.eq_before] at run
    simpa only [Cursor.before, List.append_assoc, List.cons_append, List.nil_append] using
      declaratorBase_nested hl hr' run

theorem direct_strips {name : Node} (hc : c.Ended)
    (ih : ∀ {c n d name params}, c.Ended → (Nested.levels l k).declarator c = .ok (n, d) →
      n.detachParams? = some (name, params) →
        Strips k params (Nested.levels l k).declarator c n d)
    (hr : direct (.levels l k) c = .ok (n, d)) (hn : n.detachParams? = some (name, params)) :
    Strips k params (direct (.levels l k)) c n d := by
  obtain ⟨b, c₁, h₁, hi⟩ := bind_ok hr
  cases hb : b.detachParams? with
  | none =>
    obtain ⟨xs, px, hx⟩ := declaratorBase_reads (.levels l k) hc h₁
    have hc₁ := px.ended hc
    obtain ⟨sp, c₂, us, ys, n', h₂, pu, py, hn', run⟩ :=
      first_of_detachParams? (.levels l k) hc₁ hi hb hn
    obtain ⟨us', pu', list⟩ := readsList_of_suffix? hc₁ h₂
    obtain rfl := pu.unique pu'
    obtain ⟨xs', px', base⟩ := declaratorBase_settled (fun _ => .levels l k) hc h₁
    obtain rfl := px.unique px'
    refine ⟨xs, us, ys, n', hx.ne_nil, (px.trans pu).trans py, hn', list, ?_⟩
    rw [Cursor.before_append, ← py.eq_before, direct, bind_of_ok (base (pu.ended hc₁))]
    exact run
  | some q =>
    obtain ⟨xs, us, ys, b', hx, p, hb', list, base⟩ := declaratorBase_strips hc ih h₁ hb
    obtain ⟨zs, n', pz, hn', suffixes⟩ :=
      suffixes_related (Node.Detached.suffixing _) (.levels l k) (p.ended hc) hb' hi
    obtain ⟨_, hd', -⟩ := id hn'
    cases hn.symm.trans hd'
    refine ⟨xs, us, ys ++ zs, n', hx, by simpa using p.trans pz, hn', list, ?_⟩
    rw [← List.append_assoc, Cursor.before_append, ← pz.eq_before, direct, bind_of_ok base]
    exact suffixes

theorem pointers_detached (ls : List (Token × List Node)) (hg : a.Detached params b) :
    (ls.foldr (fun (star, quals) inner => Node.pointer star quals (some inner)) a).Detached params
      (ls.foldr (fun (star, quals) inner => Node.pointer star quals (some inner)) b) := by
  induction ls with
  | nil => exact hg
  | cons r ls ih => exact ih.pointer

theorem detachParams?_of_pointers {ls : List (Token × List Node)} {name : Node}
    (h : (ls.foldr (fun (star, quals) inner => Node.pointer star quals (some inner))
      a).detachParams? = some (name, params)) :
    ∃ name', a.detachParams? = some (name', params) := by
  induction ls generalizing name with
  | nil => exact ⟨name, h⟩
  | cons r ls ih =>
    obtain ⟨⟨name', _⟩, hd, he⟩ := Option.map_eq_some_iff.mp h
    cases he
    exact ih hd

theorem declarator_strips (k : Nat) : ∀ {c n d name params}, c.Ended →
    (Nested.levels l k).declarator c = .ok (n, d) → n.detachParams? = some (name, params) →
      Strips k params (Nested.levels l k).declarator c n d := by
  induction k with
  | zero => exact fun _ hr => nomatch hr
  | succ k ih =>
    intro c n d name params hc hr hn
    obtain ⟨ls, c₁, a, h₁, hd, rfl⟩ := declarator_cases hr
    obtain ⟨xs, px, run⟩ := pointerLevels_settled hc h₁
    have hc₁ := px.ended hc
    obtain ⟨name', hn'⟩ := detachParams?_of_pointers hn
    obtain ⟨ys, us, zs, a', hy, p, hg, list, hr'⟩ := direct_strips hc₁ ih hd hn'
    have peek : (d.before (ys ++ zs)).peek = c₁.peek := by
      obtain ⟨t, ts, rfl⟩ := List.exists_cons_of_ne_nil hy
      rw [p.eq_before]
      rfl
    refine ⟨xs ++ ys, us, zs, _, List.append_ne_nil_of_right_ne_nil _ hy,
      by simpa using px.trans p, pointers_detached ls hg,
      fun l' j hj => list l' j (Nat.le_of_succ_le hj), ?_⟩
    rw [List.append_assoc, Cursor.before_append]
    exact declarator_of_direct (run (p.ended hc₁) peek) hr'

end Grammar
end CPretty
