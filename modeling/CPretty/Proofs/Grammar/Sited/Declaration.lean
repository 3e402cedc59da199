import CPretty.Proofs.Grammar.Sited.Expression

namespace CPretty

open Parse Grammar

variable {s c d : Cursor} {limit n : Nat} {deep : Nested}

/-- The cursor stands after the items of a list: no comma is next, unless an ellipsis stands before
it. -/
structure Cursor.ListEnd (s : Cursor) (n : Nat) (c : Cursor) : Prop where
  source : s.Ended
  passed : ∃ xs, s.Passes xs c ∧ (Dotted xs ∨ c.peek.kind ≠ .comma)
  short : c.ahead.length < n

namespace Cursor

theorem Clear.listEnd (h : Clear s n c) (hk : c.peek.kind ≠ .comma) : ListEnd s n c := by
  obtain ⟨xs, p, -⟩ := h.passed
  exact ⟨h.source, ⟨xs, p, .inr hk⟩, h.short⟩

theorem Clear.dots (h : Clear s n c) (hk : c.peek.kind = .ellipsis) :
    ListEnd s n c.advance := by
  obtain ⟨xs, p, -⟩ := h.passed
  have q : c.Passes [c.peek] c.advance := .of_advance h.ended (by rw [hk]; decide)
  refine ⟨h.source, ⟨xs ++ [c.peek], p.trans q, .inl (by simp [hk])⟩, ?_⟩
  have := q.length_le
  have := h.short
  omega

theorem ListEnd.mono {m : Nat} (h : ListEnd s m c) (hmn : m ≤ n) : ListEnd s n c :=
  ⟨h.source, h.passed, Nat.lt_of_lt_of_le h.short hmn⟩

theorem ListEnd.advance (h : ListEnd s n c) (hk : c.peek.kind.Common) : Clear s n c.advance := by
  obtain ⟨xs, p, -⟩ := h.passed
  have q := Passes.of_advance (p.ended h.source) hk.2
  have := q.length_le
  have := h.short
  exact ⟨h.source, ⟨_, p.trans q, by simp [hk.1]⟩, by omega⟩

end Cursor

theorem Lands.fail_listEnd {α : Type} {Q : α → Cursor → Prop} (hc : s.ListEnd n c)
    (hp : c.peek.kind ≠ .rParen) :
    Lands s limit Q ((Parse.fail [.token .comma, .token .rParen] : Parse α) c) := by
  obtain ⟨xs, p, hx⟩ := hc.passed
  have listed : Expected.Listed xs c.peek.kind [.token .comma, .token .rParen] := by
    refine ⟨by simp, by simp, fun x hm ha => ?_, fun _ => by simp⟩
    obtain rfl | rfl : x = .token .comma ∨ x = .token .rParen := by simpa using hm
    · exact ⟨rfl, hx.resolve_right fun hk => hk (eq_of_beq ha)⟩
    · exact absurd (eq_of_beq ha) hp
  exact .error (.failure p listed)

namespace Grammar

theorem qualifier?_steady : Steady s limit qualifier? := by
  intro n c hc
  refine .peekKind fun k hk => ?_
  split
  next ha => exact .advance hc (.of_is (hk ▸ ha)) fun hd => .pure hd
  next => exact .pure hc

theorem pointerLevel?_steady : Steady s limit pointerLevel? :=
  fun _ _ hc => .eat? hc (by decide) (fun hd => .bind (Steady.many qualifier?_steady hd.widen)
    fun hd => .pure hd) fun _ => .pure hc

theorem parameterEnd_steady : Steady s limit parameterEnd := by
  intro n c hc
  refine .check (.check ?_)
  split
  next => exact .pure hc
  next ha =>
    simp only [Bool.or_eq_true, beq_iff_eq, not_or] at ha
    exact fail_close hc ha.1 ha.2

theorem parameterDeclarator_steady (h : deep.AllSteady s limit) :
    Steady s limit (parameterDeclarator deep) := by
  intro n c hc
  refine .either (.either ?named ?unnamed) ?absent
  case named =>
    exact .bind (h.declarator hc) fun hd => .bind (parameterEnd_steady hd.1) fun hd => .pure hd
  case unnamed =>
    exact .bind (h.abstractDeclarator hc) fun hd => .bind (parameterEnd_steady hd) fun hd =>
      .pure hd
  case absent => exact .bind (parameterEnd_steady hc) fun hd => .pure hd

theorem parameter_steady (h : deep.AllSteady s limit) : Steady s limit (parameter deep) :=
  fun _ _ hc => .bind (declSpecs_steady h hc) fun hd =>
    .bind (parameterDeclarator_steady h hd) fun hd => .pure hd

/-- Each parameter but the last takes a comma with it, so the bound is never what ends the list. -/
theorem parametersUpTo_lands (h : deep.AllSteady s limit) (m : Nat) (hc : s.Clear n c)
    (hm : n ≤ m) :
    Lands s limit (fun _ d => s.ListEnd n d) (parametersUpTo deep m c) := by
  induction m generalizing n c with
  | zero =>
    have := hc.short
    omega
  | succ m ih =>
    refine .bind (parameter_steady h hc) fun hd => ?_
    refine .eat hd (by decide) (fun {d} hd => ?_) fun hk => .pure (hd.listEnd hk)
    -- What follows the comma: an ellipsis, which ends the list, or a further parameter.
    rw [if_pos rfl, bind_apply, eat?_apply]
    split
    next hp => exact .pure (hd.widen.dots (eq_of_beq hp))
    next => exact .bind (ih hd (by omega)) fun hd => .pure (hd.mono (Nat.sub_le n 1))

theorem parameterList_lands (h : deep.AllSteady s limit) (hc : s.Clear n c) :
    Lands s limit (fun _ d => s.Clear n d ∨ s.ListEnd n d ∧ d.peek.kind = .rParen)
      (parameterList deep c) := by
  refine .check ?_
  split
  · exact .pure (.inl hc)
  · refine .ahead ?_
    split
    · refine .bind (Steady.commaList (fun _ _ hc => ?_) hc) fun hd => .pure (.inl hd.1)
      rw [map_eq_pure_bind]
      exact .expect hc (by decide) fun hd => .pure hd
    · refine .ahead (.bind (parametersUpTo_lands h _ hc.self (Nat.le_refl _)) fun {_ d} hd => ?_)
      refine .check ?_
      split
      next hp => exact .pure (.inr ⟨hd.mono hc.short, eq_of_beq hp⟩)
      next hp => exact .fail_listEnd hd (by simpa using hp)

theorem expect_close {α : Type} {Q : α → Cursor → Prop} {f : Token → Parse α}
    (hc : s.Clear n c ∨ s.ListEnd n c ∧ c.peek.kind = .rParen)
    (h : ∀ {t d}, s.Clear n d → Lands s limit Q (f t d)) :
    Lands s limit Q ((expect .rParen >>= f) c) := by
  obtain hc | ⟨hc, hk⟩ := hc
  · exact .expect hc (by decide) h
  · rw [bind_apply, expect_apply, if_pos (beq_iff_eq.mpr hk)]
    exact h (hc.advance (by rw [hk]; decide))

theorem suffix?_lands (h : deep.AllSteady s limit) (decl : Option Node) (hc : s.Clear n c) :
    Lands s limit (Stepped s n fun d => d.peek.kind ≠ .lParen) (suffix? deep decl c) := by
  refine .peekKind fun k hk => ?_
  split
  · rw [bind_of_ok (advance_apply c)]
    refine .before (assignment_steady h) (hc.advance (hk ▸ by decide)) fun hd => ?_
    exact .expect hd (by decide) fun hd => .pure hd
  · rw [bind_of_ok (advance_apply c)]
    refine .bind (parameterList_lands h (hc.advance (hk ▸ by decide))) fun hd => ?_
    exact expect_close hd fun hd => .pure hd
  next hl => exact .pure ⟨hc, fun hp => hl (hk ▸ hp)⟩

theorem declaratorBase_steady (h : deep.AllSteady s limit) :
    Steady s limit (declaratorBase deep) := by
  intro n c hc
  refine .peekKind fun k hk => ?_
  split
  · exact .advance hc (hk ▸ by decide) fun hd => .pure hd
  · refine .advance hc (hk ▸ by decide) fun hd => .bind (h.declarator hd) fun hd => ?_
    exact .expect hd.1 (by decide) fun hd => .pure hd
  next hi hl =>
    refine .fail hc (by simp) (by simp) fun x hx => ?_
    obtain rfl | rfl : x = .token .ident ∨ x = .token .lParen := by simpa using hx
    · exact beq_eq_false_iff_ne.mpr fun h => hi (hk ▸ h)
    · exact beq_eq_false_iff_ne.mpr fun h => hl (hk ▸ h)

theorem declarator_lands (h : deep.AllSteady s limit) (hc : s.Clear n c) :
    Lands s limit (fun _ d => s.Clear n d ∧ d.peek.kind ≠ .lParen) (declarator deep c) := by
  refine .bind (Steady.many pointerLevel?_steady hc) fun hd => ?_
  refine .bind (declaratorBase_steady h hd) fun hd => .bind (.iterate ?_ hd) fun hd => .pure hd
  exact fun decl _ _ hc => suffix?_lands h (some decl) hc

theorem abstractBase_steady (h : deep.AllSteady s limit) : Steady s limit (abstractBase deep) := by
  intro n c hc
  refine .ahead ?_
  split
  next ha =>
    have hk : c.peek.kind.Common := by
      rw [Lookahead.peek_of_startsNestedAbstract ha]
      decide
    refine .advance hc hk fun hd => .bind (h.abstractDeclarator hd) fun hd => ?_
    exact .expect hd (by decide) fun hd => .pure hd
  next => exact .pure hc

theorem abstractDeclarator_steady (h : deep.AllSteady s limit) :
    Steady s limit (abstractDeclarator deep) := by
  intro n c hc
  refine .bind (Steady.many pointerLevel?_steady hc) fun hd => ?_
  have suffixes (base : Option Node) : Steady s limit
      (iterate (fun decl => return (← suffix? deep decl).map some) base) :=
    Steady.iterate (fun decl _ _ hc => .bind (suffix?_lands h decl hc)
      fun hd => .pure hd.clear) base
  refine .bind (abstractBase_steady h hd) fun hd => .bind (suffixes _ hd) fun hd => ?_
  generalize List.foldr _ _ _ = whole
  cases whole with
  | some decl => exact .pure hd
  | none => exact .fail_production hd _

theorem bitfield_steady (h : deep.AllSteady s limit) (decl : Option Node) (colon : Token) :
    Steady s limit (bitfield deep decl colon) :=
  fun _ _ hc => .bind (conditional_steady h hc) fun hd => .pure hd

theorem memberDeclarator_steady (h : deep.AllSteady s limit) :
    Steady s limit (memberDeclarator deep) := by
  intro n c hc
  refine .eat? hc (by decide) (fun hd => bitfield_steady h _ _ hd.widen) fun _ => ?_
  refine .bind (h.declarator hc) fun hd => ?_
  exact .eat? hd.1 (by decide) (fun hd => bitfield_steady h _ _ hd.widen) fun _ => .pure hd.1

theorem member_steady (h : deep.AllSteady s limit) : Steady s limit (member deep) := by
  intro n c hc
  refine .bind (specQuals_steady h hc) fun hd => ?_
  refine .commasBefore (by decide) (memberDeclarator_steady h) hd fun hd _ => ?_
  exact .expect hd (by decide) fun hd => .pure hd

theorem structSpecifier_lands (h : deep.AllSteady s limit) (hc : s.Clear n c)
    (hk : c.peek.kind.is .structOrUnion = true) :
    Lands s limit (fun _ d => s.Clear n d) (structSpecifier deep c) := by
  refine .advance hc (.of_is hk) fun hd => tag_lands hd ?body ?name (fail_tag hd)
  case body =>
    intro name d hd
    refine .bind (Steady.manyUntil (member_steady h) _ hd) fun hd => ?_
    exact .expect hd (by decide) fun hd => .pure hd
  case name => exact fun hd => .pure hd

theorem initializer_steady (h : deep.AllSteady s limit) : Steady s limit (initializer deep) := by
  intro n c hc
  refine .eat? hc (by decide) (fun hd => ?_) fun _ => assignment_steady h hc
  refine .bind (Steady.bracedItems h.initializer hd.widen) fun hd => ?_
  exact .expect hd (by decide) fun hd => .pure hd

theorem initDeclarator_steady (h : deep.AllSteady s limit) :
    Steady s limit (initDeclarator deep) := by
  intro n c hc
  refine .bind (h.declarator hc) fun hd => ?_
  refine .eat hd.1 (by decide) (fun hd => ?_) fun _ => .pure hd.1
  exact .bind_map (h.initializer hd.widen) fun hd => .pure hd

theorem staticAssert_lands (h : deep.AllSteady s limit) (hc : s.Clear n c)
    (hk : c.peek.kind = .kwStaticAssert) :
    Lands s limit (fun _ d => s.Clear n d) (staticAssert deep c) := by
  refine .advance hc (hk ▸ by decide) fun hd => .expect hd (by decide) fun hd => ?_
  refine .bind (conditional_steady h hd) fun hd => .expect hd (by decide) fun hd => ?_
  refine .bind (Steady.strings hd) fun hd => .expect hd (by decide) fun hd => ?_
  exact .expect hd (by decide) fun hd => .pure hd

theorem declaration_steady (h : deep.AllSteady s limit) : Steady s limit (declaration deep) := by
  intro n c hc
  refine .check ?_
  split
  next ha => exact staticAssert_lands h hc (eq_of_beq ha)
  next =>
    refine .bind (declSpecs_steady h hc) fun hd => ?_
    refine .commasBefore (by decide) (initDeclarator_steady h) hd fun hd hk => ?_
    refine .eat? hd (by decide) (fun hd => .pure hd.widen) fun hs => ?_
    exact .fail hd (by simp) (by simp) (by simp [Expected.accepts, hk, hs])

end Grammar

end CPretty
