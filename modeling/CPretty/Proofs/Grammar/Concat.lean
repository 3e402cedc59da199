import CPretty.Proofs.Grammar.Alike.SourceFile
import CPretty.Proofs.Grammar.Locality
import CPretty.Proofs.Token.Shift

namespace CPretty

open Parse

variable {α : Type} {c d : Cursor} {f : Token} {n : Node} {ns : List Node} {deep : Nested}

/-- A bound beyond the number of tokens left does not matter. -/
theorem manyUpTo_eq {step : Parse (Option α)} {D : List Token → α → Prop}
    (hs : Reads step (StepReads D)) (hD : ∀ xs a, D xs a → xs ≠ []) {i j : Nat} (hc : c.Ended)
    (hi : c.ahead.length < i) (hj : c.ahead.length < j) :
    manyUpTo step i c = manyUpTo step j c := by
  induction i generalizing j c with
  | zero => exact absurd hi (Nat.not_lt_zero _)
  | succ i ih =>
    obtain _ | j := j
    · exact absurd hj (Nat.not_lt_zero _)
    rw [manyUpTo, manyUpTo]
    cases hr : step c with
    | error e => rw [bind_of_error hr, bind_of_error hr]
    | ok r =>
      obtain ⟨o, d⟩ := r
      rw [bind_of_ok hr, bind_of_ok hr]
      cases o with
      | none => rfl
      | some a =>
        obtain ⟨xs, p, hx⟩ := hs hc hr
        have hl := p.length_lt (hD xs a hx)
        have rest := ih (p.ended hc) (Nat.lt_of_lt_of_le hl (Nat.le_of_lt_succ hi))
          (Nat.lt_of_lt_of_le hl (Nat.le_of_lt_succ hj))
        dsimp only
        rw [bind_apply, bind_apply, rest]

theorem many_of_step {step : Parse (Option α)} {D : List Token → α → Prop} {a : α}
    (hs : Reads step (StepReads D)) (hD : ∀ xs a, D xs a → xs ≠ []) (hc : c.Ended)
    (h : step c = .ok (some a, d)) : many step c = (List.cons a <$> many step) d := by
  have bound (c : Cursor) : many step c = manyUpTo step (c.ahead.length + 1) c :=
    bind_of_ok (ahead_apply c)
  obtain ⟨xs, p, hx⟩ := hs hc h
  have hl := p.length_lt (hD xs a hx)
  rw [bound, manyUpTo, bind_of_ok h, map_eq_pure_bind]
  dsimp only
  rw [bind_apply, bind_apply, bound, manyUpTo_eq hs hD (p.ended hc) hl (Nat.lt_succ_self _)]

theorem many_first {step : Parse (Option α)} {a : α} {as : List α}
    (h : many step c = .ok (a :: as, d)) : ∃ b, step c = .ok (some a, b) := by
  rw [many, bind_of_ok (ahead_apply c), manyUpTo] at h
  obtain ⟨o, c₁, h₁, h⟩ := bind_ok h
  cases o with
  | none => cases h
  | some a' =>
    obtain ⟨as', c₂, -, h⟩ := bind_ok h
    cases h
    exact ⟨c₁, h₁⟩

/-- Both alternatives failed, neither by excess of nesting. -/
theorem either_error_cases {p q : Parse α} {e : ParseError} (h : either p q c = .error e)
    (he : e.isTooDeep = false) : ∃ a b, p c = .error a ∧ q c = .error b ∧ e = a.furthest b ∧
      a.isTooDeep = false ∧ b.isTooDeep = false := by
  rw [either] at h
  split at h
  · cases h
  next a ha =>
    split at h
    next deep =>
      cases h
      rw [he] at deep
      cases deep
    next na =>
      split at h
      · cases h
      next b hb =>
        cases h
        rw [ParseError.isTooDeep_furthest na] at he
        exact ⟨a, b, ha, hb, rfl, Bool.eq_false_iff.mpr na, he⟩

namespace Grammar

abbrev external? (deep : Nested) : Parse (Option Node) := do
  if ← atEnd then return none else return some (← externalDeclaration deep)

theorem external?_reads (hd : deep.Sound) :
    Reads (external? deep) (StepReads fun xs n => Derives .external xs [n]) := by
  intro c o d hc h
  obtain ⟨b, c₁, h₁, h⟩ := bind_ok h
  cases h₁
  split at h
  · obtain ⟨rfl, rfl⟩ := pure_ok h
    exact ⟨[], .refl d, rfl⟩
  · obtain ⟨n, c₁, h₁, h⟩ := bind_ok h
    obtain ⟨rfl, rfl⟩ := pure_ok h
    exact externalDeclaration_reads hd hc h₁

theorem externals_of_first (hd : deep.Sound) (hc : c.Ended)
    (h : externalDeclaration deep c = .ok (n, d)) :
    many (external? deep) c = (List.cons n <$> many (external? deep)) d := by
  obtain ⟨xs, p, hx⟩ := externalDeclaration_reads hd hc h
  have some : c.ahead ≠ [] := by simp [p.ahead, hx.ne_nil]
  refine many_of_step (external?_reads hd) (fun _ _ hx => hx.ne_nil) hc ?_
  rw [external?, bind_of_ok (atEnd_apply c), if_neg (by simpa using some), bind_of_ok h]
  rfl

/-- What holds at the end of a source with no declarations, and carries over to one more before
them, holds of all declarations. -/
theorem externals_induction (hd : deep.Sound) {motive : Cursor → List Node → Prop}
    (nil : motive d [])
    (cons : ∀ {c c₁ n ns}, c.Ended → externalDeclaration deep c = .ok (n, c₁) →
      many (external? deep) c₁ = .ok (ns, d) → motive c₁ ns → motive c (n :: ns)) (hc : c.Ended)
    (hr : many (external? deep) c = .ok (ns, d)) : motive c ns := by
  have loop (i : Nat) : ∀ {c ns}, c.Ended → c.ahead.length < i →
      many (external? deep) c = .ok (ns, d) → motive c ns := by
    induction i with
    | zero => exact fun _ hi => absurd hi (Nat.not_lt_zero _)
    | succ i ih =>
      intro c ns hc hi hr
      have first := hr
      rw [many, bind_of_ok (ahead_apply c), manyUpTo] at first
      obtain ⟨o, c₁, h₁, first⟩ := bind_ok first
      obtain ⟨b, c₂, h₂, h₁⟩ := bind_ok h₁
      cases h₂
      split at h₁
      · obtain ⟨rfl, rfl⟩ := pure_ok h₁
        obtain ⟨rfl, rfl⟩ := pure_ok first
        exact nil
      · obtain ⟨n, c₂, h₂, h₁⟩ := bind_ok h₁
        obtain ⟨rfl, rfl⟩ := pure_ok h₁
        rw [externals_of_first hd hc h₂] at hr
        obtain ⟨ms, hm, rfl⟩ := map_ok hr
        obtain ⟨xs, p, hx⟩ := externalDeclaration_reads hd hc h₂
        have shorter := p.length_lt hx.ne_nil
        exact cons hc h₂ hm (ih (p.ended hc) (by omega) hm)
  exact loop _ hc (Nat.lt_succ_self _) hr

/-- Where the declarations of a source cannot be read, one of them cannot, behind others that
can. -/
theorem externals_error (hd : deep.Sound) {e : ParseError} (hc : c.Ended)
    (hr : many (external? deep) c = .error e) : ∃ xs ns d, c.Passes xs d ∧
      Derives (.sequence .external) xs ns ∧ externalDeclaration deep d = .error e := by
  have loop (i : Nat) : ∀ {c}, c.Ended → manyUpTo (external? deep) i c = .error e →
      ∃ xs ns d, c.Passes xs d ∧ Derives (.sequence .external) xs ns ∧
        externalDeclaration deep d = .error e := by
    induction i with
    | zero => exact fun _ hr => nomatch hr
    | succ i ih =>
      intro c hc hr
      rw [manyUpTo] at hr
      cases hs : external? deep c with
      | error e' =>
        rw [bind_of_error hs] at hr
        cases hr
        rw [external?, bind_of_ok (atEnd_apply c)] at hs
        split at hs
        · cases hs
        · cases he : externalDeclaration deep c with
          | ok r =>
            rw [bind_of_ok he] at hs
            cases hs
          | error e' =>
            rw [bind_of_error he] at hs
            cases hs
            exact ⟨[], [], c, .refl c, .sequenceNil, he⟩
      | ok r =>
        obtain ⟨o, c₁⟩ := r
        obtain ⟨xs, px, hx⟩ := external?_reads hd hc hs
        rw [bind_of_ok hs] at hr
        cases o with
        | none => cases hr
        | some n =>
          cases hm : manyUpTo (external? deep) i c₁ with
          | ok r =>
            dsimp only at hr
            rw [bind_of_ok hm] at hr
            cases hr
          | error e' =>
            dsimp only at hr
            rw [bind_of_error hm] at hr
            cases hr
            obtain ⟨ys, ns, d, py, hy, he⟩ := ih (px.ended hc) hm
            exact ⟨xs ++ ys, n :: ns, d, px.trans py, .sequenceMore hx hy, he⟩
  rw [many, bind_of_ok (ahead_apply c)] at hr
  exact loop _ hc hr

theorem externals_append (h : ∀ e, Linked.Nesteds e deep) (hc : c.Ended) (hf : f.kind = .eof)
    (hr : many (external? deep) c = .ok (ns, d)) (hd : d.ahead = []) (ys : List Token) :
    many (external? deep) ⟨c.ahead ++ ys, f⟩ = ((ns ++ ·) <$> many (external? deep)) ⟨ys, f⟩ := by
  have sound := (h ⟨.source, [], []⟩).sound
  refine externals_induction (motive := fun c ns => many (external? deep) ⟨c.ahead ++ ys, f⟩ =
    ((ns ++ ·) <$> many (external? deep)) ⟨ys, f⟩) sound ?_ ?_ hc hr
  · rw [hd]
    exact (congrFun (id_map _) _).symm
  · intro c c₁ n ns hc h₁ _ ih
    obtain ⟨xs, p, -⟩ := externalDeclaration_reads sound hc h₁
    have ended : (⟨xs ++ (c₁.ahead ++ ys), f⟩ : Cursor).Ended := hf
    have first := externalDeclaration_append h hc hf p h₁ (c₁.ahead ++ ys)
    rw [p.ahead, List.append_assoc, externals_of_first sound ended first, map_eq_pure_bind,
      bind_apply, ih, map_eq_pure_bind, map_eq_pure_bind, bind_apply, bind_apply]
    cases many (external? deep) ⟨ys, f⟩ <;> rfl

theorem sourceFile_cases (hd : deep.Sound) (hc : c.Ended) (h : sourceFile deep c = .ok (n, d)) :
    d.ahead = [] ∧ ∃ sp ns, many (external? deep) c = .ok (ns, d) ∧ n = ⟨sp, .root ns⟩ := by
  obtain ⟨-, -, -, -, hend⟩ := sourceFile_reads hd hc h
  obtain ⟨ns, c₁, h₁, h⟩ := bind_ok h
  obtain ⟨t, c₂, h₂, h⟩ := bind_ok h
  cases h₂
  obtain ⟨rfl, rfl⟩ := pure_ok h
  exact ⟨hend, _, ns, h₁, rfl⟩

theorem sourceFile_of_externals (h : many (external? deep) c = .ok (ns, d)) :
    sourceFile deep c = .ok (⟨Node.spanOf ns d.peek.span, .root ns⟩, d) := by
  rw [sourceFile, bind_of_ok h]
  rfl

theorem externals_of_error {e : ParseError} (h : sourceFile deep c = .error e) :
    many (external? deep) c = .error e := by
  cases hm : many (external? deep) c with
  | error e' =>
    rw [sourceFile, bind_of_error hm] at h
    cases h
    rfl
  | ok r =>
    rw [sourceFile_of_externals hm] at h
    cases h

end Grammar

namespace TokenStream

open Grammar

variable {s s' : TokenStream} {l : Nat} {e : ParseError} {n' : Node}

theorem sourceFile_of_parse (h : s.parse l = .ok n) :
    ∃ d, sourceFile (.levels l l) ⟨s.tokens, Token.eof s.finish⟩ = .ok (n, d) := by
  rw [parse] at h
  cases hr : sourceFile (.levels l l) ⟨s.tokens, Token.eof s.finish⟩ with
  | error e => rw [hr] at h; cases h
  | ok r =>
    rw [hr] at h
    cases h
    exact ⟨r.2, rfl⟩

theorem parse_of_externals {d : Cursor}
    (h : many (external? (.levels l l)) ⟨s.tokens, Token.eof s.finish⟩ = .ok (ns, d)) :
    ∃ sp, s.parse l = .ok ⟨sp, .root ns⟩ := by
  rw [parse, sourceFile_of_externals h]
  exact ⟨_, rfl⟩

theorem sourceFile_of_parse_error (h : s.parse l = .error e) :
    sourceFile (.levels l l) ⟨s.tokens, Token.eof s.finish⟩ = .error e := by
  rw [parse] at h
  cases hr : sourceFile (.levels l l) ⟨s.tokens, Token.eof s.finish⟩ with
  | error e' => rw [hr] at h; cases h; rfl
  | ok r => rw [hr] at h; cases h

theorem externals_append (h : s.parse l = .ok n) (s' : TokenStream) :
    ∃ sp ns, n = ⟨sp, .root ns⟩ ∧
      many (external? (.levels l l)) ⟨(s.append s').tokens, Token.eof (s.append s').finish⟩ =
        ((ns ++ ·) <$> many (external? (.levels l l))) ⟨s'.tokens, Token.eof s'.finish⟩ := by
  obtain ⟨d, hr⟩ := sourceFile_of_parse h
  have ended : (⟨s.tokens, Token.eof s.finish⟩ : Cursor).Ended := rfl
  obtain ⟨hd, sp, ns, hm, rfl⟩ := sourceFile_cases (.levels l l) ended hr
  have levels (e : Ending) : Linked.Nesteds e (.levels l l) := .levels l l
  exact ⟨sp, ns, rfl, Grammar.externals_append levels ended rfl hm hd s'.tokens⟩

theorem parse_append (h : s.parse l = .ok n) (h' : s'.parse l = .ok n') :
    ∃ n'', (s.append s').parse l = .ok n'' ∧
      n''.shape = .root (n.shape.children ++ n'.shape.children) := by
  obtain ⟨sp, ns, rfl, ha⟩ := externals_append h s'
  obtain ⟨d, hr⟩ := sourceFile_of_parse h'
  have ended : (⟨s'.tokens, Token.eof s'.finish⟩ : Cursor).Ended := rfl
  obtain ⟨-, sp', ns', hm, rfl⟩ := sourceFile_cases (.levels l l) ended hr
  rw [map_eq_pure_bind, bind_of_ok hm] at ha
  obtain ⟨sp'', all⟩ := parse_of_externals ha
  exact ⟨_, all, rfl⟩

theorem parse_append_error (h : s.parse l = .ok n) (h' : s'.parse l = .error e) :
    (s.append s').parse l = .error e := by
  obtain ⟨sp, ns, rfl, ha⟩ := externals_append h s'
  have hr := sourceFile_of_parse_error h'
  have he : many (external? (.levels l l)) ⟨s'.tokens, Token.eof s'.finish⟩ = .error e := by
    cases hr' : many (external? (.levels l l)) ⟨s'.tokens, Token.eof s'.finish⟩ with
    | error e' =>
      rw [sourceFile, bind_of_error hr'] at hr
      cases hr
      rfl
    | ok r =>
      rw [sourceFile_of_externals hr'] at hr
      cases hr
  rw [map_eq_pure_bind, bind_of_error he] at ha
  rw [parse, sourceFile, bind_of_error ha]
  rfl

end TokenStream

def ParseError.shift (k : Nat) (e : ParseError) : ParseError := ⟨e.fault, e.found.shift k, e.left⟩

def Node.shift (k : Nat) : Node → Node := Node.respan (Span.shift k)

/-- Tokens of a source, and of the same source on later lines. -/
def Likeness.shift (k : Nat) : Likeness where
  token t t' := t' = t.shift k
  left := Span.shift k
  right := id
  limit? := none
  kind_eq h := h ▸ rfl
  text_eq h _ := h ▸ rfl
  span_eq h := h ▸ (Token.span_shift _).symm
  left_through _ _ := rfl
  right_through := Span.id_through

/-- On later lines a source has the same tree or the same error there. -/
theorem TokenStream.parse_shift (s : TokenStream) (k l : Nat) :
    (∃ n, s.parse l = .ok n ∧ (s.shift k).parse l = .ok (n.shift k)) ∨
      ∃ e, s.parse l = .error e ∧ (s.shift k).parse l = .error (e.shift k) := by
  have levels := (Likeness.Nesteds.refused (L := .shift k) l).levels l
  have tokens : List.Forall₂ (Likeness.shift k).token s.tokens (s.shift k).tokens := by
    rw [shift, List.forall₂_map_right_iff]
    exact List.forall₂_same.mpr fun t _ => rfl
  obtain ⟨n, n', hn, hn', hr⟩ | ⟨e, e', he, he', hr⟩ | ⟨_, _, _, hl, _⟩ :=
    Likeness.parse_alike levels tokens rfl
  · refine .inl ⟨n, hn, ?_⟩
    rw [hn', Node.shift, show n.respan (Span.shift k) = n'.respan id from hr, Node.respan_id]
  · obtain ⟨fault', found', left'⟩ := e'
    obtain ⟨rfl, rfl, rfl⟩ := hr
    exact .inr ⟨e, he, he'⟩
  · cases hl

end CPretty
