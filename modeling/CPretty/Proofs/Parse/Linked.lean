import CPretty.Proofs.Grammar.Repetition
import CPretty.Proofs.Parse.Place

namespace CPretty

open Place

/-- A part of a source that is read by itself. -/
inductive Portion where
  | source
  /-- A function definition, up to the brace that closes its body. -/
  | definition
  /-- A declaration, up to the semicolon outside of all brackets. -/
  | declaration
  /-- What stands within brackets, up to the one that closes them. -/
  | enclosed
  /-- The value of a label, up to the colon. -/
  | label
deriving DecidableEq

/-- The end of a part and what comes after it in two sources. -/
structure Ending where
  part : Portion
  left : List Token
  right : List Token

/-- A token of kind `k` within the brackets `s` ends the part. -/
def Ending.At (e : Ending) (s : List Bracket) (k : Kind) : Prop :=
  (e.part = .definition ∧ s = [.block] ∧ k = .rBrace) ∨
    (e.part = .declaration ∧ s = [] ∧ k = .semicolon) ∨
    (e.part = .enclosed ∧ s = [] ∧ (k = .rParen ∨ k = .rBrace)) ∨
    (e.part = .label ∧ s = [] ∧ k = .colon)

/-- A colon within the brackets `s` belongs to no `?` and does not end the part. -/
def Ending.PlainColon (e : Ending) (s : List Bracket) : Prop :=
  s.head? ≠ some .choice ∧ ¬ e.At s .colon

namespace Ending

variable {e : Ending} {b : Bracket} {s : List Bracket} {k : Kind}

theorem not_at (hk : k ∉ [Kind.rBrace, .semicolon, .rParen, .colon]) : ¬ e.At s k := by
  simp only [List.mem_cons, List.not_mem_nil, or_false, not_or] at hk
  rintro (⟨-, -, he⟩ | ⟨-, -, he⟩ | ⟨-, -, he | he⟩ | ⟨-, -, he⟩)
  · exact hk.1 he
  · exact hk.2.1 he
  · exact hk.2.2.1 he
  · exact hk.1 he
  · exact hk.2.2.2 he

theorem kind_ne {k' : Kind} (h : e.At s k)
    (hk : k' ∉ [Kind.rBrace, .semicolon, .rParen, .colon]) : k ≠ k' :=
  fun he => not_at hk (he ▸ h)

theorem not_at_within (hb : b ≠ .block) : ¬ e.At (b :: s) k := by
  rintro (⟨-, hs, -⟩ | ⟨-, hs, -⟩ | ⟨-, hs, -⟩ | ⟨-, hs, -⟩) <;> cases hs
  exact hb rfl

theorem not_at_semicolon : ¬ e.At (b :: s) .semicolon := by
  rintro (⟨-, -, hk⟩ | ⟨-, hs, -⟩ | ⟨-, hs, -⟩ | ⟨-, hs, -⟩)
  · cases hk
  · cases hs
  · cases hs
  · cases hs

theorem not_at_semicolon_of (he : e.part ≠ .declaration) : ¬ e.At s .semicolon := by
  rintro (⟨-, -, hk⟩ | ⟨he', -, -⟩ | ⟨-, -, hk | hk⟩ | ⟨-, -, hk⟩)
  · cases hk
  · exact he he'
  · cases hk
  · cases hk
  · cases hk

theorem not_at_brace_of (he : e.part ≠ .definition) : ¬ e.At (b :: s) .rBrace := by
  rintro (⟨he', -, -⟩ | ⟨-, hs, -⟩ | ⟨-, hs, -⟩ | ⟨-, hs, -⟩)
  · exact he he'
  · cases hs
  · cases hs
  · cases hs

theorem not_at_inner_brace (hs : s ≠ []) : ¬ e.At (.block :: s) .rBrace := by
  rintro (⟨-, he, -⟩ | ⟨-, he, -⟩ | ⟨-, he, -⟩ | ⟨-, he, -⟩) <;> cases he
  exact hs rfl

theorem plainColon (hb : b ≠ .choice) : e.PlainColon (b :: s) := by
  refine ⟨by simpa using hb, ?_⟩
  rintro (⟨-, -, hk⟩ | ⟨-, hs, -⟩ | ⟨-, hs, -⟩ | ⟨-, hs, -⟩)
  · cases hk
  · cases hs
  · cases hs
  · cases hs

theorem plainColon_of (he : e.part ≠ .label) (hs : s.head? ≠ some .choice) : e.PlainColon s := by
  refine ⟨hs, ?_⟩
  rintro (⟨-, -, hk⟩ | ⟨-, -, hk⟩ | ⟨-, -, hk | hk⟩ | ⟨he', -, -⟩)
  · cases hk
  · cases hk
  · cases hk
  · cases hk
  · exact he he'

end Ending

/-- The tokens of two sources from a place on, of which the first may have a comma more before the
closing brace of a list. -/
inductive Linked (e : Ending) : Place → List Token → List Token → Prop
  | nil {p} : Linked e p [] []
  | token {p q t ts ts'} : ¬ e.At p.within t.kind → p.after? t.kind = some q →
      Linked e q ts ts' → Linked e p (t :: ts) (t :: ts')
  | last {p t ts ts'} : e.At p.within t.kind → ts = e.left → ts' = e.right →
      Linked e p (t :: ts) (t :: ts')
  | trailing {s t r ts ts'} : t.kind = .comma → r.kind = .rBrace →
      Linked e ⟨.list :: s, .block⟩ (r :: ts) (r :: ts') →
      Linked e ⟨.list :: s, .block⟩ (t :: r :: ts) (r :: ts')

variable {e : Ending} {P P' : Place → Prop} {p q : Place} {s : List Bracket} {k : Kind}
  {ts ts' : List Token} {c c' d d' : Cursor} {α β σ : Type}

/-- Taking a token of kind `k` leads from the places `P` to the places `P'`. -/
structure Leads (e : Ending) (P : Place → Prop) (k : Kind) (P' : Place → Prop) : Prop where
  ne_eof : k ≠ .eof
  not_at : ∀ p, P p → ¬ e.At p.within k
  not_comma : ∀ p, P p → p.within.head? = some .list → k ≠ .comma
  after : ∀ p, P p → ∃ q, p.after? k = some q ∧ P' q

namespace Leads

theorem into {Q : Place → Prop} (h : Leads e P k P') (hP : ∀ p, P' p → Q p) : Leads e P k Q where
  ne_eof := h.ne_eof
  not_at := h.not_at
  not_comma := h.not_comma
  after p hp := (h.after p hp).imp fun q hq => ⟨hq.1, hP q hq.2⟩

theorem of_free {s' : List Bracket} {o' : Opening} (hk : k ∉ [Kind.eof, .comma])
    (hn : ¬ e.At s k)
    (h : ∀ o ∉ [Opening.enumName, .structName], after? ⟨s, o⟩ k = some ⟨s', o'⟩) :
    Leads e (Free s) k (At s' o') := by
  simp only [List.mem_cons, List.not_mem_nil, or_false, not_or] at hk
  refine ⟨hk.1, ?_, fun _ _ _ => hk.2, ?_⟩
  · rintro _ ⟨o, -, rfl⟩
    exact hn
  · rintro _ ⟨o, ho, rfl⟩
    exact ⟨_, h o ho, rfl⟩

theorem of_at {s' : List Bracket} {o o' : Opening} (hk : k ∉ [Kind.eof, .comma])
    (hn : ¬ e.At s k) (h : after? ⟨s, o⟩ k = some ⟨s', o'⟩) :
    Leads e (At s o) k (At s' o') := by
  simp only [List.mem_cons, List.not_mem_nil, or_false, not_or] at hk
  refine ⟨hk.1, ?_, fun _ _ _ => hk.2, ?_⟩
  · rintro _ rfl
    exact hn
  · rintro _ rfl
    exact ⟨_, h, rfl⟩

theorem inner (hk : k.isInner = true) : Leads e (Free s) k (At s .block) := by
  refine of_free ?_ (Ending.not_at ?_) fun o ho => ?_
  · intro hm
    simp only [List.mem_cons, List.not_mem_nil, or_false] at hm
    obtain rfl | rfl := hm <;> cases hk
  · intro hm
    simp only [List.mem_cons, List.not_mem_nil, or_false] at hm
    obtain rfl | rfl | rfl | rfl := hm <;> cases hk
  · cases k with
    | ident =>
      cases o with
      | enumName => exact absurd ho (by decide)
      | structName => exact absurd ho (by decide)
      | _ => rfl
    | _ => first | rfl | cases hk

theorem eq : Leads e (Free s) .eq (At s .list) :=
  of_free (by decide) (Ending.not_at (by decide)) fun _ _ => rfl

theorem assignment (hk : k.is .assignment = true) : Leads e (Free s) k (Free s) := by
  by_cases he : k = .eq
  · rw [he]
    exact eq.into fun _ hp => hp.free (by decide)
  · have others : ∀ k ∈ Category.assignment.members, k ≠ .eq → k.isInner = true := by decide
    exact (inner (others k (List.contains_iff_mem.mp hk) he)).into fun _ hp => hp.free (by decide)

theorem enumWord : Leads e (Free s) .kwEnum (At s .enumName) :=
  of_free (by decide) (Ending.not_at (by decide)) fun _ _ => rfl

theorem enumName : Leads e (At s .enumName) .ident (At s .list) :=
  of_at (by decide) (Ending.not_at (by decide)) rfl

theorem structWord (hk : k.is .structOrUnion = true) : Leads e (Free s) k (At s .structName) := by
  have kinds : k = .kwStruct ∨ k = .kwUnion := by simpa [Kind.is, Category.members] using hk
  obtain rfl | rfl := kinds <;>
    exact of_free (by decide) (Ending.not_at (by decide)) fun _ _ => rfl

theorem structName : Leads e (At s .structName) .ident (At s .body) :=
  of_at (by decide) (Ending.not_at (by decide)) rfl

theorem comma (hs : s.head? ≠ some .list) : Leads e (Free s) .comma (At s .list) := by
  refine ⟨nofun, ?_, ?_, ?_⟩
  · rintro _ ⟨o, -, rfl⟩
    exact Ending.not_at (by decide)
  · rintro _ ⟨o, -, rfl⟩ h
    exact absurd h hs
  · rintro _ ⟨o, -, rfl⟩
    exact ⟨_, if_neg fun h => hs h.1, rfl⟩

theorem semicolon (hs : ¬ e.At s .semicolon) : Leads e (Free s) .semicolon (At s .block) :=
  of_free (by decide) hs fun _ _ => rfl

theorem colon (hs : e.PlainColon s) : Leads e (Free s) .colon (At s .block) := by
  refine of_free (by decide) hs.2 fun o _ => ?_
  obtain _ | ⟨b, s⟩ := s
  · rfl
  · cases b with
    | choice => exact absurd rfl hs.1
    | _ => rfl

theorem paren : Leads e (Free s) .lParen (At (.paren :: s) .block) :=
  of_free (by decide) (Ending.not_at (by decide)) fun _ _ => rfl

theorem closeParen : Leads e (Free (.paren :: s)) .rParen (At s .block) :=
  of_free (by decide) (Ending.not_at_within (by decide)) fun _ _ => rfl

theorem square : Leads e (Free s) .lBracket (At (.square :: s) .block) :=
  of_free (by decide) (Ending.not_at (by decide)) fun _ _ => rfl

theorem closeSquare : Leads e (Free (.square :: s)) .rBracket (At s .block) :=
  of_free (by decide) (Ending.not_at (by decide)) fun _ _ => rfl

theorem choice : Leads e (Free s) .question (At (.choice :: s) .block) :=
  of_free (by decide) (Ending.not_at (by decide)) fun _ _ => rfl

theorem closeChoice : Leads e (Free (.choice :: s)) .colon (At s .block) :=
  of_free (by decide) (Ending.not_at_within (by decide)) fun _ _ => rfl

theorem list {o : Opening} (ho : o = .list ∨ o = .enumName) :
    Leads e (At s o) .lBrace (At (.list :: s) .list) :=
  of_at (by decide) (Ending.not_at (by decide)) (by obtain rfl | rfl := ho <;> rfl)

theorem closeList : Leads e (Free (.list :: s)) .rBrace (At s .block) :=
  of_free (by decide) (Ending.not_at_within (by decide)) fun _ _ => rfl

theorem body {o : Opening} (ho : o = .body ∨ o = .structName) :
    Leads e (At s o) .lBrace (At (.body :: s) .block) :=
  of_at (by decide) (Ending.not_at (by decide)) (by obtain rfl | rfl := ho <;> rfl)

theorem closeBody : Leads e (At (.body :: s) .block) .rBrace (At s .block) :=
  of_at (by decide) (Ending.not_at_within (by decide)) rfl

theorem block : Leads e (At s .block) .lBrace (At (.block :: s) .block) :=
  of_at (by decide) (Ending.not_at (by decide)) rfl

theorem closeBlock (hs : ¬ e.At (.block :: s) .rBrace) :
    Leads e (At (.block :: s) .block) .rBrace (At s .block) :=
  of_at (by decide) hs rfl

end Leads

theorem Cursor.advance_length_le (c : Cursor) : c.advance.ahead.length ≤ c.ahead.length := by
  rw [advance, List.length_tail]
  exact Nat.sub_le _ _

theorem Cursor.Ended.advance_lt (hc : c.Ended) (hk : c.peek.kind ≠ .eof) :
    c.advance.ahead.length < c.ahead.length :=
  (Cursor.Passes.of_advance hc hk).length_lt (List.cons_ne_nil _ _)

theorem Reads.length_le {p : Parse α} {D : List Token → α → Prop} {a : α} (h : Reads p D)
    (hc : c.Ended) (hp : p c = .ok (a, d)) : d.ahead.length ≤ c.ahead.length := by
  obtain ⟨xs, hx, -⟩ := h hc hp
  exact hx.length_le

/-- After an error that is no excess of nesting, the second alternative decides. -/
theorem ParseError.isTooDeep_furthest {a b : ParseError} (ha : ¬ a.isTooDeep = true) :
    (a.furthest b).isTooDeep = b.isTooDeep := by
  obtain ⟨fault, t, l⟩ := a
  obtain ⟨fault', t', l'⟩ := b
  cases fault with
  | tooDeep => exact absurd rfl ha
  | unexpected =>
    cases fault' with
    | tooDeep => rfl
    | unexpected =>
      simp only [ParseError.furthest]
      split
      · rfl
      · split <;> rfl

namespace Linked

/-- Positions in two sources from which on the tokens are linked, at one of the places `P`. -/
structure Cursors (e : Ending) (P : Place → Prop) (c c' : Cursor) : Prop where
  ahead : ∃ p, P p ∧ Linked e p c.ahead c'.ahead
  ended : c.Ended
  ended' : c'.Ended

namespace Cursors

theorem mono (h : Cursors e P c c') (hP : ∀ p, P p → P' p) : Cursors e P' c c' := by
  obtain ⟨p, hp, ha⟩ := h.ahead
  exact ⟨⟨p, hP p hp, ha⟩, h.ended, h.ended'⟩

theorem free (h : Cursors e (At s .block) c c') : Cursors e (Free s) c c' :=
  h.mono fun _ hp => hp.free (by decide)

theorem free_list (h : Cursors e (At s .list) c c') : Cursors e (Free s) c c' :=
  h.mono fun _ hp => hp.free (by decide)

theorem kind (h : Cursors e P c c') : c.peek.kind = c'.peek.kind ∨
    c.peek.kind = .comma ∧ c'.peek.kind = .rBrace ∧ ∃ s, P ⟨.list :: s, .block⟩ := by
  obtain ⟨⟨p, hp, ha⟩, hc, hc'⟩ := h
  obtain ⟨us, f⟩ := c
  obtain ⟨us', f'⟩ := c'
  cases ha with
  | nil => exact .inl (hc.trans hc'.symm)
  | token => exact .inl rfl
  | last => exact .inl rfl
  | trailing ht hr => exact .inr ⟨ht, hr, _, hp⟩

theorem sees (h : Cursors e P c c') (hk : k ∉ [Kind.comma, .rBrace]) :
    (c.peek.kind == k) = (c'.peek.kind == k) := by
  obtain he | ⟨h₁, h₂, -⟩ := h.kind
  · rw [he]
  · simp only [List.mem_cons, List.not_mem_nil, or_false, not_or] at hk
    rw [h₁, h₂, beq_false_of_ne (Ne.symm hk.1), beq_false_of_ne (Ne.symm hk.2)]

theorem kind_eq (h : Cursors e P c c') (hP : ∀ s, ¬ P ⟨.list :: s, .block⟩) :
    c.peek.kind = c'.peek.kind := by
  obtain he | ⟨-, -, s, hs⟩ := h.kind
  · exact he
  · exact absurd hs (hP s)

theorem isEmpty (h : Cursors e P c c') : c.ahead.isEmpty = c'.ahead.isEmpty := by
  obtain ⟨p, -, ha⟩ := h.ahead
  generalize c.ahead = us, c'.ahead = us' at ha
  cases ha <;> rfl

theorem advance (h : Cursors e P c c') (hl : Leads e P c.peek.kind P') :
    c'.peek = c.peek ∧ Cursors e P' c.advance c'.advance := by
  obtain ⟨⟨p, hp, ha⟩, hc, hc'⟩ := h
  obtain ⟨us, f⟩ := c
  obtain ⟨us', f'⟩ := c'
  cases ha with
  | nil => exact absurd hc hl.ne_eof
  | token _ hq ha =>
    obtain ⟨r, hr, hr'⟩ := hl.after _ hp
    cases hq.symm.trans hr
    exact ⟨rfl, ⟨_, hr', ha⟩, hc, hc'⟩
  | last ht => exact absurd ht (hl.not_at _ hp)
  | trailing ht => exact absurd ht (hl.not_comma _ hp rfl)

theorem peek_eq (h : Cursors e P c c') (hk : c.peek.kind ∉ [Kind.comma, .eof]) :
    c'.peek = c.peek := by
  simp only [List.mem_cons, List.not_mem_nil, or_false, not_or] at hk
  obtain ⟨⟨p, hp, ha⟩, hc, hc'⟩ := h
  obtain ⟨us, f⟩ := c
  obtain ⟨us', f'⟩ := c'
  cases ha with
  | nil => exact absurd hc hk.2
  | token => rfl
  | last => rfl
  | trailing ht => exact absurd ht hk.1

theorem advance_lt (h : Cursors e P c c') (hk : c.peek.kind = k) (hl : Leads e P k P') :
    c.advance.ahead.length < c.ahead.length ∧ c'.advance.ahead.length < c'.ahead.length := by
  cases hk
  exact ⟨h.ended.advance_lt hl.ne_eof, h.ended'.advance_lt ((h.advance hl).1 ▸ hl.ne_eof)⟩

/-- After an item of a list, another one, a comma that only the first source has, or the end. -/
theorem afterItem (h : Cursors e (Free (.list :: s)) c c') :
    (c.peek.kind = .comma ∧ c'.peek.kind = .comma ∧
        Cursors e (At (.list :: s) .list) c.advance c'.advance) ∨
      (c.peek.kind = .comma ∧ c'.peek.kind = .rBrace ∧ c.advance.peek.kind = .rBrace ∧
        Cursors e (At (.list :: s) .block) c.advance c') ∨
      (c.peek.kind ≠ .comma ∧ c.peek.kind = c'.peek.kind) := by
  obtain ⟨⟨_, ⟨o, ho, rfl⟩, ha⟩, hc, hc'⟩ := h
  obtain ⟨us, f⟩ := c
  obtain ⟨us', f'⟩ := c'
  cases ha with
  | nil => exact .inr (.inr ⟨fun hk => absurd (hc.symm.trans hk) nofun, hc.trans hc'.symm⟩)
  | last ht =>
    refine .inr (.inr ⟨fun hk => ?_, rfl⟩)
    exact Ending.kind_ne ht (by decide) hk
  | trailing ht hr ha => exact .inr (.inl ⟨ht, hr, hr, ⟨_, rfl, ha⟩, hc, hc'⟩)
  | @token _ _ t _ _ _ hq ha =>
    by_cases hk : t.kind = .comma
    · rw [hk, after?] at hq
      split at hq
      · cases hq
      · cases hq
        exact .inl ⟨hk, hk, ⟨_, rfl, ha⟩, hc, hc'⟩
    · exact .inr (.inr ⟨hk, rfl⟩)

end Cursors

theorem free_not_list (hs : s.head? ≠ some .list) (r : List Bracket) :
    ¬ Free s ⟨.list :: r, .block⟩ := by
  rintro ⟨o, -, h⟩
  cases h
  exact hs rfl

/-- The results of two runs: the same value, and positions that are related, or errors that are both
an excess of nesting or both none. -/
inductive Outcome (Q : Cursor → Cursor → Prop) :
    Except ParseError (α × Cursor) → Except ParseError (α × Cursor) → Prop
  | ok {a d d'} : Q d d' → Outcome Q (.ok (a, d)) (.ok (a, d'))
  | error {e e' : ParseError} : e.isTooDeep = e'.isTooDeep → Outcome Q (.error e) (.error e')

/-- A parser that does the same on two sources from linked positions at the places `P`, and gets to
linked positions at the places `P'`. -/
def Blind (e : Ending) (P P' : Place → Prop) (p : Parse α) : Prop :=
  ∀ ⦃c c'⦄, Cursors e P c c' → Outcome (Cursors e P') (p c) (p c')

open Parse

variable {Q R : Cursor → Cursor → Prop}

namespace Outcome

theorem mono {r r' : Except ParseError (α × Cursor)} (h : Outcome Q r r')
    (hQ : ∀ {d d'}, Q d d' → R d d') : Outcome R r r' := by
  cases h with
  | ok hd => exact .ok (hQ hd)
  | error he => exact .error he

theorem pure {a : α} (h : Q c c') :
    Outcome Q ((Pure.pure a : Parse α) c) ((Pure.pure a : Parse α) c') := .ok h

theorem fail (es : List Expected) :
    Outcome Q ((fail es : Parse α) c) ((Parse.fail es : Parse α) c') := .error rfl

theorem bindOk {p p' : Parse α} {f f' : α → Parse β} (h : Outcome Q (p c) (p' c'))
    (hf : ∀ {a d d'}, p c = .ok (a, d) → p' c' = .ok (a, d') → Q d d' →
      Outcome R (f a d) (f' a d')) : Outcome R ((p >>= f) c) ((p' >>= f') c') := by
  rw [bind_apply, bind_apply]
  generalize hr : p c = r, hr' : p' c' = r' at h
  cases h with
  | ok hd => exact hf hr hr' hd
  | error he => exact .error he

theorem bind {p p' : Parse α} {f f' : α → Parse β} (h : Outcome Q (p c) (p' c'))
    (hf : ∀ {a d d'}, Q d d' → Outcome R (f a d) (f' a d')) :
    Outcome R ((p >>= f) c) ((p' >>= f') c') :=
  h.bindOk fun _ _ hd => hf hd

theorem map {p p' : Parse α} {f : α → β} (h : Outcome Q (p c) (p' c')) :
    Outcome Q ((f <$> p) c) ((f <$> p') c') := by
  rw [map_eq_pure_bind, map_eq_pure_bind]
  exact h.bind fun hd => .ok hd

theorem peekKind {f f' : Kind → Parse β} (hc : Cursors e P c c') (hf : f' .rBrace = f' .comma)
    (h : ∀ k, c.peek.kind = k → Outcome R (f k c) (f' k c')) :
    Outcome R ((peekKind >>= f) c) ((Parse.peekKind >>= f') c') := by
  rw [bind_of_ok (peekKind_apply c), bind_of_ok (peekKind_apply c')]
  obtain hk | ⟨hk, hk', -⟩ := hc.kind
  · rw [← hk]
    exact h _ rfl
  · rw [hk, hk', hf]
    exact h _ hk

theorem check {f f' : Bool → Parse β} (hk : (c.peek.kind == k) = (c'.peek.kind == k))
    (h : Outcome R (f (c.peek.kind == k) c) (f' (c.peek.kind == k) c')) :
    Outcome R ((check k >>= f) c) ((Parse.check k >>= f') c') := by
  rw [bind_of_ok (check_apply k c), bind_of_ok (check_apply k c'), ← hk]
  exact h

theorem ahead {f f' : List Token → Parse β} (h : Outcome R (f c.ahead c) (f' c'.ahead c')) :
    Outcome R ((ahead >>= f) c) ((Parse.ahead >>= f') c') := by
  rw [bind_of_ok (ahead_apply c), bind_of_ok (ahead_apply c')]
  exact h

theorem atEnd {f f' : Bool → Parse β} (hc : Cursors e P c c')
    (h : Outcome R (f c.ahead.isEmpty c) (f' c.ahead.isEmpty c')) :
    Outcome R ((atEnd >>= f) c) ((Parse.atEnd >>= f') c') := by
  rw [bind_of_ok (atEnd_apply c), bind_of_ok (atEnd_apply c'), ← hc.isEmpty]
  exact h

theorem advance {f f' : Token → Parse β} (hc : Cursors e P c c') (hk : c.peek.kind = k)
    (hl : Leads e P k P')
    (h : Cursors e P' c.advance c'.advance →
      Outcome R (f c.peek c.advance) (f' c.peek c'.advance)) :
    Outcome R ((advance >>= f) c) ((Parse.advance >>= f') c') := by
  obtain ⟨ht, hd⟩ := hc.advance (hk ▸ hl)
  rw [bind_of_ok (advance_apply c), bind_of_ok (advance_apply c'), ht]
  exact h hd

/-- A token that is the same in both sources, whatever comes after it. -/
theorem expectSame {f f' : Token → Parse β} (hk : (c.peek.kind == k) = (c'.peek.kind == k))
    (h : c.peek.kind = k →
      c'.peek = c.peek ∧ Outcome R (f c.peek c.advance) (f' c.peek c'.advance)) :
    Outcome R ((expect k >>= f) c) ((Parse.expect k >>= f') c') := by
  have he := expect_apply k c
  have he' := expect_apply k c'
  rw [← hk] at he'
  split at he
  next hb =>
    obtain ⟨ht, hd⟩ := h (eq_of_beq hb)
    rw [if_pos hb, ht] at he'
    rw [bind_of_ok he, bind_of_ok he']
    exact hd
  next hb =>
    rw [if_neg hb] at he'
    rw [bind_of_error he, bind_of_error he']
    exact .error rfl

theorem expect {f f' : Token → Parse β} (hc : Cursors e P c c')
    (hk : (c.peek.kind == k) = (c'.peek.kind == k)) (hl : Leads e P k P')
    (h : Cursors e P' c.advance c'.advance →
      Outcome R (f c.peek c.advance) (f' c.peek c'.advance)) :
    Outcome R ((Parse.expect k >>= f) c) ((Parse.expect k >>= f') c') := by
  refine expectSame hk fun he => ?_
  obtain ⟨ht, hd⟩ := hc.advance (he ▸ hl)
  exact ⟨ht, h hd⟩

/-- A token that is the same in both sources, whatever comes after it, if there is one. -/
theorem eat?Same {f f' : Option Token → Parse β} (hk : (c.peek.kind == k) = (c'.peek.kind == k))
    (yes : c.peek.kind = k →
      c'.peek = c.peek ∧ Outcome R (f (some c.peek) c.advance) (f' (some c.peek) c'.advance))
    (no : Outcome R (f none c) (f' none c')) :
    Outcome R ((eat? k >>= f) c) ((Parse.eat? k >>= f') c') := by
  have he := eat?_apply k c
  have he' := eat?_apply k c'
  rw [← hk] at he'
  split at he
  next hb =>
    obtain ⟨ht, hd⟩ := yes (eq_of_beq hb)
    rw [if_pos hb, ht] at he'
    rw [bind_of_ok he, bind_of_ok he']
    exact hd
  next hb =>
    rw [if_neg hb] at he'
    rw [bind_of_ok he, bind_of_ok he']
    exact no

theorem eat? {f f' : Option Token → Parse β} (hc : Cursors e P c c')
    (hk : (c.peek.kind == k) = (c'.peek.kind == k)) (hl : Leads e P k P')
    (yes : Cursors e P' c.advance c'.advance →
      Outcome R (f (some c.peek) c.advance) (f' (some c.peek) c'.advance))
    (no : Outcome R (f none c) (f' none c')) :
    Outcome R ((Parse.eat? k >>= f) c) ((Parse.eat? k >>= f') c') := by
  refine eat?Same hk (fun he => ?_) no
  obtain ⟨ht, hd⟩ := hc.advance (he ▸ hl)
  exact ⟨ht, yes hd⟩

theorem eat {f f' : Bool → Parse β} (hc : Cursors e P c c')
    (hk : (c.peek.kind == k) = (c'.peek.kind == k)) (hl : Leads e P k P')
    (yes : c.peek.kind = k → Cursors e P' c.advance c'.advance →
      Outcome R (f true c.advance) (f' true c'.advance))
    (no : Outcome R (f false c) (f' false c')) :
    Outcome R ((Parse.eat k >>= f) c) ((Parse.eat k >>= f') c') := by
  by_cases he : c.peek.kind = k
  · have he' : c'.peek.kind = k := eq_of_beq (hk ▸ beq_iff_eq.mpr he)
    rw [bind_of_ok (eat_of_eq he), bind_of_ok (eat_of_eq he')]
    exact yes he (hc.advance (he ▸ hl)).2
  · have he' : c'.peek.kind ≠ k := fun h => he (eq_of_beq (hk ▸ beq_iff_eq.mpr h))
    rw [bind_of_ok (eat_of_ne he), bind_of_ok (eat_of_ne he')]
    exact no

theorem after {p : Parse α} {f : Option α → Parse β} (hc : Cursors e P c c')
    (hk : (c.peek.kind == k) = (c'.peek.kind == k)) (hl : Leads e P k P')
    (h : Cursors e P' c.advance c'.advance → Outcome Q (p c.advance) (p c'.advance))
    (none : Q c c') (hf : ∀ {o d d'}, Q d d' → Outcome R (f o d) (f o d')) :
    Outcome R ((Parse.eat k >>= fun b =>
        if b then some <$> p >>= f else Pure.pure Option.none >>= f) c)
      ((Parse.eat k >>= fun b =>
        if b then some <$> p >>= f else Pure.pure Option.none >>= f) c') :=
  .eat hc hk hl (fun _ hd => .bind (.map (h hd)) hf) (hf none)

theorem before {p : Parse α} {f : Option α → Parse β}
    (hk : (c.peek.kind == k) = (c'.peek.kind == k))
    (h : Outcome Q (p c) (p c')) (none : Q c c')
    (hf : ∀ {o d d'}, Q d d' → Outcome R (f o d) (f o d')) :
    Outcome R ((Parse.check k >>= fun b =>
        if b then Pure.pure Option.none >>= f else some <$> p >>= f) c)
      ((Parse.check k >>= fun b =>
        if b then Pure.pure Option.none >>= f else some <$> p >>= f) c') := by
  refine .check hk ?_
  split
  · exact hf none
  · exact .bind (.map h) hf

theorem either {p q : Parse α} (hp : Outcome Q (p c) (p c')) (hq : Outcome Q (q c) (q c')) :
    Outcome Q (either p q c) (Parse.either p q c') := by
  rw [Parse.either, Parse.either]
  generalize p c = r, p c' = r' at hp
  generalize q c = u, q c' = u' at hq
  cases hp with
  | ok hd => exact .ok hd
  | error he =>
    simp only [← he]
    split
    · exact .error he
    next hn =>
      cases hq with
      | ok hd => exact .ok hd
      | error he' =>
        refine .error ?_
        rw [ParseError.isTooDeep_furthest hn, ParseError.isTooDeep_furthest (he ▸ hn), he']

end Outcome

/-- A step of a repetition that takes a token whenever it goes on. -/
def Takes (step : Parse (Option α)) : Prop :=
  ∀ ⦃c a d⦄, c.Ended → step c = .ok (some a, d) → d.ahead.length < c.ahead.length

theorem Takes.of_reads {step : Parse (Option α)} {D : List Token → α → Prop}
    (h : Reads step (StepReads D)) (hD : ∀ xs a, D xs a → xs ≠ []) : Takes step := by
  intro c a d hc hr
  obtain ⟨xs, p, hx⟩ := h hc hr
  exact p.length_lt (hD xs a hx)

abbrev Passing (p : Parse α) : Prop := Reads p fun _ _ => True

namespace Passing

theorem of_reads {p : Parse α} {D : List Token → α → Prop} (h : Reads p D) : Passing p :=
  h.mono fun _ _ _ => trivial

theorem pure (a : α) : Passing (Pure.pure a : Parse α) := by
  intro c b d _ h
  cases h
  exact ⟨[], .refl c, trivial⟩

theorem bind {p : Parse α} {f : α → Parse β} (hp : Passing p) (hf : ∀ a, Passing (f a)) :
    Passing (p >>= f) := by
  intro c b d hc h
  obtain ⟨a, c₁, h₁, h⟩ := bind_ok h
  obtain ⟨xs, p₁, -⟩ := hp hc h₁
  obtain ⟨ys, p₂, -⟩ := hf a (p₁.ended hc) h
  exact ⟨xs ++ ys, p₁.trans p₂, trivial⟩

theorem expect (hk : k ≠ .eof) : Passing (expect k) :=
  fun _ t _ hc h => ⟨[t], (expect_ok h hc hk).2, trivial⟩

end Passing

theorem length_lt_of_advance {f : Token → Parse β} {b : β} (hc : c.Ended) (hk : c.peek.kind ≠ .eof)
    (hf : ∀ t, Passing (f t)) (h : (advance >>= f) c = .ok (b, d)) :
    d.ahead.length < c.ahead.length := by
  rw [bind_of_ok (advance_apply c)] at h
  have p := Cursor.Passes.of_advance hc hk
  exact Nat.lt_of_le_of_lt ((hf _).length_le (p.ended hc) h) (hc.advance_lt hk)

theorem Takes.of_item {step : Parse (Option Node)} {item : Parse Node} {ph : Phrase}
    (hi : ReadsAs item ph)
    (hs : ∀ c a d, step c = .ok (some a, d) → item c = .ok (a, d)) : Takes step := by
  intro c a d hc h
  obtain ⟨xs, p, hx⟩ := hi hc (hs c a d h)
  exact p.length_lt hx.ne_nil

namespace Blind

theorem many {step : Parse (Option α)} (ht : Takes step) (h : Blind e P P step) :
    Blind e P P (many step) := by
  have loop (n : Nat) : ∀ {m c c'}, c.ahead.length < n → c'.ahead.length < m → Cursors e P c c' →
      Outcome (Cursors e P) (manyUpTo step n c) (manyUpTo step m c') := by
    induction n with
    | zero => exact fun hn => absurd hn (Nat.not_lt_zero _)
    | succ n ih =>
      intro m c c' hn hm hc
      obtain _ | m := m
      · exact absurd hm (Nat.not_lt_zero _)
      refine .bindOk (h hc) fun {o d d'} hs hs' hd => ?_
      cases o with
      | none => exact .pure hd
      | some a =>
        have hn' := Nat.lt_of_lt_of_le (ht hc.ended hs) (Nat.le_of_lt_succ hn)
        have hm' := Nat.lt_of_lt_of_le (ht hc.ended' hs') (Nat.le_of_lt_succ hm)
        exact .bind (ih hn' hm' hd) fun hd => .pure hd
  intro c c' hc
  exact .ahead (loop _ (Nat.lt_succ_self _) (Nat.lt_succ_self _) hc)

theorem iterate {step : σ → Parse (Option σ)} (ht : ∀ s, Takes (step s))
    (h : ∀ s, Blind e P P (step s)) (s : σ) : Blind e P P (iterate step s) := by
  have loop (n : Nat) : ∀ {m s c c'}, c.ahead.length < n → c'.ahead.length < m →
      Cursors e P c c' →
      Outcome (Cursors e P) (iterateUpTo step n s c) (iterateUpTo step m s c') := by
    induction n with
    | zero => exact fun hn => absurd hn (Nat.not_lt_zero _)
    | succ n ih =>
      intro m s c c' hn hm hc
      obtain _ | m := m
      · exact absurd hm (Nat.not_lt_zero _)
      refine .bindOk (h s hc) fun {o d d'} hs hs' hd => ?_
      cases o with
      | none => exact .pure hd
      | some a =>
        have hn' := Nat.lt_of_lt_of_le (ht s hc.ended hs) (Nat.le_of_lt_succ hn)
        have hm' := Nat.lt_of_lt_of_le (ht s hc.ended' hs') (Nat.le_of_lt_succ hm)
        exact ih hn' hm' hd
  intro c c' hc
  exact .ahead (loop _ (Nat.lt_succ_self _) (Nat.lt_succ_self _) hc)

variable {item : Parse Node} {ph : Phrase}

theorem manyUntil (hi : ReadsAs item ph) (h : Blind e P P item)
    (hP : ∀ s, ¬ P ⟨.list :: s, .block⟩) (close : Kind) :
    Blind e P P (manyUntil close item) := by
  refine many (.of_item hi fun c a d hr => ?_) fun c c' hc => ?_
  · obtain ⟨b, c₁, h₁, hr⟩ := bind_ok hr
    cases h₁
    obtain ⟨b, c₁, h₁, hr⟩ := bind_ok hr
    cases h₁
    split at hr
    · cases hr
    · obtain ⟨n, c₁, h₁, hr⟩ := bind_ok hr
      cases hr
      exact h₁
  · refine .check (by rw [hc.kind_eq hP]) (.atEnd hc ?_)
    split
    · exact .pure hc
    · exact .bind (h hc) fun hd => .pure hd

theorem commaItems (hi : ReadsAs item ph) (hs : s.head? ≠ some .list)
    (h : Blind e (Free s) (Free s) item) : Blind e (Free s) (Free s) (commaItems item) := by
  refine many (fun c a d hc hr => ?_) fun c c' hc => ?_
  · obtain ⟨b, c₁, h₁, hr⟩ := bind_ok hr
    obtain ⟨rfl, t, ht, p₁⟩ | ⟨rfl, rfl, -⟩ := eat_ok h₁ hc (by decide)
    · obtain ⟨n, c₂, h₂, hr⟩ := bind_ok hr
      obtain ⟨ys, p₂, hn⟩ := hi (p₁.ended hc) h₂
      cases hr
      exact (p₁.trans p₂).length_lt (List.cons_ne_nil _ _)
    · cases hr
  · have hk : c.peek.kind = c'.peek.kind := hc.kind_eq (free_not_list hs)
    refine .eat hc (by rw [hk]) (.comma hs) (fun _ hd => ?_) (.pure hc)
    exact .bind (h hd.free_list) fun hd => .pure hd

theorem commaList (hi : ReadsAs item ph) (hs : s.head? ≠ some .list)
    (h : Blind e (Free s) (Free s) item) : Blind e (Free s) (Free s) (commaList item) :=
  fun _ _ hc => .bind (h hc) fun hd => .bind (commaItems hi hs h hd) fun hd => .pure hd

theorem eat? (hk : k.isInner = true) : Blind e (Free s) (Free s) (eat? k) := by
  intro c c' hc
  have hn : k ∉ [Kind.comma, .rBrace] := by
    intro hm
    simp only [List.mem_cons, List.not_mem_nil, or_false] at hm
    obtain rfl | rfl := hm <;> cases hk
  have lead : Leads e (Free s) k (At s .block) := .inner hk
  rw [eat?_apply, eat?_apply, ← hc.sees hn]
  split
  next hb =>
    obtain ⟨ht, hd⟩ := hc.advance (eq_of_beq hb ▸ lead)
    rw [ht]
    exact .ok hd.free
  next => exact .ok hc

theorem strings : Blind e (Free s) (Free s) strings := by
  have takes : Takes (Parse.eat? .stringLiteral) := by
    intro c a d hc h
    obtain ⟨p, -, -⟩ := eat?_ok h hc (by decide)
    exact p.length_lt (List.cons_ne_nil _ _)
  intro c c' hc
  refine .expect hc (hc.sees (by decide)) (.inner rfl) fun hd => ?_
  exact .bind (many takes (eat? rfl) hd.free) fun hd => .pure hd

/-- Items that do not stand in a list, where no comma can be left out. -/
theorem separatedItems (hi : ReadsAs item ph) (hs : s.head? ≠ some .list)
    (h : Blind e (At s .list) (Free s) item) :
    Blind e (At s .list) (Free s) (bracedItems item) := by
  have loop (n : Nat) : ∀ {m c c'}, c.ahead.length < n → c'.ahead.length < m →
      Cursors e (At s .list) c c' →
      Outcome (Cursors e (Free s)) (bracedItemsUpTo item n c) (bracedItemsUpTo item m c') := by
    induction n with
    | zero => exact fun hn => absurd hn (Nat.not_lt_zero _)
    | succ n ih =>
      intro m c c' hn hm hc
      obtain _ | m := m
      · exact absurd hm (Nat.not_lt_zero _)
      refine .check (by rw [hc.kind_eq fun _ h => by cases h]) ?_
      split
      · exact .ok hc.free_list
      refine .bindOk (h hc) fun {a d d'} hr hr' hd => ?_
      have hn' := Nat.lt_of_le_of_lt (hi.length_le hc.ended hr) hn
      have hm' := Nat.lt_of_le_of_lt (hi.length_le hc.ended' hr') hm
      have hk : d.peek.kind = d'.peek.kind := hd.kind_eq (free_not_list hs)
      refine .eat hd (by rw [hk]) (.comma hs) (fun he hd' => ?_) (.pure hd)
      obtain ⟨hl, hl'⟩ := hd.advance_lt he (.comma hs)
      exact .bind (ih (Nat.lt_of_lt_of_le hl (Nat.le_of_lt_succ hn'))
        (Nat.lt_of_lt_of_le hl' (Nat.le_of_lt_succ hm')) hd') fun hd => .pure hd
  exact fun _ _ hc => .ahead (loop _ (Nat.lt_succ_self _) (Nat.lt_succ_self _) hc)

/-- The items of a list. Both runs then stand before the same kind of token. -/
theorem bracedItems (hi : ReadsAs item ph)
    (h : Blind e (At (.list :: s) .list) (Free (.list :: s)) item)
    (hc : Cursors e (At (.list :: s) .list) c c') :
    Outcome (fun d d' => Cursors e (Free (.list :: s)) d d' ∧ d.peek.kind = d'.peek.kind)
      (bracedItems item c) (Parse.bracedItems item c') := by
  have loop (n : Nat) : ∀ {m c c'}, c.ahead.length < n → c'.ahead.length < m →
      Cursors e (At (.list :: s) .list) c c' →
      Outcome (fun d d' => Cursors e (Free (.list :: s)) d d' ∧ d.peek.kind = d'.peek.kind)
        (bracedItemsUpTo item n c) (bracedItemsUpTo item m c') := by
    induction n with
    | zero => exact fun hn => absurd hn (Nat.not_lt_zero _)
    | succ n ih =>
      intro m c c' hn hm hc
      obtain _ | m := m
      · exact absurd hm (Nat.not_lt_zero _)
      have hk : c.peek.kind = c'.peek.kind := hc.kind_eq fun _ h => by cases h
      rw [bracedItemsUpTo, bracedItemsUpTo]
      refine .check (by rw [hk]) ?_
      split
      · exact .ok ⟨hc.free_list, hk⟩
      refine .bindOk (h hc) fun {a d d'} hs hs' hd => ?_
      have hn' := Nat.lt_of_le_of_lt (hi.length_le hc.ended hs) hn
      have hm' := Nat.lt_of_le_of_lt (hi.length_le hc.ended' hs') hm
      obtain ⟨hk, hk', hd'⟩ | ⟨hk, hk', hr, hd'⟩ | ⟨hk, hk'⟩ := hd.afterItem
      · rw [bind_of_ok (eat_of_eq hk), bind_of_ok (eat_of_eq hk')]
        have hl := hd.ended.advance_lt (by rw [hk]; decide)
        have hl' := hd.ended'.advance_lt (by rw [hk']; decide)
        have rest := ih (Nat.lt_of_lt_of_le hl (Nat.le_of_lt_succ hn'))
          (Nat.lt_of_lt_of_le hl' (Nat.le_of_lt_succ hm')) hd'
        exact .bind rest fun hd => .pure hd
      · rw [bind_of_ok (eat_of_eq hk), bind_of_ok (eat_of_ne (by rw [hk']; decide))]
        have hl := hd.ended.advance_lt (by rw [hk]; decide)
        obtain _ | n := n
        · exact absurd hl (by omega)
        have stop : bracedItemsUpTo item (n + 1) d.advance = .ok ([], d.advance) := by
          rw [bracedItemsUpTo, bind_of_ok (check_apply _ _), hr]
          rfl
        rw [if_pos rfl, bind_of_ok stop]
        exact .ok ⟨hd'.free, by rw [hr, hk']⟩
      · rw [bind_of_ok (eat_of_ne hk), bind_of_ok (eat_of_ne (hk' ▸ hk))]
        exact .ok ⟨hd, hk'⟩
  exact .ahead (loop _ (Nat.lt_succ_self _) (Nat.lt_succ_self _) hc)

end Blind

theorem Outcome.commasBefore {item : Parse Node} {ph : Phrase} {f : List Node → Parse β}
    (hi : ReadsAs item ph) (hs : s.head? ≠ some .list) (h : Blind e (Free s) (Free s) item)
    (hk : (c.peek.kind == k) = (c'.peek.kind == k)) (hc : Cursors e (Free s) c c')
    (hf : ∀ {ns d d'}, Cursors e (Free s) d d' → Outcome R (f ns d) (f ns d')) :
    Outcome R ((Parse.check k >>= fun b =>
        if b then Pure.pure [] >>= f else Parse.commaList item >>= f) c)
      ((Parse.check k >>= fun b =>
        if b then Pure.pure [] >>= f else Parse.commaList item >>= f) c') := by
  refine .check hk ?_
  split
  · exact hf hc
  · exact .bind (Blind.commaList hi hs h hc) hf

theorem Outcome.list {item : Parse Node} {ph : Phrase} {f : List Node → Token → Parse β}
    (hi : ReadsAs item ph) (h : Blind e (At (.list :: s) .list) (Free (.list :: s)) item)
    (hc : Cursors e (At (.list :: s) .list) c c')
    (hf : ∀ {ns t d d'}, Cursors e (At s .block) d d' → Outcome R (f ns t d) (f ns t d')) :
    Outcome R ((Parse.bracedItems item >>= fun ns => Parse.expect .rBrace >>= f ns) c)
      ((Parse.bracedItems item >>= fun ns => Parse.expect .rBrace >>= f ns) c') :=
  .bind (Blind.bracedItems hi h hc) fun hd => .expect hd.1 (by rw [hd.2]) .closeList hf

end Linked
end CPretty
