import CPretty.Grammar.Lookahead
import CPretty.Parse.Basic

namespace CPretty

variable {α β : Type} {a : α} {b : β} {c d e : Cursor} {k : Kind} {t : Token} {xs ys : List Token}

/-- The cursor stands before a list of tokens that is closed by the end marker. -/
def Cursor.Ended (c : Cursor) : Prop := c.finish.kind = .eof

/-- The tokens `xs` stand between two cursors. -/
structure Cursor.Passes (c : Cursor) (xs : List Token) (d : Cursor) : Prop where
  ahead : c.ahead = xs ++ d.ahead
  finish : d.finish = c.finish

namespace Cursor.Passes

protected theorem refl (c : Cursor) : c.Passes [] c := ⟨rfl, rfl⟩

theorem trans (h : c.Passes xs d) (k : d.Passes ys e) : c.Passes (xs ++ ys) e := by
  refine ⟨?_, k.finish.trans h.finish⟩
  rw [h.ahead, k.ahead, List.append_assoc]

theorem ended (h : c.Passes xs d) (hc : c.Ended) : d.Ended := by
  rw [Cursor.Ended, h.finish]
  exact hc

theorem eq_nil (h : c.Passes xs c) : xs = [] :=
  List.self_eq_append_left.mp h.ahead

theorem unique (h : c.Passes xs d) (k : c.Passes ys d) : xs = ys :=
  List.append_cancel_right (h.ahead.symm.trans k.ahead)

theorem length_le (h : c.Passes xs d) : d.ahead.length ≤ c.ahead.length := by
  rw [h.ahead, List.length_append]
  omega

theorem length_lt (h : c.Passes xs d) (hx : xs ≠ []) : d.ahead.length < c.ahead.length := by
  have := List.length_pos_iff.mpr hx
  rw [h.ahead, List.length_append]
  omega

theorem of_advance (hc : c.Ended) (hk : c.peek.kind ≠ .eof) : c.Passes [c.peek] c.advance := by
  obtain ⟨ahead, finish⟩ := c
  cases ahead with
  | nil => exact absurd hc hk
  | cons t ts => exact ⟨rfl, rfl⟩

end Cursor.Passes

theorem Kind.ne_eof_of_is {g : Category} (h : k.is g = true) : k ≠ .eof := by
  rintro rfl
  cases g <;> cases h

namespace Parse

theorem bind_apply (p : Parse α) (f : α → Parse β) (c : Cursor) :
    (p >>= f) c = (p c).bind fun r => f r.1 r.2 := rfl

theorem bind_of_ok {p : Parse α} {f : α → Parse β} (h : p c = .ok (a, d)) :
    (p >>= f) c = f a d := by
  rw [bind_apply, h]
  rfl

theorem bind_of_error {p : Parse α} {f : α → Parse β} {e : ParseError} (h : p c = .error e) :
    (p >>= f) c = .error e := by
  rw [bind_apply, h]
  rfl

theorem bind_ok {p : Parse α} {f : α → Parse β} {r : β × Cursor} (h : (p >>= f) c = .ok r) :
    ∃ a d, p c = .ok (a, d) ∧ f a d = .ok r := by
  cases hp : p c with
  | error e => rw [bind_of_error hp] at h; cases h
  | ok s => exact ⟨s.1, s.2, rfl, by rwa [bind_of_ok hp] at h⟩

theorem pure_ok {a a' : α} (h : (pure a : Parse α) c = .ok (a', d)) : a' = a ∧ d = c := by
  cases h
  exact ⟨rfl, rfl⟩

theorem map_ok {p : Parse α} {f : α → β} (h : (f <$> p) c = .ok (b, d)) :
    ∃ a, p c = .ok (a, d) ∧ b = f a := by
  rw [map_eq_pure_bind] at h
  obtain ⟨a, e, hp, h⟩ := bind_ok h
  obtain ⟨rfl, rfl⟩ := pure_ok h
  exact ⟨a, hp, rfl⟩

@[simp] theorem pure_apply (a : α) (c : Cursor) : (pure a : Parse α) c = .ok (a, c) := rfl

@[simp] theorem peek_apply (c : Cursor) : peek c = .ok (c.peek, c) := rfl

@[simp] theorem peekKind_apply (c : Cursor) : peekKind c = .ok (c.peek.kind, c) := rfl

@[simp] theorem ahead_apply (c : Cursor) : ahead c = .ok (c.ahead, c) := rfl

@[simp] theorem atEnd_apply (c : Cursor) : atEnd c = .ok (c.ahead.isEmpty, c) := rfl

@[simp] theorem advance_apply (c : Cursor) : advance c = .ok (c.peek, c.advance) := rfl

@[simp] theorem check_apply (k : Kind) (c : Cursor) : check k c = .ok (c.peek.kind == k, c) := rfl

@[simp] theorem fail_apply (es : List Expected) (c : Cursor) :
    (fail es : Parse α) c = .error (c.failure es) := rfl

theorem eat?_apply (k : Kind) (c : Cursor) :
    eat? k c = if c.peek.kind == k then .ok (some c.peek, c.advance) else .ok (none, c) := by
  rw [eat?, bind_of_ok (check_apply k c)]
  split <;> rfl

theorem eat_apply (k : Kind) (c : Cursor) :
    eat k c = if c.peek.kind == k then .ok (true, c.advance) else .ok (false, c) := by
  have h := eat?_apply k c
  split at h <;> rw [eat, bind_of_ok h] <;> simp_all

theorem eat_of_eq (h : c.peek.kind = k) : eat k c = .ok (true, c.advance) := by
  rw [eat_apply, if_pos (beq_iff_eq.mpr h)]

theorem eat_of_ne (h : c.peek.kind ≠ k) : eat k c = .ok (false, c) := by
  rw [eat_apply, if_neg fun hb => h (eq_of_beq hb)]

theorem expect_apply (k : Kind) (c : Cursor) :
    expect k c = if c.peek.kind == k then .ok (c.peek, c.advance)
      else .error (c.failure [.token k]) := by
  rw [expect, bind_of_ok (check_apply k c)]
  split <;> rfl

theorem advance_ok (h : advance c = .ok (t, d)) (hc : c.Ended) (hk : c.peek.kind ≠ .eof) :
    t = c.peek ∧ c.Passes [t] d := by
  cases h
  exact ⟨rfl, .of_advance hc hk⟩

theorem advance_of_kind (h : advance c = .ok (t, d)) (hc : c.Ended) (hk : c.peek.kind = k)
    (hne : k ≠ .eof) : t.kind = k ∧ c.Passes [t] d := by
  obtain ⟨rfl, p⟩ := advance_ok h hc (by rwa [hk])
  exact ⟨hk, p⟩

theorem advance_of_is {g : Category} (h : advance c = .ok (t, d)) (hc : c.Ended)
    (hk : c.peek.kind.is g = true) : t.kind.is g = true ∧ c.Passes [t] d := by
  obtain ⟨rfl, p⟩ := advance_ok h hc (Kind.ne_eof_of_is hk)
  exact ⟨hk, p⟩

theorem expect_ok (h : expect k c = .ok (t, d)) (hc : c.Ended) (hk : k ≠ .eof) :
    t.kind = k ∧ c.Passes [t] d := by
  rw [expect_apply] at h
  split at h
  · cases h
    simp_all [Cursor.Passes.of_advance]
  · cases h

theorem eat?_ok {o : Option Token} (h : eat? k c = .ok (o, d)) (hc : c.Ended) (hk : k ≠ .eof) :
    c.Passes o.toList d ∧ (∀ t ∈ o, t.kind = k) ∧ (o = none → c.peek.kind ≠ k) := by
  rw [eat?_apply] at h
  split at h
  · cases h
    simp_all [Cursor.Passes.of_advance]
  · cases h
    simp_all [Cursor.Passes.refl]

theorem eat_ok {b : Bool} (h : eat k c = .ok (b, d)) (hc : c.Ended) (hk : k ≠ .eof) :
    (b = true ∧ ∃ t, t.kind = k ∧ c.Passes [t] d) ∨ (b = false ∧ c = d ∧ c.peek.kind ≠ k) := by
  rw [eat_apply] at h
  split at h
  · cases h
    exact .inl ⟨rfl, c.peek, by simp_all [Cursor.Passes.of_advance]⟩
  · cases h
    simp_all

end Parse

theorem Lookahead.peek_of_startsNestedAbstract (h : startsNestedAbstract c.ahead = true) :
    c.peek.kind = .lParen := by
  obtain ⟨_ | ⟨a, _ | ⟨b, ts⟩⟩, finish⟩ := c
  · cases h
  · cases h
  · simp only [startsNestedAbstract, Bool.and_eq_true, beq_iff_eq] at h
    exact h.1

/-- Every successful run of a parser passes tokens that stand in the relation `D` to its value. -/
def Reads (p : Parse α) (D : List Token → α → Prop) : Prop :=
  ∀ ⦃c a d⦄, c.Ended → p c = .ok (a, d) → ∃ xs, c.Passes xs d ∧ D xs a

end CPretty
