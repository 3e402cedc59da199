import CPretty.Grammar.SourceFile
import CPretty.Proofs.Parse.Steps

namespace CPretty

variable {α β σ : Type} {a : α} {c d : Cursor} {k : Kind} {t : Token} {xs ys : List Token}
  {Q : α → Cursor → Prop} {R : β → Cursor → Prop} {r : Except ParseError (α × Cursor)}

namespace Cursor

/-- The position with further tokens ahead of those that are left. -/
def before (xs : List Token) (c : Cursor) : Cursor := ⟨xs ++ c.ahead, c.finish⟩

@[simp] theorem before_nil (c : Cursor) : c.before [] = c := rfl

@[simp] theorem before_append (xs ys : List Token) (c : Cursor) :
    c.before (xs ++ ys) = (c.before ys).before xs := by
  simp [before]

@[simp] theorem peek_before_cons (t : Token) (xs : List Token) (c : Cursor) :
    (c.before (t :: xs)).peek = t := rfl

@[simp] theorem advance_before_cons (t : Token) (xs : List Token) (c : Cursor) :
    (c.before (t :: xs)).advance = c.before xs := rfl

@[simp] theorem ahead_before (xs : List Token) (c : Cursor) :
    (c.before xs).ahead = xs ++ c.ahead := rfl

end Cursor

namespace Parse

theorem iterateUpTo_of_none {step : σ → Parse (Option σ)} {s : σ} (h : step s c = .ok (none, c))
    (m : Nat) : iterateUpTo step m s c = .ok (s, c) := by
  cases m with
  | zero => rfl
  | succ m => exact bind_of_ok h

theorem manyUpTo_of_none {step : Parse (Option α)} (h : step c = .ok (none, c)) (m : Nat) :
    manyUpTo step m c = .ok ([], c) := by
  cases m with
  | zero => rfl
  | succ m => exact bind_of_ok h

theorem many_of_none {step : Parse (Option α)} (h : step c = .ok (none, c)) :
    many step c = .ok ([], c) :=
  manyUpTo_of_none h _

end Parse

/-- The run succeeds with a result as described, unless it stops because the nesting is too deep. -/
def Completes (r : Except ParseError (α × Cursor)) (Q : α → Cursor → Prop) : Prop :=
  (∃ e, r = .error e ∧ e.isTooDeep = true) ∨ ∃ a d, r = .ok (a, d) ∧ Q a d

namespace Completes

open Parse

theorem ok (h : Q a d) : Completes (.ok (a, d)) Q := .inr ⟨a, d, rfl, h⟩

theorem pure (h : Q a c) : Completes ((Pure.pure a : Parse α) c) Q := ok h

theorem tooDeep {e : ParseError} (h : e.isTooDeep = true) : Completes (.error e) Q :=
  .inl ⟨e, rfl, h⟩

theorem imp {Q' : α → Cursor → Prop} (h : Completes r Q) (hq : ∀ a d, Q a d → Q' a d) :
    Completes r Q' :=
  Or.imp id (fun ⟨a, d, hr, ha⟩ => ⟨a, d, hr, hq a d ha⟩) h

theorem bind {p : Parse α} {f : α → Parse β} (h : Completes (p c) Q)
    (hf : ∀ a d, Q a d → Completes (f a d) R) : Completes ((p >>= f) c) R := by
  obtain ⟨e, hp, he⟩ | ⟨a, d, hp, ha⟩ := h
  · rw [bind_of_error hp]
    exact tooDeep he
  · rw [bind_of_ok hp]
    exact hf a d ha

theorem map {p : Parse α} {f : α → β} (h : Completes (p c) Q) (hf : ∀ a d, Q a d → R (f a) d) :
    Completes ((f <$> p) c) R := by
  rw [map_eq_pure_bind]
  exact h.bind fun a d ha => ok (hf a d ha)

theorem either {p q : Parse α} (h : Completes (p c) Q) : Completes (Parse.either p q c) Q := by
  obtain ⟨e, hp, he⟩ | ⟨a, d, hp, ha⟩ := h
  · rw [Parse.either, hp]
    simp only [he, if_true]
    exact tooDeep he
  · rw [Parse.either, hp]
    exact ok ha

variable {f : Kind → Parse β} {g : Token → Parse β} {b : Bool → Parse β}

theorem peekKind (hk : c.peek.kind = k) (h : Completes (f k c) R) :
    Completes ((Parse.peekKind >>= f) c) R := by
  rw [bind_of_ok (peekKind_apply c), hk]
  exact h

theorem advance (h : Completes (g t (c.before xs)) R) :
    Completes ((Parse.advance >>= g) (c.before (t :: xs))) R := h

theorem check (h : Completes (b (c.peek.kind == k) c) R) :
    Completes ((Parse.check k >>= b) c) R := h

theorem atEnd (h : Completes (b c.ahead.isEmpty c) R) : Completes ((Parse.atEnd >>= b) c) R := h

theorem ahead {l : List Token → Parse β} (h : Completes (l c.ahead c) R) :
    Completes ((Parse.ahead >>= l) c) R := h

theorem expect (ht : t.kind = k) (h : Completes (g t (c.before xs)) R) :
    Completes ((Parse.expect k >>= g) (c.before (t :: xs))) R := by
  rw [bind_of_ok (a := t) (d := c.before xs) (by simp [expect_apply, ht])]
  exact h

theorem eat (ht : t.kind = k) (h : Completes (b true (c.before xs)) R) :
    Completes ((Parse.eat k >>= b) (c.before (t :: xs))) R := by
  rw [bind_of_ok (eat_of_eq (c := c.before (t :: xs)) ht)]
  exact h

theorem eat_none (hk : c.peek.kind ≠ k) (h : Completes (b false c) R) :
    Completes ((Parse.eat k >>= b) c) R := by
  rw [bind_of_ok (eat_of_ne hk)]
  exact h

variable {s : σ} {m : Nat}

theorem iterateUpTo_some {step : σ → Parse (Option σ)} {S : σ → Cursor → Prop} (hm : 0 < m)
    (h : Completes (step s c) fun o d =>
      ∃ s', o = some s' ∧ Completes (iterateUpTo step (m - 1) s' d) S) :
    Completes (iterateUpTo step m s c) S := by
  obtain ⟨m, rfl⟩ := Nat.exists_eq_add_one_of_ne_zero (Nat.ne_of_gt hm)
  refine h.bind ?_
  rintro _ d ⟨s', rfl, hs⟩
  exact hs

theorem manyUpTo_some {step : Parse (Option α)} {S : List α → Cursor → Prop} (hm : 0 < m)
    (h : Completes (step c) fun o d => ∃ a, o = some a ∧
      Completes (manyUpTo step (m - 1) d) fun as e => S (a :: as) e) :
    Completes (manyUpTo step m c) S := by
  obtain ⟨m, rfl⟩ := Nat.exists_eq_add_one_of_ne_zero (Nat.ne_of_gt hm)
  refine h.bind ?_
  rintro _ d ⟨a, rfl, hs⟩
  exact hs.bind fun as e hs => ok hs

theorem many {step : Parse (Option α)} {S : List α → Cursor → Prop}
    (h : Completes (manyUpTo step (c.ahead.length + 1) c) S) : Completes (many step c) S := h

end Completes

end CPretty
