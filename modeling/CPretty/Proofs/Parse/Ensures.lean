import CPretty.Proofs.Grammar.Repetition

namespace CPretty

open Parse

variable {α β σ : Type} {b c d e : Cursor} {a : α} {k : Kind} {t : Token}
  {D : List Token → α → Prop} {E : α → Cursor → Prop} {F : β → Cursor → Prop}

/-- The tokens between two cursors stand in the relation `D` to a value. -/
structure Between (D : List Token → α → Prop) (c : Cursor) (a : α) (d : Cursor) : Prop where
  ended : c.Ended
  tokens : ∃ xs, c.Passes xs d ∧ D xs a

abbrev Eats (c : Cursor) (t : Token) (d : Cursor) : Prop := Between (fun xs t => xs = [t]) c t d

namespace Between

theorem after (h : Between D c a d) : d.Ended := by
  obtain ⟨hc, xs, p, -⟩ := h
  exact p.ended hc

theorem mono {D' : List Token → β → Prop} {a' : β} (h : Between D c a d)
    (hD : ∀ {xs}, D xs a → D' xs a') : Between D' c a' d := by
  obtain ⟨hc, xs, p, hx⟩ := h
  exact ⟨hc, xs, p, hD hx⟩

theorem trans {D₁ : List Token → β → Prop} {D₂ : List Token → σ → Prop} {a₁ : β} {a₂ : σ}
    (h₁ : Between D₁ c a₁ d) (h₂ : Between D₂ d a₂ e)
    (hD : ∀ {xs ys}, D₁ xs a₁ → D₂ ys a₂ → D (xs ++ ys) a) : Between D c a e := by
  obtain ⟨hc, xs, p, hx⟩ := h₁
  obtain ⟨-, ys, q, hy⟩ := h₂
  exact ⟨hc, xs ++ ys, p.trans q, hD hx hy⟩

theorem refl (hc : c.Ended) (h : D [] a) : Between D c a c := ⟨hc, [], .refl c, h⟩

end Between

theorem Eats.of_passes (hc : c.Ended) (p : c.Passes [t] d) : Eats c t d := ⟨hc, [t], p, rfl⟩

/-- A successful run ends with a value and at a cursor in the relation `E`. -/
def Ensures (E : α → Cursor → Prop) (r : Except ParseError (α × Cursor)) : Prop :=
  ∀ ⦃a d⦄, r = .ok (a, d) → E a d

theorem Reads.run {p : Parse α} (h : Reads p D) (hc : c.Ended) : Ensures (Between D c) (p c) :=
  fun _ _ hp => ⟨hc, h hc hp⟩

theorem Reads.of_run {p : Parse α} (h : ∀ {c}, c.Ended → Ensures (Between D c) (p c)) :
    Reads p D :=
  fun _ _ _ hc hp => (h hc hp).tokens

namespace Ensures

theorem pure (h : E a c) : Ensures E ((Pure.pure a : Parse α) c) := by
  rintro a d ⟨⟩
  exact h

theorem fail (es : List Expected) : Ensures E ((Parse.fail es : Parse α) c) := by
  rintro a d ⟨⟩

theorem bind {p : Parse α} {f : α → Parse β} (h : Ensures E (p c))
    (hf : ∀ {a d}, E a d → Ensures F (f a d)) : Ensures F ((p >>= f) c) := by
  intro b e hr
  obtain ⟨a, d, ha, hr⟩ := bind_ok hr
  exact hf (h ha) hr

theorem bind_map {γ : Type} {p : Parse α} {g : α → γ} {f : γ → Parse β} (h : Ensures E (p c))
    (hf : ∀ {a d}, E a d → Ensures F (f (g a) d)) : Ensures F ((g <$> p >>= f) c) := by
  intro b e hr
  obtain ⟨x, d, hx, hr⟩ := bind_ok hr
  obtain ⟨a, ha, rfl⟩ := map_ok hx
  exact hf (h ha) hr

theorem peekKind {f : Kind → Parse α} (h : ∀ k, c.peek.kind = k → Ensures E (f k c)) :
    Ensures E ((peekKind >>= f) c) := by
  rw [bind_of_ok (peekKind_apply c)]
  exact h _ rfl

theorem check {f : Bool → Parse α} (h : Ensures E (f (c.peek.kind == k) c)) :
    Ensures E ((check k >>= f) c) := by
  rwa [bind_of_ok (check_apply k c)]

theorem ahead {f : List Token → Parse α} (h : Ensures E (f c.ahead c)) :
    Ensures E ((ahead >>= f) c) := by
  rwa [bind_of_ok (ahead_apply c)]

theorem atEnd {f : Bool → Parse α} (h : Ensures E (f c.ahead.isEmpty c)) :
    Ensures E ((atEnd >>= f) c) := by
  rwa [bind_of_ok (atEnd_apply c)]

theorem advance {f : Token → Parse α} (hc : c.Ended) (hk : c.peek.kind ≠ .eof)
    (h : ∀ {t d}, Eats c t d → Ensures E (f t d)) : Ensures E ((advance >>= f) c) := by
  rw [bind_of_ok (advance_apply c)]
  exact h (.of_passes hc (.of_advance hc hk))

theorem expect {f : Token → Parse α} (hc : c.Ended) (hk : k ≠ .eof)
    (h : ∀ {t d}, Eats c t d → Ensures E (f t d)) : Ensures E ((expect k >>= f) c) :=
  bind (E := fun t d => Eats c t d) (fun _ _ hp => .of_passes hc (expect_ok hp hc hk).2) h

theorem eat? {f : Option Token → Parse α} (hc : c.Ended) (hk : k ≠ .eof)
    (yes : ∀ {t d}, Eats c t d → Ensures E (f (some t) d)) (no : Ensures E (f none c)) :
    Ensures E ((eat? k >>= f) c) := by
  have he := eat?_apply k c
  split at he
  next hp =>
    rw [bind_of_ok he]
    exact yes (.of_passes hc (.of_advance hc (eq_of_beq hp ▸ hk)))
  next => rwa [bind_of_ok he]

theorem eat {f : Bool → Parse α} (hc : c.Ended) (hk : k ≠ .eof)
    (yes : ∀ {t d}, Eats c t d → Ensures E (f true d)) (no : Ensures E (f false c)) :
    Ensures E ((eat k >>= f) c) := by
  have he := eat_apply k c
  split at he
  next hp =>
    rw [bind_of_ok he]
    exact yes (.of_passes hc (.of_advance hc (eq_of_beq hp ▸ hk)))
  next => rwa [bind_of_ok he]

theorem before {p : Parse α} {f : Option α → Parse β} (hp : Reads p D) (hc : c.Ended)
    (hf : ∀ {o d}, Between (StepReads D) c o d → Ensures F (f o d)) :
    Ensures F ((Parse.check k >>= fun b =>
      if b then Pure.pure none >>= f else some <$> p >>= f) c) := by
  refine .check ?_
  split
  · exact hf (.refl hc rfl)
  · exact .bind_map (hp.run hc) fun ha => hf (ha.mono id)

/-- What holds at first and after every step of a repetition holds in the end. -/
theorem iterate {step : σ → Parse (Option σ)} {P : σ → Cursor → Prop} {s : σ}
    (hs : ∀ {s c}, P s c → Ensures (fun o d => P (o.getD s) d) (step s c)) (h : P s c) :
    Ensures P (iterate step s c) := by
  have loop (n : Nat) : ∀ {s c}, P s c → Ensures P (iterateUpTo step n s c) := by
    induction n with
    | zero => exact fun h => .pure h
    | succ n ih =>
      intro s c h
      refine .bind (hs h) fun {o d} h => ?_
      cases o with
      | none => exact .pure h
      | some s' => exact ih h
  exact .ahead (loop _ h)

end Ensures

theorem Reads.manyUntil {p : Parse α} {P : List Token → List α → Prop} {close : Kind}
    (h : Reads p D) (nil : P [] [])
    (cons : ∀ {xs a ys as}, D xs a → P ys as → P (xs ++ ys) (a :: as)) :
    Reads (manyUntil close p) P := by
  refine many_reads (D := D) (.of_run fun hc => .check (.atEnd ?_)) nil cons
  split
  · exact .pure (.refl hc rfl)
  · exact .bind (h.run hc) fun ha => .pure (ha.mono id)

end CPretty
