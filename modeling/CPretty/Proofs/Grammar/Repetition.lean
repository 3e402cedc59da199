import CPretty.Proofs.Grammar.Derivation
import CPretty.Proofs.Parse.Steps

namespace CPretty

open Parse

variable {α σ : Type} {b c d : Cursor} {ph : Phrase}

abbrev ReadsAs (p : Parse Node) (ph : Phrase) : Prop := Reads p fun xs n => Derives ph xs [n]

/-- A step of a repetition passes nothing when it yields nothing. -/
def StepReads (D : List Token → α → Prop) (xs : List Token) : Option α → Prop
  | none => xs = []
  | some a => D xs a

theorem Reads.mono {p : Parse α} {D E : List Token → α → Prop} (h : Reads p D)
    (hDE : ∀ xs a, D xs a → E xs a) : Reads p E := by
  intro c a d hc hp
  obtain ⟨xs, hx, hD⟩ := h hc hp
  exact ⟨xs, hx, hDE xs a hD⟩

/-- The first alternative was read, or the second one after an error of the first. -/
theorem either_cases {p q : Parse α} {r : α × Cursor} (h : either p q c = .ok r) :
    p c = .ok r ∨ ∃ e, p c = .error e ∧ ¬ e.isTooDeep = true ∧ q c = .ok r := by
  rw [either] at h
  split at h
  · cases h
    exact .inl ‹_›
  · split at h
    · cases h
    · split at h
      · cases h
        exact .inr ⟨_, ‹_›, ‹_›, ‹_›⟩
      · cases h

theorem either_ok {p q : Parse α} {r : α × Cursor} (h : either p q c = .ok r) :
    p c = .ok r ∨ q c = .ok r :=
  (either_cases h).imp id fun ⟨_, _, _, hq⟩ => hq

theorem either_of_ok {p : Parse α} {r : α × Cursor} (h : p c = .ok r) (q : Parse α) :
    either p q c = .ok r := by
  rw [either, h]

theorem either_of_error {p q : Parse α} {e : ParseError} {r : α × Cursor} (h : p c = .error e)
    (he : ¬ e.isTooDeep = true) (hq : q c = .ok r) : either p q c = .ok r := by
  simp only [either, h, if_neg he, hq]

theorem Reads.either {p q : Parse α} {D : List Token → α → Prop} (hp : Reads p D)
    (hq : Reads q D) : Reads (either p q) D := by
  intro c a d hc h
  obtain h | h := either_ok h
  · exact hp hc h
  · exact hq hc h

theorem many_reads {step : Parse (Option α)} {D : List Token → α → Prop}
    {P : List Token → List α → Prop} (hs : Reads step (StepReads D)) (nil : P [] [])
    (cons : ∀ {xs a ys as}, D xs a → P ys as → P (xs ++ ys) (a :: as)) :
    Reads (many step) P := by
  have loop : ∀ n, Reads (manyUpTo step n) P := by
    intro n
    induction n with
    | zero =>
      intro c as d hc h
      cases h
      exact ⟨[], .refl c, nil⟩
    | succ n ih =>
      intro c as d hc h
      obtain ⟨o, c₁, h₁, h⟩ := bind_ok h
      obtain ⟨xs, p₁, hx⟩ := hs hc h₁
      cases o with
      | none =>
        obtain ⟨rfl, rfl⟩ := pure_ok h
        cases hx
        exact ⟨[], p₁, nil⟩
      | some a =>
        obtain ⟨as, c₂, h₂, h⟩ := bind_ok h
        obtain ⟨ys, p₂, hy⟩ := ih (p₁.ended hc) h₂
        obtain ⟨rfl, rfl⟩ := pure_ok h
        exact ⟨xs ++ ys, p₁.trans p₂, cons hx hy⟩
  intro c as d hc h
  obtain ⟨ts, c₁, h₁, h⟩ := bind_ok h
  cases h₁
  exact loop _ hc h

/-- A repetition whose steps all take a token ends with a step that yields nothing. -/
theorem many_stops {step : Parse (Option α)} {D : List Token → α → Prop} {as : List α}
    (hs : Reads step (StepReads D)) (hD : ∀ {xs a}, D xs a → xs ≠ []) (hc : c.Ended)
    (h : many step c = .ok (as, d)) : ∃ e, step e = .ok (none, d) := by
  have loop : ∀ n {c as}, c.Ended → c.ahead.length < n → manyUpTo step n c = .ok (as, d) →
      ∃ e, step e = .ok (none, d) := by
    intro n
    induction n with
    | zero => exact fun _ hn => absurd hn (Nat.not_lt_zero _)
    | succ n ih =>
      intro c as hc hn h
      obtain ⟨o, c₁, h₁, h⟩ := bind_ok h
      cases o with
      | none =>
        obtain ⟨rfl, rfl⟩ := pure_ok h
        exact ⟨c, h₁⟩
      | some a =>
        obtain ⟨as, c₂, h₂, h⟩ := bind_ok h
        obtain ⟨rfl, rfl⟩ := pure_ok h
        obtain ⟨xs, p₁, hx⟩ := hs hc h₁
        have := p₁.length_lt (hD hx)
        exact ih (p₁.ended hc) (by omega) h₂
  obtain ⟨ts, c₁, h₁, h⟩ := bind_ok h
  cases h₁
  exact loop _ hc (Nat.lt_succ_self _) h

/-- What holds of a value and the tokens read so far holds again after each step, and so at the
end. -/
theorem iterate_ok {step : σ → Parse (Option σ)} {P : List Token → σ → Prop} {s s' : σ}
    {ys : List Token} (h : iterate step s c = .ok (s', d)) (hc : b.Ended) (p : b.Passes ys c)
    (hP : P ys s)
    (hs : ∀ {ys s}, P ys s → Reads (step s) (StepReads fun xs s' => P (ys ++ xs) s')) :
    ∃ xs, b.Passes xs d ∧ P xs s' := by
  have loop : ∀ n {ys s c}, iterateUpTo step n s c = .ok (s', d) → b.Passes ys c → P ys s →
      ∃ xs, b.Passes xs d ∧ P xs s' := by
    intro n
    induction n with
    | zero =>
      intro ys s c h p hP
      cases h
      exact ⟨ys, p, hP⟩
    | succ n ih =>
      intro ys s c h p hP
      obtain ⟨o, c₁, h₁, h⟩ := bind_ok h
      obtain ⟨xs, p₁, hx⟩ := hs hP (p.ended hc) h₁
      cases o with
      | none =>
        obtain ⟨rfl, rfl⟩ := pure_ok h
        cases hx
        exact ⟨ys ++ [], p.trans p₁, by simpa using hP⟩
      | some s₁ => exact ih h (p.trans p₁) hx
  obtain ⟨ts, c₁, h₁, h⟩ := bind_ok h
  cases h₁
  exact loop _ h p hP

theorem manyUntil_reads {item : Parse Node} {close : Kind} (hi : ReadsAs item ph) :
    Reads (manyUntil close item) fun xs ns => Derives (.sequence ph) xs ns := by
  refine many_reads (D := fun xs n => Derives ph xs [n]) ?_ .sequenceNil fun h => .sequenceMore h
  intro c o d hc h
  obtain ⟨b, c₁, h₁, h⟩ := bind_ok h
  cases h₁
  obtain ⟨b', c₂, h₂, h⟩ := bind_ok h
  cases h₂
  split at h
  · obtain ⟨rfl, rfl⟩ := pure_ok h
    exact ⟨[], .refl d, rfl⟩
  · obtain ⟨n, c₃, h₃, h⟩ := bind_ok h
    obtain ⟨rfl, rfl⟩ := pure_ok h
    exact hi hc h₃

theorem commaList_reads {item : Parse Node} (hi : ReadsAs item ph) :
    Reads (commaList item) fun xs ns => Derives (.commas ph) xs ns := by
  -- The items after the first, each with the comma before it, are put behind any first item.
  have tail : Reads (commaItems item) fun ys ns =>
      ∀ {xs n}, Derives ph xs [n] → Derives (.commas ph) (xs ++ ys) (n :: ns) := by
    refine many_reads (D := fun xs n => ∃ t ys, xs = t :: ys ∧ Token.Of .comma t ∧
      Derives ph ys [n])
      ?_ ?_ ?_
    · intro c o d hc h
      obtain ⟨b, c₁, h₁, h⟩ := bind_ok h
      obtain ⟨rfl, t, ht, p₁⟩ | ⟨rfl, rfl, -⟩ := eat_ok h₁ hc (by decide)
      · obtain ⟨n, c₂, h₂, h⟩ := bind_ok h
        obtain ⟨ys, p₂, hn⟩ := hi (p₁.ended hc) h₂
        obtain ⟨rfl, rfl⟩ := pure_ok h
        exact ⟨[t] ++ ys, p₁.trans p₂, t, ys, rfl, ht, hn⟩
      · obtain ⟨rfl, rfl⟩ := pure_ok h
        exact ⟨[], .refl d, rfl⟩
    · intro xs n h
      simpa using Derives.one h
    · rintro xs n ys ns ⟨t, zs, rfl, ht, hn⟩ ih ws m hm
      simpa using Derives.more hm ht (ih hn)
  intro c ns d hc h
  obtain ⟨n, c₁, h₁, h⟩ := bind_ok h
  obtain ⟨xs, p₁, hn⟩ := hi hc h₁
  obtain ⟨ms, c₂, h₂, h⟩ := bind_ok h
  obtain ⟨ys, p₂, hm⟩ := tail (p₁.ended hc) h₂
  obtain ⟨rfl, rfl⟩ := pure_ok h
  exact ⟨xs ++ ys, p₁.trans p₂, hm hn⟩

theorem bracedItems_reads {item : Parse Node} (hi : ReadsAs item ph) :
    Reads (bracedItems item) fun xs ns => Derives (.braced ph) xs ns := by
  have loop : ∀ n, Reads (bracedItemsUpTo item n) fun xs ns => Derives (.braced ph) xs ns := by
    intro n
    induction n with
    | zero =>
      intro c ns d hc h
      cases h
      exact ⟨[], .refl c, .bracedNil⟩
    | succ n ih =>
      intro c ns d hc h
      obtain ⟨b, c₁, h₁, h⟩ := bind_ok h
      cases h₁
      split at h
      · obtain ⟨rfl, rfl⟩ := pure_ok h
        exact ⟨[], .refl d, .bracedNil⟩
      · obtain ⟨m, c₂, h₂, h⟩ := bind_ok h
        obtain ⟨xs, p₂, hm⟩ := hi hc h₂
        obtain ⟨b, c₃, h₃, h⟩ := bind_ok h
        obtain ⟨rfl, t, ht, p₃⟩ | ⟨rfl, rfl, -⟩ := eat_ok h₃ (p₂.ended hc) (by decide)
        · obtain ⟨ms, c₄, h₄, h⟩ := bind_ok h
          obtain ⟨ys, p₄, hms⟩ := ih (p₃.ended (p₂.ended hc)) h₄
          obtain ⟨rfl, rfl⟩ := pure_ok h
          exact ⟨xs ++ ([t] ++ ys), p₂.trans (p₃.trans p₄), .bracedMore hm ht hms⟩
        · obtain ⟨rfl, rfl⟩ := pure_ok h
          exact ⟨xs, p₂, .bracedLast hm⟩
  intro c ns d hc h
  obtain ⟨ts, c₁, h₁, h⟩ := bind_ok h
  cases h₁
  exact loop _ hc h

theorem strings_reads :
    Reads strings fun xs r => xs = r.1 :: r.2 ∧ ∀ s ∈ r.1 :: r.2, Token.Of .stringLiteral s := by
  intro c r d hc h
  obtain ⟨t, c₁, h₁, h⟩ := bind_ok h
  obtain ⟨ht, p₁⟩ := expect_ok h₁ hc (by decide)
  obtain ⟨ts, c₂, h₂, h⟩ := bind_ok h
  have rest : Reads (many (eat? .stringLiteral)) fun xs ts =>
      xs = ts ∧ ∀ s ∈ ts, Token.Of .stringLiteral s := by
    refine many_reads (D := fun xs t => xs = [t] ∧ Token.Of .stringLiteral t) ?_ (by simp) ?_
    · intro c o d hc h
      obtain ⟨p, hk, -⟩ := eat?_ok h hc (by decide)
      cases o with
      | none => exact ⟨[], p, rfl⟩
      | some t => exact ⟨[t], p, rfl, hk t rfl⟩
    · rintro xs t ys ts ⟨rfl, ht⟩ ⟨rfl, hts⟩
      exact ⟨rfl, by simpa using ⟨ht, hts⟩⟩
  obtain ⟨xs, p₂, rfl, hx⟩ := rest (p₁.ended hc) h₂
  obtain ⟨rfl, rfl⟩ := pure_ok h
  exact ⟨_, p₁.trans p₂, rfl, by simpa using ⟨ht, hx⟩⟩

end CPretty
