import CPretty.Proofs.Parse.Steps

namespace CPretty

/-- The brackets open after a run of tokens, the innermost first. A bracket counts unless it is a
parenthesis directly after `_Atomic`. -/
structure OpenBrackets where
  counted : List Bool
  afterAtomic : Bool

namespace Kind

def openers : List Kind := [.lParen, .lBracket, .lBrace]

def closers : List Kind := [.rParen, .rBracket, .rBrace]

def isPlain (k : Kind) : Bool := !(k == .eof || openers.contains k || closers.contains k)

end Kind

namespace OpenBrackets

def next (o : OpenBrackets) (t : Token) : OpenBrackets where
  counted :=
    if t.kind ∈ Kind.openers then (!(o.afterAtomic && t.kind == .lParen)) :: o.counted
    else if t.kind ∈ Kind.closers then o.counted.tail
    else o.counted
  afterAtomic := t.kind == .kwAtomic

def depth (o : OpenBrackets) : Nat := o.counted.count true

/-- The brackets open after a run of tokens from the start of a source. -/
def after (ts : List Token) : OpenBrackets := ts.foldl next ⟨[], false⟩

/-- The tokens `xs` lead to the open brackets `s`, and never more than `m` count on the way. -/
inductive Stays (m : Nat) (s : List Bool) : OpenBrackets → List Token → Prop
  | nil {o} : o.counted = s → o.depth ≤ m → Stays m s o []
  | cons {o t ts} : o.depth ≤ m → Stays m s (o.next t) ts → Stays m s o (t :: ts)

variable {m : Nat} {s s' : List Bool} {o : OpenBrackets} {xs ys : List Token}

theorem Stays.depth_le (h : Stays m s o xs) (hy : ys <+: xs) : (ys.foldl next o).depth ≤ m := by
  induction h generalizing ys with
  | nil _ hm =>
    cases List.prefix_nil.mp hy
    exact hm
  | cons hm _ ih =>
    cases ys with
    | nil => exact hm
    | cons y ys =>
      obtain ⟨rfl, hys⟩ := List.cons_prefix_cons.mp hy
      exact ih hys

theorem Stays.append (h : Stays m s o xs)
    (k : Stays m s' ⟨s, (xs.foldl next o).afterAtomic⟩ ys) : Stays m s' o (xs ++ ys) := by
  induction h with
  | @nil o ho _ =>
    cases ho
    exact k
  | cons hm _ ih => exact .cons hm (ih k)

end OpenBrackets

open OpenBrackets Parse

variable {α β : Type} {m n : Nat} {s s' s'' : List Bool} {b : Bool} {c : Cursor} {k : Kind}

/-- Every successful run of which `r` is the result leads from the open brackets `s` to `s'`, and
never more than `m` count on the way. -/
def Keeps (m : Nat) (s s' : List Bool) (c : Cursor) (r : Except ParseError (α × Cursor)) : Prop :=
  ∀ a d, c.Ended → r = .ok (a, d) → ∀ b, ∃ xs, c.Passes xs d ∧ Stays m s' ⟨s, b⟩ xs

/-- With the open brackets `s` there is room for `n` more before `m` is exceeded. -/
def Room (n m : Nat) (s : List Bool) : Prop := s.count true + n ≤ m

theorem Room.pred (h : Room (n + 1) m s) : Room n m s := by
  rw [Room] at *
  omega

theorem Room.push (h : Room (n + 1) m s) : Room n m (b :: s) := by
  rw [Room] at *
  cases b with
  | false => rw [List.count_cons_of_ne (by decide)]; omega
  | true => rw [List.count_cons_self]; omega

theorem Room.uncounted (h : Room n m s) : Room n m (false :: s) := by
  rw [Room, List.count_cons_of_ne (by decide)]
  exact h

theorem Room.count_le (h : Room n m s) : s.count true ≤ m := Nat.le_of_add_right_le h

/-- A parser that opens at most `n` brackets at once and closes them all. -/
def Opens (n : Nat) (p : Parse α) : Prop := ∀ ⦃m s c⦄, Room n m s → Keeps m s s c (p c)

namespace Keeps

theorem pure {a : α} (hm : Room n m s) : Keeps m s s c ((Pure.pure a : Parse α) c) := by
  intro a' d hc h b
  obtain ⟨rfl, rfl⟩ := pure_ok h
  exact ⟨[], .refl d, .nil rfl hm.count_le⟩

theorem error {e : ParseError} : Keeps m s s' c (.error e : Except ParseError (α × Cursor)) := by
  intro a d hc h
  cases h

theorem bind {p : Parse α} {f : α → Parse β} (hp : Keeps m s s' c (p c))
    (hf : ∀ {a d}, Keeps m s' s'' d (f a d)) : Keeps m s s'' c ((p >>= f) c) := by
  intro b d hc h flag
  obtain ⟨a, c₁, h₁, h₂⟩ := bind_ok h
  obtain ⟨xs, p₁, hx⟩ := hp _ _ hc h₁ flag
  obtain ⟨ys, p₂, hy⟩ := hf _ _ (p₁.ended hc) h₂ _
  exact ⟨xs ++ ys, p₁.trans p₂, hx.append hy⟩

theorem map {p : Parse α} {f : α → β} (hp : Keeps m s s' c (p c)) :
    Keeps m s s' c ((f <$> p) c) := by
  intro b d hc h
  obtain ⟨a, ha, rfl⟩ := map_ok h
  exact hp _ _ hc ha

theorem peekKind {f : Kind → Parse β} (h : ∀ {k}, c.peek.kind = k → Keeps m s s' c (f k c)) :
    Keeps m s s' c ((peekKind >>= f) c) := by
  rw [bind_of_ok (peekKind_apply c)]
  exact h rfl

theorem check {f : Bool → Parse β} (h : Keeps m s s' c (f (c.peek.kind == k) c)) :
    Keeps m s s' c ((check k >>= f) c) := by
  rw [bind_of_ok (check_apply k c)]
  exact h

theorem atEnd {f : Bool → Parse β} (h : Keeps m s s' c (f c.ahead.isEmpty c)) :
    Keeps m s s' c ((atEnd >>= f) c) := by
  rw [bind_of_ok (atEnd_apply c)]
  exact h

theorem ahead {f : List Token → Parse β} (h : Keeps m s s' c (f c.ahead c)) :
    Keeps m s s' c ((ahead >>= f) c) := by
  rw [bind_of_ok (ahead_apply c)]
  exact h

theorem token {r : Except ParseError (α × Cursor)} (hm : s.count true ≤ m)
    (hk : c.peek.kind ≠ .eof)
    (h : ∀ b, Keeps m (next ⟨s, b⟩ c.peek).counted s' c.advance r) : Keeps m s s' c r := by
  intro a d hc hr b
  have p := Cursor.Passes.of_advance hc hk
  obtain ⟨xs, q, hx⟩ := h b _ _ (p.ended hc) hr (next ⟨s, b⟩ c.peek).afterAtomic
  exact ⟨c.peek :: xs, p.trans q, .cons hm hx⟩

theorem plain {r : Except ParseError (α × Cursor)} (hm : Room n m s)
    (hk : c.peek.kind.isPlain = true) (h : Keeps m s s' c.advance r) : Keeps m s s' c r := by
  simp only [Kind.isPlain, Bool.not_eq_true', Bool.or_eq_false_iff, beq_eq_false_iff_ne,
    List.contains_eq_mem, decide_eq_false_iff_not] at hk
  refine token hm.count_le hk.1.1 fun b => ?_
  rw [next, if_neg hk.1.2, if_neg hk.2]
  exact h

theorem opening {r : Except ParseError (α × Cursor)} (hm : Room (n + 1) m s)
    (hk : c.peek.kind ∈ Kind.openers)
    (h : ∀ b, Room n m (b :: s) → Keeps m (b :: s) s' c.advance r) : Keeps m s s' c r := by
  have present : ∀ k ∈ Kind.openers, k ≠ .eof := by decide
  refine token hm.count_le (present _ hk) fun b => ?_
  rw [next, if_pos hk]
  exact h _ hm.push

theorem closing {r : Except ParseError (α × Cursor)} (hm : Room n m (b :: s))
    (hk : c.peek.kind ∈ Kind.closers) (h : Keeps m s s' c.advance r) :
    Keeps m (b :: s) s' c r := by
  have apart : ∀ k ∈ Kind.closers, k ≠ .eof ∧ k ∉ Kind.openers := by decide
  refine token hm.count_le (apart _ hk).1 fun b => ?_
  rw [next, if_neg (apart _ hk).2, if_pos hk]
  exact h

theorem advance {f : Token → Parse β} (hm : Room n m s) (hk : c.peek.kind.isPlain = true)
    (h : ∀ {t d}, Keeps m s s' d (f t d)) : Keeps m s s' c ((advance >>= f) c) := by
  rw [bind_of_ok (advance_apply c)]
  exact plain hm hk h

theorem advanceOpen {f : Token → Parse β} (hm : Room (n + 1) m s)
    (hk : c.peek.kind ∈ Kind.openers)
    (h : ∀ {b t d}, Room n m (b :: s) → Keeps m (b :: s) s' d (f t d)) :
    Keeps m s s' c ((Parse.advance >>= f) c) := by
  rw [bind_of_ok (advance_apply c)]
  exact opening hm hk fun _ hb => h hb

theorem expected {f : Token → Parse β}
    (h : ∀ t d, c.peek.kind = k → d = c.advance → Keeps m s s' c (f t d)) :
    Keeps m s s' c ((expect k >>= f) c) := by
  have he := expect_apply k c
  split at he
  · rw [bind_of_ok he]
    exact h _ _ (by simp_all) rfl
  · rw [bind_of_error he]
    exact error

theorem expect {f : Token → Parse β} (hk : k.isPlain = true) (hm : Room n m s)
    (h : ∀ {t d}, Keeps m s s' d (f t d)) : Keeps m s s' c ((expect k >>= f) c) := by
  refine expected fun t d he hd => plain hm (he ▸ hk) ?_
  exact hd ▸ h

theorem expectOpen {f : Token → Parse β} (hk : k ∈ Kind.openers) (hm : Room (n + 1) m s)
    (h : ∀ {b t d}, Room n m (b :: s) → Keeps m (b :: s) s' d (f t d)) :
    Keeps m s s' c ((Parse.expect k >>= f) c) := by
  refine expected fun t d he hd => opening hm (he ▸ hk) fun b hb => ?_
  exact hd ▸ h hb

theorem expectClose {f : Token → Parse β} (hk : k ∈ Kind.closers) (hm : Room n m (b :: s))
    (h : ∀ {t d}, Keeps m s s' d (f t d)) : Keeps m (b :: s) s' c ((Parse.expect k >>= f) c) := by
  refine expected fun t d he hd => closing hm (he ▸ hk) ?_
  exact hd ▸ h

/-- The parenthesis of an atomic type specifier does not count. -/
theorem atomic {f : Token → Token → Parse β} (hm : Room n m s) (hk : c.peek.kind = .kwAtomic)
    (h : ∀ {t u d}, Keeps m (false :: s) s' d (f t u d)) :
    Keeps m s s' c ((Parse.advance >>= fun t => Parse.expect .lParen >>= f t) c) := by
  intro a d hc hr b
  obtain ⟨t, c₁, h₁, hr⟩ := bind_ok hr
  obtain ⟨ht, p₁⟩ := advance_of_kind h₁ hc hk (by decide)
  obtain ⟨u, c₂, h₂, hr⟩ := bind_ok hr
  obtain ⟨hu, p₂⟩ := expect_ok h₂ (p₁.ended hc) (by decide)
  have first : next ⟨s, b⟩ t = ⟨s, true⟩ := by simp [next, ht, Kind.openers, Kind.closers]
  have second : next ⟨s, true⟩ u = ⟨false :: s, false⟩ := by simp [next, hu, Kind.openers]
  obtain ⟨xs, p₃, hx⟩ := h _ _ (p₂.ended (p₁.ended hc)) hr false
  refine ⟨[t] ++ ([u] ++ xs), p₁.trans (p₂.trans p₃), .cons hm.count_le ?_⟩
  rw [first]
  refine .cons hm.count_le ?_
  rw [second]
  exact hx

theorem eat? {f : Option Token → Parse β} (hk : k.isPlain = true) (hm : Room n m s)
    (yes : ∀ {t d}, Keeps m s s' d (f (some t) d)) (no : Keeps m s s' c (f none c)) :
    Keeps m s s' c ((eat? k >>= f) c) := by
  have he := eat?_apply k c
  split at he
  · rw [bind_of_ok he]
    exact plain hm (by simp_all) yes
  · rw [bind_of_ok he]
    exact no

theorem eat?Open {f : Option Token → Parse β} (hk : k ∈ Kind.openers) (hm : Room (n + 1) m s)
    (yes : ∀ {b t d}, Room n m (b :: s) → Keeps m (b :: s) s' d (f (some t) d))
    (no : Keeps m s s' c (f none c)) : Keeps m s s' c ((Parse.eat? k >>= f) c) := by
  have he := eat?_apply k c
  split at he
  · rw [bind_of_ok he]
    exact opening hm (by simp_all) fun _ hb => yes hb
  · rw [bind_of_ok he]
    exact no

theorem eat {f : Bool → Parse β} (hk : k.isPlain = true) (hm : Room n m s)
    (yes : ∀ {d}, Keeps m s s' d (f true d)) (no : Keeps m s s' c (f false c)) :
    Keeps m s s' c ((eat k >>= f) c) := by
  rw [Parse.eat, bind_assoc]
  exact eat? hk hm yes no

theorem eatOpen {f : Bool → Parse β} (hk : k ∈ Kind.openers) (hm : Room (n + 1) m s)
    (yes : ∀ {b d}, Room n m (b :: s) → Keeps m (b :: s) s' d (f true d))
    (no : Keeps m s s' c (f false c)) : Keeps m s s' c ((Parse.eat k >>= f) c) := by
  rw [Parse.eat, bind_assoc]
  exact eat?Open hk hm (fun hb => yes hb) no

end Keeps

namespace Opens

variable {σ : Type}

theorem mono {p : Parse α} (h : Opens n p) : Opens (n + 1) p := fun _ _ _ hm => h hm.pred

theorem eat? (hk : k.isPlain = true) : Opens n (eat? k) := by
  intro m s c hm
  have taken : Keeps m s s c ((Parse.eat? k >>= pure) c) := .eat? hk hm (.pure hm) (.pure hm)
  rwa [bind_pure] at taken

theorem either {p q : Parse α} (hp : Opens n p) (hq : Opens n q) : Opens n (either p q) := by
  intro m s c hm a d hc h
  rw [Parse.either] at h
  cases h₁ : p c with
  | ok r =>
    rw [h₁] at h
    exact hp hm _ _ hc (h₁.trans h)
  | error e =>
    simp only [h₁] at h
    split at h
    · cases h
    · cases h₂ : q c with
      | ok r =>
        rw [h₂] at h
        exact hq hm _ _ hc (h₂.trans h)
      | error e' =>
        rw [h₂] at h
        cases h

theorem many {step : Parse (Option α)} (h : Opens n step) : Opens n (many step) := by
  have loop (l : Nat) : Opens n (manyUpTo step l) := by
    induction l with
    | zero => exact fun _ _ _ hm => .pure hm
    | succ l ih =>
      intro m s c hm
      refine .bind (h hm) fun {o _} => ?_
      cases o with
      | none => exact .pure hm
      | some a => exact .bind (ih hm) (.pure hm)
  exact fun _ _ _ hm => .ahead (loop _ hm)

theorem iterate {step : σ → Parse (Option σ)} (h : ∀ x, Opens n (step x)) (x : σ) :
    Opens n (iterate step x) := by
  have loop (l : Nat) : ∀ x, Opens n (iterateUpTo step l x) := by
    induction l with
    | zero => exact fun x m s c hm => .pure hm
    | succ l ih =>
      intro x m s c hm
      refine .bind (h x hm) fun {o _} => ?_
      cases o with
      | none => exact .pure hm
      | some y => exact ih y hm
  exact fun _ _ _ hm => .ahead (loop _ x hm)

theorem manyUntil {item : Parse α} (h : Opens n item) (close : Kind) :
    Opens n (manyUntil close item) := by
  refine many fun _ _ _ hm => .check (.atEnd ?_)
  split
  · exact .pure hm
  · exact .bind (h hm) (.pure hm)

theorem commaList {item : Parse α} (h : Opens n item) : Opens n (commaList item) := by
  have more : Opens n (commaItems item) := many fun _ _ _ hm =>
    .eat rfl hm (.bind (h hm) (.pure hm)) (.pure hm)
  exact fun _ _ _ hm => .bind (h hm) (.bind (more hm) (.pure hm))

theorem bracedItems {item : Parse α} (h : Opens n item) : Opens n (bracedItems item) := by
  have loop (l : Nat) : Opens n (bracedItemsUpTo item l) := by
    induction l with
    | zero => exact fun _ _ _ hm => .pure hm
    | succ l ih =>
      intro m s c hm
      refine .check ?_
      split
      · exact .pure hm
      · exact .bind (h hm) (.eat rfl hm (.bind (ih hm) (.pure hm)) (.pure hm))
  exact fun _ _ _ hm => .ahead (loop _ hm)

theorem strings : Opens n strings :=
  fun _ _ _ hm => .expect rfl hm (.bind (many (eat? rfl) hm) (.pure hm))

end Opens

end CPretty
