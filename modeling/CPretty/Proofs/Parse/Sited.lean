import CPretty.Proofs.Parse.Steps

namespace CPretty

variable {α β σ : Type} {s c d : Cursor} {limit m n : Nat} {k : Kind} {t : Token}
  {xs ys : List Token} {es : List Expected}

def Dotted (xs : List Token) : Prop := ∃ t, xs.getLast? = some t ∧ t.kind = .ellipsis

theorem not_dotted_nil : ¬ Dotted [] := nofun

@[simp] theorem dotted_concat : Dotted (xs ++ [t]) ↔ t.kind = .ellipsis := by
  simp [Dotted]

abbrev Kind.Common (k : Kind) : Prop := k ≠ .ellipsis ∧ k ≠ .eof

theorem Kind.Common.of_is {g : Category} (h : k.is g = true) : k.Common := by
  refine ⟨?_, Kind.ne_eof_of_is h⟩
  rintro rfl
  cases g <;> cases h

/-- The cursor stands in the source that starts at `s`, not straight after an ellipsis, with fewer
than `n` tokens ahead. -/
structure Cursor.Clear (s : Cursor) (n : Nat) (c : Cursor) : Prop where
  source : s.Ended
  passed : ∃ xs, s.Passes xs c ∧ ¬ Dotted xs
  short : c.ahead.length < n

namespace Cursor.Clear

theorem start (hs : s.Ended) : Clear s (s.ahead.length + 1) s :=
  ⟨hs, ⟨[], .refl s, not_dotted_nil⟩, Nat.lt_succ_self _⟩

theorem ended (h : Clear s n c) : c.Ended := by
  obtain ⟨xs, p, -⟩ := h.passed
  exact p.ended h.source

theorem mono (h : Clear s m c) (hmn : m ≤ n) : Clear s n c :=
  ⟨h.source, h.passed, Nat.lt_of_lt_of_le h.short hmn⟩

theorem widen (h : Clear s (n - 1) c) : Clear s n c := h.mono (Nat.sub_le n 1)

theorem self (h : Clear s n c) : Clear s (c.ahead.length + 1) c :=
  ⟨h.source, h.passed, Nat.lt_succ_self _⟩

theorem onward (h : Clear s n c) (p : c.Passes [t] d) (hk : t.kind ≠ .ellipsis) :
    Clear s (n - 1) d := by
  obtain ⟨xs, q, -⟩ := h.passed
  have := p.length_lt (List.cons_ne_nil t [])
  have := h.short
  exact ⟨h.source, ⟨xs ++ [t], q.trans p, by simp [hk]⟩, by omega⟩

theorem advance (h : Clear s n c) (hk : c.peek.kind.Common) : Clear s (n - 1) c.advance :=
  h.onward (.of_advance h.ended hk.2) hk.1

end Cursor.Clear

namespace Expected

theorem mem_pool (known more : List Expected) {x : Expected} :
    x ∈ pool known more ↔ x ∈ known ∨ x ∈ more := by
  induction more generalizing known with
  | nil => simp [pool]
  | cons e more ih =>
    rw [pool, List.foldl_cons, ← pool, ih]
    split <;> grind

theorem nodup_pool {known : List Expected} (h : known.Nodup) (more : List Expected) :
    (pool known more).Nodup := by
  induction more generalizing known with
  | nil => exact h
  | cons e more ih =>
    rw [pool, List.foldl_cons]
    refine ih ?_
    split
    · exact h
    · rw [List.nodup_append]
      grind

/-- The alternatives listed where a token of kind `k` was found after the tokens `xs`. -/
structure Listed (xs : List Token) (k : Kind) (es : List Expected) : Prop where
  nonempty : es ≠ []
  nodup : es.Nodup
  /-- The only one that stands there is a comma after an ellipsis. -/
  accepts : ∀ x ∈ es, x.accepts k = true → x = .token .comma ∧ Dotted xs
  comma : Dotted xs → .token .comma ∈ es

theorem Listed.pool {more : List Expected} (h : Listed xs k es) (h' : Listed xs k more) :
    Listed xs k (pool es more) where
  nonempty he := by
    have := (mem_pool es more).mpr (.inl (List.head_mem h.nonempty))
    simp [he] at this
  nodup := nodup_pool h.nodup more
  accepts x hx hk := ((mem_pool es more).mp hx).elim (h.accepts x · hk) (h'.accepts x · hk)
  comma hx := (mem_pool es more).mpr (.inl (h.comma hx))

end Expected

/-- A fault that can arise before a token of kind `k` and after the tokens `xs`. -/
def ParseFault.Fits (limit : Nat) (xs : List Token) (k : Kind) : ParseFault → Prop
  | .unexpected es => Expected.Listed xs k es
  | .tooDeep l => l = limit

/-- The error tells of one place in the source that starts at `s`. The alternatives it lists are
none that stand there, but for a comma straight after an ellipsis. -/
structure ParseError.Sited (s : Cursor) (limit : Nat) (e : ParseError) : Prop where
  place : ∃ xs d, s.Passes xs d ∧ e.found = d.peek ∧ e.left = d.ahead.length ∧
    e.fault.Fits limit xs d.peek.kind

namespace ParseError.Sited

variable {a b : ParseError}

theorem failure (p : s.Passes xs d) (h : Expected.Listed xs d.peek.kind es) :
    Sited s limit (d.failure es) := ⟨xs, d, p, rfl, rfl, h⟩

theorem excess (p : s.Passes xs d) : Sited s limit (d.excess limit) := ⟨xs, d, p, rfl, rfl, rfl⟩

theorem Passes.same_place {d' : Cursor} (p : s.Passes xs d) (q : s.Passes ys d')
    (h : d.ahead.length = d'.ahead.length) : xs = ys ∧ d = d' := by
  obtain ⟨rfl, ha⟩ := List.append_inj' (p.ahead.symm.trans q.ahead) h
  obtain ⟨ahead, finish⟩ := d
  obtain ⟨ahead', finish'⟩ := d'
  cases ha
  cases p.finish.trans q.finish.symm
  exact ⟨rfl, rfl⟩

/-- Of two errors the reported one tells of one place, also where the lists of both are pooled. -/
theorem furthest (ha : Sited s limit a) (hb : Sited s limit b) :
    Sited s limit (a.furthest b) := by
  rw [ParseError.furthest]
  split
  case h_1 => exact ha
  case h_2 => exact hb
  case h_3 known more hka hkb =>
    split
    · obtain ⟨xs, d, p, hf, hl, hx⟩ := ha
      obtain ⟨ys, d', q, hf', hl', hy⟩ := hb
      obtain ⟨rfl, rfl⟩ := Passes.same_place p q (by omega)
      rw [hka] at hx
      rw [hkb] at hy
      exact ⟨xs, d, p, hf, hl, hx.pool hy⟩
    · split
      · exact hb
      · exact ha

end ParseError.Sited

/-- The run ends with a value and a cursor in the relation `Q`, or with an error that tells of one
place of the source. -/
inductive Lands (s : Cursor) (limit : Nat) (Q : α → Cursor → Prop) :
    Except ParseError (α × Cursor) → Prop
  | ok {a d} : Q a d → Lands s limit Q (.ok (a, d))
  | error {e} : e.Sited s limit → Lands s limit Q (.error e)

/-- From everywhere but straight after an ellipsis, every run ends at such a place again or with an
error that tells of one place. -/
def Steady (s : Cursor) (limit : Nat) (p : Parse α) : Prop :=
  ∀ ⦃n c⦄, s.Clear n c → Lands s limit (fun _ d => s.Clear n d) (p c)

/-- A step of a repetition takes a token each time, or it yields nothing and stops where `N`
holds. -/
def Stepped (s : Cursor) (n : Nat) (N : Cursor → Prop) (o : Option α) (d : Cursor) : Prop :=
  if o.isSome then s.Clear (n - 1) d else s.Clear n d ∧ N d

theorem Stepped.clear {N : Cursor → Prop} {o : Option α} (h : Stepped s n N o d) :
    s.Clear n d := by
  cases o with
  | none => exact h.1
  | some a => exact Cursor.Clear.widen h

namespace Lands

open Parse

variable {Q : α → Cursor → Prop} {R : β → Cursor → Prop}

theorem pure {a : α} (h : Q a c) : Lands s limit Q ((Pure.pure a : Parse α) c) := .ok h

theorem mono {Q' : α → Cursor → Prop} {r : Except ParseError (α × Cursor)}
    (h : Lands s limit Q r) (hq : ∀ {a d}, Q a d → Q' a d) : Lands s limit Q' r := by
  cases h with
  | ok ha => exact .ok (hq ha)
  | error he => exact .error he

theorem bind {p : Parse α} {f : α → Parse β} (h : Lands s limit Q (p c))
    (hf : ∀ {a d}, Q a d → Lands s limit R (f a d)) : Lands s limit R ((p >>= f) c) := by
  rw [bind_apply]
  generalize p c = r at h
  cases h with
  | ok ha => exact hf ha
  | error he => exact .error he

theorem bind_map {γ : Type} {p : Parse γ} {g : γ → α} {f : α → Parse β} {Q : γ → Cursor → Prop}
    (h : Lands s limit Q (p c)) (hf : ∀ {a d}, Q a d → Lands s limit R (f (g a) d)) :
    Lands s limit R ((g <$> p >>= f) c) := by
  rw [bind_apply, map_eq_pure_bind, bind_apply]
  generalize p c = r at h
  cases h with
  | ok ha => exact hf ha
  | error he => exact .error he

theorem fail (hc : s.Clear n c) (hne : es ≠ []) (hnd : es.Nodup)
    (hes : ∀ x ∈ es, x.accepts c.peek.kind = false) :
    Lands s limit Q ((Parse.fail es : Parse α) c) := by
  obtain ⟨xs, p, hx⟩ := hc.passed
  refine .error (.failure p ⟨hne, hnd, fun x hm ha => ?_, fun h => absurd h hx⟩)
  simp [hes x hm] at ha

theorem fail_production (hc : s.Clear n c) (name : String) :
    Lands s limit Q ((Parse.fail [.production name] : Parse α) c) :=
  fail hc (by simp) (by simp) (by simp [Expected.accepts])

theorem peekKind {f : Kind → Parse β} (h : ∀ k, c.peek.kind = k → Lands s limit R (f k c)) :
    Lands s limit R ((Parse.peekKind >>= f) c) := h _ rfl

theorem check {f : Bool → Parse β} (h : Lands s limit R (f (c.peek.kind == k) c)) :
    Lands s limit R ((Parse.check k >>= f) c) := h

theorem ahead {f : List Token → Parse β} (h : Lands s limit R (f c.ahead c)) :
    Lands s limit R ((Parse.ahead >>= f) c) := h

theorem atEnd {f : Bool → Parse β} (h : Lands s limit R (f c.ahead.isEmpty c)) :
    Lands s limit R ((Parse.atEnd >>= f) c) := h

theorem advance {f : Token → Parse β} (hc : s.Clear n c) (hk : c.peek.kind.Common)
    (h : ∀ {t d}, s.Clear n d → Lands s limit R (f t d)) :
    Lands s limit R ((Parse.advance >>= f) c) := by
  rw [bind_of_ok (advance_apply c)]
  exact h ((hc.advance hk).widen)

theorem expect {f : Token → Parse β} (hc : s.Clear n c) (hk : k.Common)
    (h : ∀ {t d}, s.Clear n d → Lands s limit R (f t d)) :
    Lands s limit R ((Parse.expect k >>= f) c) := by
  refine .bind (Q := fun _ d => s.Clear n d) ?_ fun hd => h hd
  rw [expect_apply]
  split
  next hp =>
    exact .ok ((hc.advance (eq_of_beq hp ▸ hk)).widen)
  next hp => exact fail hc (by simp) (by simp) (by simpa [Expected.accepts] using hp)

theorem eat? {f : Option Token → Parse β} (hc : s.Clear n c) (hk : k.Common)
    (yes : ∀ {t d}, s.Clear (n - 1) d → Lands s limit R (f (some t) d))
    (no : c.peek.kind ≠ k → Lands s limit R (f none c)) :
    Lands s limit R ((Parse.eat? k >>= f) c) := by
  have he := eat?_apply k c
  split at he
  next hp =>
    rw [bind_of_ok he]
    exact yes (hc.advance (eq_of_beq hp ▸ hk))
  next hp =>
    rw [bind_of_ok he]
    exact no (by simpa using hp)

theorem eat {f : Bool → Parse β} (hc : s.Clear n c) (hk : k.Common)
    (yes : ∀ {d}, s.Clear (n - 1) d → Lands s limit R (f true d))
    (no : c.peek.kind ≠ k → Lands s limit R (f false c)) :
    Lands s limit R ((Parse.eat k >>= f) c) := by
  have he := eat_apply k c
  split at he
  next hp =>
    rw [bind_of_ok he]
    exact yes (hc.advance (eq_of_beq hp ▸ hk))
  next hp =>
    rw [bind_of_ok he]
    exact no (by simpa using hp)

/-- The second of two readings is tried from the same place. -/
theorem either {p q : Parse α} (hp : Lands s limit Q (p c)) (hq : Lands s limit Q (q c)) :
    Lands s limit Q (Parse.either p q c) := by
  rw [Parse.either]
  generalize p c = r at hp
  generalize q c = r' at hq
  cases hp with
  | ok ha => exact .ok ha
  | error he =>
    dsimp only
    split
    · exact .error he
    · cases hq with
      | ok ha => exact .ok ha
      | error he' => exact .error (he.furthest he')

/-- A repetition stops where its step does, since its bound exceeds the number of tokens ahead. -/
theorem manyUpTo {step : Parse (Option α)} {N : Cursor → Prop}
    (h : ∀ {n c}, s.Clear n c →
      Lands s limit (Stepped s n N) (step c))
    (m : Nat) : ∀ {n c}, s.Clear n c → n ≤ m →
      Lands s limit (fun _ d => s.Clear n d ∧ N d) (Parse.manyUpTo step m c) := by
  induction m with
  | zero =>
    intro n c hc hm
    have := hc.short
    omega
  | succ m ih =>
    intro n c hc hm
    refine .bind (h hc) fun {o d} hd => ?_
    cases o with
    | none => exact .pure hd
    | some a =>
      refine .bind (ih hd (by omega)) fun ⟨hd, hN⟩ => .pure ⟨hd.widen, hN⟩

/-- The same of a value that each step rebuilds. -/
theorem iterateUpTo {step : σ → Parse (Option σ)} {N : Cursor → Prop}
    (h : ∀ a {n c}, s.Clear n c →
      Lands s limit (Stepped s n N) (step a c))
    (m : Nat) : ∀ a {n c}, s.Clear n c → n ≤ m →
      Lands s limit (fun _ d => s.Clear n d ∧ N d) (Parse.iterateUpTo step m a c) := by
  induction m with
  | zero =>
    intro a n c hc hm
    have := hc.short
    omega
  | succ m ih =>
    intro a n c hc hm
    refine .bind (h a hc) fun {o d} hd => ?_
    cases o with
    | none => exact .pure hd
    | some a => exact (ih a hd (by omega)).mono fun ⟨hd, hN⟩ => ⟨hd.widen, hN⟩

theorem iterate {step : σ → Parse (Option σ)} {N : Cursor → Prop} {a : σ}
    (h : ∀ a {n c}, s.Clear n c →
      Lands s limit (Stepped s n N) (step a c))
    (hc : s.Clear n c) :
    Lands s limit (fun _ d => s.Clear n d ∧ N d) (Parse.iterate step a c) :=
  .ahead ((iterateUpTo h _ a hc.self (Nat.le_refl _)).mono fun ⟨he, hN⟩ => ⟨he.mono hc.short, hN⟩)

end Lands

namespace Steady

open Parse

theorem many {step : Parse (Option α)} (h : Steady s limit step) :
    Steady s limit (Parse.many step) := by
  have loop (m : Nat) : Steady s limit (Parse.manyUpTo step m) := by
    induction m with
    | zero => exact fun _ _ hc => .pure hc
    | succ m ih =>
      intro n c hc
      refine .bind (h hc) fun {o d} hd => ?_
      cases o with
      | none => exact .pure hd
      | some a => exact .bind (ih hd) fun hd => .pure hd
  exact fun _ _ hc => .ahead (loop _ hc)

theorem iterate {step : σ → Parse (Option σ)} (h : ∀ a, Steady s limit (step a)) (a : σ) :
    Steady s limit (Parse.iterate step a) := by
  have loop (m : Nat) : ∀ a, Steady s limit (Parse.iterateUpTo step m a) := by
    induction m with
    | zero => exact fun _ _ _ hc => .pure hc
    | succ m ih =>
      intro a n c hc
      refine .bind (h a hc) fun {o d} hd => ?_
      cases o with
      | none => exact .pure hd
      | some a => exact ih a hd
  exact fun _ _ hc => .ahead (loop _ a hc)

theorem manyUntil {item : Parse α} (h : Steady s limit item) (close : Kind) :
    Steady s limit (Parse.manyUntil close item) := by
  refine many fun n c hc => .check (.atEnd ?_)
  split
  · exact .pure hc
  · exact .bind (h hc) fun hd => .pure hd

theorem bracedItems {item : Parse α} (h : Steady s limit item) :
    Steady s limit (Parse.bracedItems item) := by
  have loop (m : Nat) : Steady s limit (Parse.bracedItemsUpTo item m) := by
    induction m with
    | zero => exact fun _ _ hc => .pure hc
    | succ m ih =>
      intro n c hc
      refine .check ?_
      split
      · exact .pure hc
      · refine .bind (h hc) fun hd => .eat hd (by decide) (fun hd => ?_) fun _ => .pure hd
        exact .bind (ih (hd.widen)) fun hd => .pure hd
  exact fun _ _ hc => .ahead (loop _ hc)

theorem strings : Steady s limit Parse.strings := by
  intro n c hc
  refine .expect hc (by decide) fun hd => .bind (many (fun n c hc => ?_) hd) fun hd => .pure hd
  rw [eat?_apply]
  split
  next hp => exact .ok ((hc.advance (by rw [eq_of_beq hp]; decide)).widen)
  next => exact .ok hc

theorem commaList {item : Parse α} (h : Steady s limit item) (hc : s.Clear n c) :
    Lands s limit (fun _ d => s.Clear n d ∧ d.peek.kind ≠ .comma) (Parse.commaList item c) := by
  refine .bind (h hc) fun hd => .bind (Q := fun _ d => s.Clear n d ∧ d.peek.kind ≠ .comma) ?_
    fun hd => .pure hd
  refine (Lands.manyUpTo (N := fun d => d.peek.kind ≠ .comma) (fun hc => ?_) _ hd.self
    (Nat.le_refl _)).mono fun ⟨he, hN⟩ => ⟨he.mono hd.short, hN⟩
  refine .eat hc (by decide) (fun hd => ?_) fun hN => .pure ⟨hc, hN⟩
  exact .bind (h hd) fun hd => .pure hd

end Steady

namespace Lands

open Parse

variable {R : β → Cursor → Prop}

theorem before {p : Parse α} {f : Option α → Parse β} (h : Steady s limit p) (hc : s.Clear n c)
    (hf : ∀ {o d}, s.Clear n d → Lands s limit R (f o d)) :
    Lands s limit R ((Parse.check k >>= fun b =>
      if b then Pure.pure none >>= f else some <$> p >>= f) c) := by
  refine .check ?_
  split
  · exact hf hc
  · exact .bind_map (h hc) hf

theorem commasBefore {p : Parse α} {f : List α → Parse β} (hk : k ≠ .comma)
    (h : Steady s limit p) (hc : s.Clear n c)
    (hf : ∀ {as d}, s.Clear n d → d.peek.kind ≠ .comma → Lands s limit R (f as d)) :
    Lands s limit R ((Parse.check k >>= fun b =>
      if b then Pure.pure [] >>= f else commaList p >>= f) c) := by
  refine .check ?_
  split
  next hp => exact hf hc (eq_of_beq hp ▸ hk)
  next => exact .bind (Steady.commaList h hc) fun hd => hf hd.1 hd.2

end Lands

end CPretty
