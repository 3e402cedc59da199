import CPretty.Proofs.Machine.Discipline
import CPretty.Proofs.Parse.Alike

namespace CPretty

def Cursor.kindAt (c : Cursor) (n : Nat) : Kind := c.ahead[n]?.elim .eof Token.kind

namespace Machine

open Program hiding pure bind

variable {x : Input} {limit d k n : Nat} {α β σ : Type} {s t : State} {c c' : Cursor}

/-- The state stands at the cursor, at `n` or behind it, with `d` nesting levels entered. -/
structure Stands (x : Input) (d n : Nat) (s : State) (c : Cursor) : Prop where
  depth : s.depth = d
  after : n ≤ s.position
  inside : s.position ≤ x.last
  cursor : c = ⟨x.front.drop s.position, x.finish⟩

namespace Stands

variable {m : Nat}

theorem mono (h : Stands x d n s c) (hm : m ≤ n) : Stands x d m s c :=
  ⟨h.depth, hm.trans h.after, h.inside, h.cursor⟩

theorem here (h : Stands x d n s c) : Stands x d s.position s c :=
  ⟨h.depth, le_rfl, h.inside, h.cursor⟩

theorem length (h : Stands x d n s c) : c.ahead.length = x.last - s.position := by
  rw [h.cursor]
  exact List.length_drop

theorem length_lt (h : Stands x d n s c) (h' : Stands x d (s.position + 1) t c') :
    c'.ahead.length < c.ahead.length := by
  have := h'.after
  have := h'.inside
  rw [h.length, h'.length]
  omega

theorem peek (h : Stands x d n s c) : x.peek s.position = c.peek := by
  obtain ⟨-, -, inside, rfl⟩ := h
  rw [Input.peek, Input.tokens, Cursor.peek, List.headD_eq_head?_getD, List.head?_drop]
  obtain lt | eq := Nat.lt_or_eq_of_le inside
  · rw [List.getD_eq_getElem?_getD, List.getElem?_append_left lt]
  · rw [eq, Input.last]
    simp

theorem kindAt (h : Stands x d n s c) (i : Nat) : x.kindAt (s.position + i) = c.kindAt i := by
  obtain ⟨-, -, inside, rfl⟩ := h
  rw [Input.kindAt, Input.tokens, Cursor.kindAt, List.getElem?_drop]
  obtain lt | le := Nat.lt_or_ge (s.position + i) x.front.length
  · rw [List.getElem?_append_left lt]
  · rw [List.getElem?_append_right le, List.getElem?_eq_none le]
    cases s.position + i - x.front.length with
    | zero => exact x.finish_kind
    | succ i => rfl

theorem failure (h : Stands x d n s c) (es : List Expected) : s.failure x es = c.failure es := by
  rw [State.failure, Cursor.failure, h.peek, h.length]

theorem excess (h : Stands x d n s c) (limit : Nat) : s.excess x limit = c.excess limit := by
  rw [State.excess, Cursor.excess, h.peek, h.length]

theorem isEmpty (h : Stands x d n s c) : c.ahead.isEmpty = (c.peek.kind == .eof) := by
  obtain ⟨-, -, -, rfl⟩ := h
  cases hl : x.front.drop s.position with
  | nil =>
    rw [Cursor.peek, List.headD_nil, x.finish_kind]
    rfl
  | cons t ts =>
    have ht : t ∈ x.front := List.mem_of_mem_drop (hl ▸ List.mem_cons_self)
    simp [Cursor.peek, x.front_kind t ht]

/-- The state and the cursor behind the next token, or at the end marker. -/
theorem advance (h : Stands x d n s c) :
    Stands x d n (if c.peek.kind = .eof then s else { s with position := s.position + 1 })
      c.advance := by
  have empty := h.isEmpty
  split
  next hk =>
    rw [hk, beq_self_eq_true, List.isEmpty_iff] at empty
    have same : c.advance = c := by rw [Cursor.advance, empty, List.tail_nil, ← empty]
    rwa [same]
  next hk =>
    have some : c.ahead ≠ [] := by
      rintro hn
      simp [hn, hk] at empty
    have := List.length_pos_iff.mpr some
    have := h.length
    refine ⟨h.depth, Nat.le_succ_of_le h.after, by dsimp only; omega, ?_⟩
    rw [Cursor.advance, h.cursor, List.tail_drop]

theorem advance_of_ne (h : Stands x d n s c) (hk : c.peek.kind ≠ .eof) :
    Stands x d (n + 1) { s with position := s.position + 1 } c.advance := by
  have next := h.advance
  rw [if_neg hk] at next
  exact ⟨next.depth, Nat.succ_le_succ h.after, next.inside, next.cursor⟩

end Stands

/-- The run of a program ends as the parser does at the cursor: with the same error, or with the
same value, at a position that is at least the given one for the value. -/
inductive Agrees (x : Input) (limit d : Nat) (n : α → Nat) (p : Program α) (s : State) (q : Parse α)
    (c : Cursor) : Prop
  | ok {a : α} {t : State} {c' : Cursor} (run : x.run limit p s = some (.ok a, t))
    (parse : q c = .ok (a, c')) (stands : Stands x d (n a) t c')
  | error {e : ParseError} {t : State} (run : x.run limit p s = some (.error e, t))
    (parse : q c = .error e)

namespace Agrees

open Parse (bind_of_ok bind_of_error)

variable {p : Program α} {q : Parse α} {f : α → Program β} {g : α → Parse β} {N : α → Nat}
  {M : β → Nat}

theorem mono {N' : α → Nat} (h : Agrees x limit d N p s q c) (hN : ∀ a, N' a ≤ N a) :
    Agrees x limit d N' p s q c := by
  cases h with
  | ok run parse stands => exact .ok run parse (stands.mono (hN _))
  | error run parse => exact .error run parse

theorem congr {p' : Program α} {q' : Parse α} {s' : State}
    (h : Agrees x limit d N p' s' q' c') (hp : x.run limit p s = x.run limit p' s')
    (hq : q c = q' c') : Agrees x limit d N p s q c := by
  cases h with
  | ok run parse stands => exact .ok (hp.trans run) (hq.trans parse) stands
  | error run parse => exact .error (hp.trans run) (hq.trans parse)

theorem pure {a : α} (hs : Stands x d n s c) (hn : N a ≤ n) :
    Agrees x limit d N (Pure.pure a) s (Pure.pure a) c :=
  .ok (run_pure a s) rfl (hs.mono hn)

theorem fail (hs : Stands x d n s c) (es : List Expected) :
    Agrees x limit d N (Program.fail es) s (Parse.fail es) c := by
  refine .error (run_fail es s) ?_
  rw [Parse.fail_apply, hs.failure]

theorem step {γ : Type} {q : Parse γ} {g : γ → Parse β} {a : α} {b : γ}
    (hp : x.run limit p s = some (.ok a, t)) (hq : q c = .ok (b, c'))
    (h : Agrees x limit d M (f a) t (g b) c') : Agrees x limit d M (p >>= f) s (q >>= g) c :=
  h.congr (run_bind_ok hp) (bind_of_ok hq)

theorem skip {a : α} (h : Agrees x limit d M (f a) s (g a) c) :
    Agrees x limit d M (Pure.pure a >>= f) s (Pure.pure a >>= g) c :=
  step (run_pure a s) rfl h

theorem stop {e : ParseError} (hp : x.run limit p s = some (.error e, t)) (hq : q c = .error e) :
    Agrees x limit d M (p >>= f) s (q >>= g) c :=
  .error (run_bind_error hp) (bind_of_error hq)

theorem bind (h : Agrees x limit d N p s q c)
    (hf : ∀ {a t c'}, Stands x d (N a) t c' → Agrees x limit d M (f a) t (g a) c') :
    Agrees x limit d M (p >>= f) s (q >>= g) c := by
  cases h with
  | ok run parse stands => exact step run parse (hf stands)
  | error run parse => exact stop run parse

theorem bind_map {γ : Type} {w : α → γ} {f : γ → Program β} (h : Agrees x limit d N p s q c)
    (hf : ∀ {a t c'}, Stands x d (N a) t c' → Agrees x limit d M (f (w a)) t (g a) c') :
    Agrees x limit d M (w <$> p >>= f) s (q >>= g) c := by
  cases h with
  | ok run parse stands =>
    exact step ((run_bind_ok run).trans (run_pure _ _)) parse (hf stands)
  | error run parse => exact .error (run_bind_error (run_bind_error run)) (bind_of_error parse)

theorem map {f : α → β} (h : Agrees x limit d (fun _ => n) p s q c) :
    Agrees x limit d (fun _ => n) (f <$> p) s (f <$> q) c := by
  rw [map_eq_pure_bind f q]
  exact h.bind fun hd => .pure hd le_rfl

end Agrees

/-- Everywhere at a depth the program agrees with the parser, and takes at least `k` tokens. -/
abbrev Follows (x : Input) (limit d k : Nat) (p : Program α) (q : Parse α) : Prop :=
  ∀ ⦃n s c⦄, Stands x d n s c → Agrees x limit d (fun _ => n + k) p s q c

theorem Follows.call {p : Production α} {q : Parse α} (h : Follows x limit d k p.body q) :
    Follows x limit d k (call p) q :=
  fun _ s _ hs => (h hs).congr (run_call p s) rfl

theorem run_peekKind (s : State) :
    x.run limit peekKind s = some (.ok (x.peek s.position).kind, s) :=
  (run_bind_ok (run_peek s)).trans (run_pure _ s)

theorem run_check (k : Kind) (s : State) :
    x.run limit (check k) s = some (.ok ((x.peek s.position).kind == k), s) :=
  (run_bind_ok (run_peekKind s)).trans (run_pure _ s)

theorem run_eat? (k : Kind) (s : State) :
    x.run limit (eat? k) s =
      if (x.peek s.position).kind == k then some (.ok (some (x.peek s.position)),
        if (x.peek s.position).kind = .eof then s else { s with position := s.position + 1 })
      else some (.ok none, s) := by
  rw [eat?, run_bind_ok (run_check k s)]
  split
  · exact (run_bind_ok (run_advance s)).trans (run_pure _ _)
  · exact run_pure _ s

theorem run_eat?_some {kind : Kind} (hs : Stands x d n s c) (he : c.peek.kind = kind)
    (hk : kind ≠ .eof) : x.run limit (eat? kind) s =
      some (.ok (some c.peek), { s with position := s.position + 1 }) := by
  rw [run_eat?, hs.peek, if_pos (beq_iff_eq.mpr he), if_neg (he ▸ hk)]

theorem run_eat?_none {kind : Kind} (hs : Stands x d n s c) (he : c.peek.kind ≠ kind) :
    x.run limit (eat? kind) s = some (.ok none, s) := by
  rw [run_eat?, hs.peek, if_neg (mt beq_iff_eq.mp he)]

theorem run_eat (k : Kind) (s : State) :
    x.run limit (eat k) s =
      if (x.peek s.position).kind == k then some (.ok true,
        if (x.peek s.position).kind = .eof then s else { s with position := s.position + 1 })
      else some (.ok false, s) := by
  rw [eat, run_bind, run_eat?]
  split <;> exact run_pure _ _

theorem run_expect (k : Kind) (s : State) :
    x.run limit (expect k) s =
      if (x.peek s.position).kind == k then some (.ok (x.peek s.position),
        if (x.peek s.position).kind = .eof then s else { s with position := s.position + 1 })
      else some (.error (s.failure x [.token k]), s) := by
  rw [expect, run_bind, run_eat?]
  split
  · exact run_pure _ _
  · exact run_fail _ _

namespace Agrees

variable {p : Program α} {q : Parse α} {f : α → Program β} {g : α → Parse β} {M : β → Nat}
  {kind : Kind}

theorem peek {f : Token → Program β} {g : Token → Parse β} (hs : Stands x d n s c)
    (h : Agrees x limit d M (f c.peek) s (g c.peek) c) :
    Agrees x limit d M (Program.peek >>= f) s (Parse.peek >>= g) c :=
  step (hs.peek ▸ run_peek s) rfl h

theorem peekKind {f : Kind → Program β} {g : Kind → Parse β} (hs : Stands x d n s c)
    (h : ∀ k, c.peek.kind = k → Agrees x limit d M (f k) s (g k) c) :
    Agrees x limit d M (Machine.peekKind >>= f) s (Parse.peekKind >>= g) c :=
  step (hs.peek ▸ run_peekKind s) rfl (h _ rfl)

theorem check {f : Bool → Program β} {g : Bool → Parse β} (hs : Stands x d n s c)
    (h : Agrees x limit d M (f (c.peek.kind == kind)) s (g (c.peek.kind == kind)) c) :
    Agrees x limit d M (Machine.check kind >>= f) s (Parse.check kind >>= g) c :=
  step (hs.peek ▸ run_check kind s) rfl h

theorem atEnd {f : Bool → Program β} {g : Bool → Parse β} (hs : Stands x d n s c)
    (h : Agrees x limit d M (f c.ahead.isEmpty) s (g c.ahead.isEmpty) c) :
    Agrees x limit d M (Machine.atEnd >>= f) s (Parse.atEnd >>= g) c :=
  step (hs.isEmpty ▸ hs.peek ▸ run_check .eof s) rfl h

theorem kindAt {f : Kind → Program β} {g : List Token → Parse β} (hs : Stands x d n s c) (i : Nat)
    (h : Agrees x limit d M (f (c.kindAt i)) s (g c.ahead) c) :
    Agrees x limit d M (Program.kindAt i >>= f) s (Parse.ahead >>= g) c :=
  step (hs.kindAt i ▸ run_kindAt i s) rfl h

theorem ne_eof {k : Kind} {b : Bool} (hk : c.peek.kind = k) (hb : b = true)
    (h : k = .eof → b = false) : c.peek.kind ≠ .eof := by
  rintro he
  rw [h (hk.symm.trans he)] at hb
  cases hb

theorem advance {f : Token → Program β} {g : Token → Parse β} (hs : Stands x d n s c)
    (h : ∀ {t}, Stands x d n t c.advance → Agrees x limit d M (f c.peek) t (g c.peek) c.advance) :
    Agrees x limit d M (Program.advance >>= f) s (Parse.advance >>= g) c :=
  step (hs.peek ▸ run_advance s) (Parse.advance_apply c) (h hs.advance)

theorem advance_of_ne {f : Token → Program β} {g : Token → Parse β} (hs : Stands x d n s c)
    (hk : c.peek.kind ≠ .eof)
    (h : ∀ {t}, Stands x d (n + 1) t c.advance →
      Agrees x limit d M (f c.peek) t (g c.peek) c.advance) :
    Agrees x limit d M (Program.advance >>= f) s (Parse.advance >>= g) c := by
  refine step ?_ (Parse.advance_apply c) (h (hs.advance_of_ne hk))
  rw [run_advance, hs.peek, if_neg hk]

theorem eat? {f : Option Token → Program β} {g : Option Token → Parse β} (hs : Stands x d n s c)
    (hk : kind ≠ .eof)
    (yes : c.peek.kind = kind → ∀ {t c'}, Stands x d (n + 1) t c' →
      Agrees x limit d M (f (some c.peek)) t (g (some c.peek)) c')
    (no : c.peek.kind ≠ kind → Agrees x limit d M (f none) s (g none) c) :
    Agrees x limit d M (Machine.eat? kind >>= f) s (Parse.eat? kind >>= g) c := by
  have hq := Parse.eat?_apply kind c
  by_cases he : c.peek.kind = kind
  · rw [if_pos (by simpa using he)] at hq
    exact step (run_eat?_some hs he hk) hq (yes he (hs.advance_of_ne (he ▸ hk)))
  · rw [if_neg (by simpa using he)] at hq
    exact step (run_eat?_none hs he) hq (no he)

theorem eat {f : Bool → Program β} {g : Bool → Parse β} (hs : Stands x d n s c) (hk : kind ≠ .eof)
    (yes : c.peek.kind = kind → ∀ {t c'}, Stands x d (n + 1) t c' →
      Agrees x limit d M (f true) t (g true) c')
    (no : c.peek.kind ≠ kind → Agrees x limit d M (f false) s (g false) c) :
    Agrees x limit d M (Machine.eat kind >>= f) s (Parse.eat kind >>= g) c := by
  have hp : x.run limit (Machine.eat kind) s = _ := run_eat kind s
  have hq := Parse.eat_apply kind c
  rw [hs.peek] at hp
  by_cases he : c.peek.kind = kind
  · rw [if_pos (by simpa using he), if_neg (he ▸ hk)] at hp
    rw [if_pos (by simpa using he)] at hq
    exact step hp hq (yes he (hs.advance_of_ne (he ▸ hk)))
  · rw [if_neg (by simpa using he)] at hp hq
    exact step hp hq (no he)

theorem expect {f : Token → Program β} {g : Token → Parse β} (hs : Stands x d n s c)
    (hk : kind ≠ .eof)
    (h : c.peek.kind = kind → ∀ {t c'}, Stands x d (n + 1) t c' →
      Agrees x limit d M (f c.peek) t (g c.peek) c') :
    Agrees x limit d M (Machine.expect kind >>= f) s (Parse.expect kind >>= g) c := by
  have hp : x.run limit (Machine.expect kind) s = _ := run_expect kind s
  have hq := Parse.expect_apply kind c
  rw [hs.peek] at hp
  by_cases he : c.peek.kind = kind
  · rw [if_pos (by simpa using he), if_neg (he ▸ hk)] at hp
    rw [if_pos (by simpa using he)] at hq
    exact step hp hq (h he (hs.advance_of_ne (he ▸ hk)))
  · rw [if_neg (by simpa using he), hs.failure] at hp
    rw [if_neg (by simpa using he)] at hq
    exact stop hp hq

theorem take {f : Token → Program β} {g : Token → Parse β} (hs : Stands x d n s c)
    (hc : c.peek.kind = kind) (hk : kind ≠ .eof)
    (h : ∀ {t}, Stands x d (n + 1) t c.advance →
      Agrees x limit d M (f c.peek) t (g c.peek) c.advance) :
    Agrees x limit d M (Program.advance >>= f) s (Parse.expect kind >>= g) c := by
  have some : c.peek.kind ≠ .eof := hc ▸ hk
  refine step ?_ ?_ (h (hs.advance_of_ne some))
  · rw [run_advance, hs.peek, if_neg some]
  · rw [Parse.expect_apply, if_pos (by simpa using hc)]

end Agrees

end Machine

end CPretty
