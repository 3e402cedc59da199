import CPretty.Proofs.Machine.Production

namespace CPretty.Machine

open Program hiding pure bind

/-- A list of tokens that ends in its only end marker. -/
structure Input where
  /-- The tokens before the end marker. -/
  front : List Token
  finish : Token
  front_kind : ∀ t ∈ front, t.kind ≠ .eof
  finish_kind : finish.kind = .eof

namespace Input

def tokens (x : Input) : List Token := x.front ++ [x.finish]

def last (x : Input) : Nat := x.front.length

/-- The token at a position, or the last one behind the end. -/
def peek (x : Input) (i : Nat) : Token := x.tokens.getD i x.finish

/-- The kind of the token at a position, or that of an end marker behind the end. -/
def kindAt (x : Input) (i : Nat) : Kind := x.tokens[i]?.elim .eof Token.kind

theorem peek_last (x : Input) : x.peek x.last = x.finish := by
  simp [peek, tokens, last]

end Input

/-- What the parser keeps, whether it succeeds or fails. -/
structure State where
  /-- The index of the next token. -/
  position : Nat
  /-- The number of nesting levels entered. -/
  depth : Nat
deriving DecidableEq, Repr

namespace State

def start : State := ⟨0, 0⟩

def failure (x : Input) (s : State) (expected : List Expected) : ParseError :=
  ⟨.unexpected expected, x.peek s.position, x.last - s.position⟩

/-- The error that one more level here would be beyond `limit`. -/
def excess (x : Input) (s : State) (limit : Nat) : ParseError :=
  ⟨.tooDeep limit, x.peek s.position, x.last - s.position⟩

end State

/-- A way to run programs: the value or the error that a program ends with and the state it leaves
behind, or none. -/
abbrev Runner := (α : Type) → Program α → State → Option (Except ParseError α × State)

/-- What a program does, where the programs inside are run in a given way. -/
def Input.step (x : Input) (limit : Nat) (run : Runner) : Runner
  | _, .pure a, s => return (.ok a, s)
  | _, .bind p f, s => do
    match ← run _ p s with
    | (.ok a, s') => run _ (f a) s'
    | (.error e, s') => return (.error e, s')
  | _, .peek, s => return (.ok (x.peek s.position), s)
  | _, .kindAt n, s => return (.ok (x.kindAt (s.position + n)), s)
  | _, .advance, s =>
    let t := x.peek s.position
    return (.ok t, if t.kind = .eof then s else { s with position := s.position + 1 })
  | _, .fail es, s => return (.error (s.failure x es), s)
  | _, .throw e, s => return (.error e, s)
  | _, .mapError f p, s => do
    let (r, s') ← run _ p s
    return (r.mapError f, s')
  | _, .nested p, s =>
    if limit ≤ s.depth then return (.error (s.excess x limit), s)
    else do
      let (r, s') ← run _ p { s with depth := s.depth + 1 }
      return (r, { s' with depth := s'.depth - 1 })
  | _, .attempt p, s => do
    match ← run _ p s with
    | (.ok a, s') => return (.ok (.ok a), s')
    | (.error e, s') =>
      if e.isTooDeep then return (.error e, s')
      else return (.ok (.error e), { s' with position := s.position })
  | _, .loop step a, s => do
    match ← run _ (step a) s with
    | (.ok (.inl a'), s') => run _ (.loop step a') s'
    | (.ok (.inr b), s') => return (.ok b, s')
    | (.error e, s') => return (.error e, s')
  | _, .call p, s => run _ p.body s

/-- What a program ends with when programs stand inside each other at most so many times. -/
def Input.runUpTo (x : Input) (limit : Nat) : Nat → Runner
  | 0 => fun _ _ _ => none
  | n + 1 => x.step limit (x.runUpTo limit n)

/-- What a program ends with, if it ever ends: the limit of the runs that give up where programs
stand inside each other too often. -/
noncomputable def Input.run (x : Input) (limit : Nat) {α : Type} (p : Program α) (s : State) :
    Option (Except ParseError α × State) :=
  open Classical in
  if ends : ∃ e n, x.runUpTo limit n α p s = some e then some ends.choose else none

variable {x : Input} {limit : Nat} {α β σ : Type} {p : Program α} {s s' : State}
  {r : Except ParseError α} {e : Except ParseError α × State}

/-- What a program does in the limit of runners, one of them does. -/
theorem step_of_limit {run : Runner} {runs : Nat → Runner}
    (mono : ∀ {m n α p s e}, m ≤ n → runs m α p s = some e → runs n α p s = some e)
    (limited : ∀ {α p s e}, run α p s = some e → ∃ n, runs n α p s = some e)
    (h : x.step limit run α p s = some e) : ∃ n, x.step limit (runs n) α p s = some e := by
  cases p with
  | bind p f =>
    obtain ⟨⟨_ | a, s₁⟩, h₁, h⟩ := Option.bind_eq_some_iff.mp h
    · obtain ⟨n, h₁⟩ := limited h₁
      exact ⟨n, Option.bind_eq_some_iff.mpr ⟨_, h₁, h⟩⟩
    · -- Both runs inside end where the later one does.
      obtain ⟨m, h₁⟩ := limited h₁
      obtain ⟨n, h⟩ := limited h
      exact ⟨max m n, Option.bind_eq_some_iff.mpr
        ⟨_, mono (Nat.le_max_left m n) h₁, mono (Nat.le_max_right m n) h⟩⟩
  | mapError f p =>
    obtain ⟨r, h₁, h⟩ := Option.bind_eq_some_iff.mp h
    obtain ⟨n, h₁⟩ := limited h₁
    exact ⟨n, Option.bind_eq_some_iff.mpr ⟨r, h₁, h⟩⟩
  | nested p =>
    by_cases deep : limit ≤ s.depth
    · refine ⟨0, ?_⟩
      rw [← h]
      simp only [Input.step, if_pos deep]
    · simp only [Input.step, if_neg deep] at h ⊢
      obtain ⟨r, h₁, h⟩ := Option.bind_eq_some_iff.mp h
      obtain ⟨n, h₁⟩ := limited h₁
      exact ⟨n, Option.bind_eq_some_iff.mpr ⟨r, h₁, h⟩⟩
  | attempt p =>
    obtain ⟨r, h₁, h⟩ := Option.bind_eq_some_iff.mp h
    obtain ⟨n, h₁⟩ := limited h₁
    exact ⟨n, Option.bind_eq_some_iff.mpr ⟨r, h₁, h⟩⟩
  | loop step a =>
    obtain ⟨⟨_ | a' | b, s₁⟩, h₁, h⟩ := Option.bind_eq_some_iff.mp h
    · obtain ⟨n, h₁⟩ := limited h₁
      exact ⟨n, Option.bind_eq_some_iff.mpr ⟨_, h₁, h⟩⟩
    · obtain ⟨m, h₁⟩ := limited h₁
      obtain ⟨n, h⟩ := limited h
      exact ⟨max m n, Option.bind_eq_some_iff.mpr
        ⟨_, mono (Nat.le_max_left m n) h₁, mono (Nat.le_max_right m n) h⟩⟩
    · obtain ⟨n, h₁⟩ := limited h₁
      exact ⟨n, Option.bind_eq_some_iff.mpr ⟨_, h₁, h⟩⟩
  | call p => exact limited h
  | _ => exact ⟨0, h⟩

theorem runUpTo_of_le {m n : Nat} (hm : m ≤ n) (h : x.runUpTo limit m α p s = some e) :
    x.runUpTo limit n α p s = some e := by
  induction m generalizing n α s with
  | zero => cases h
  | succ m ih =>
    cases n with
    | zero => exact absurd hm (Nat.not_succ_le_zero m)
    | succ n =>
      have more {α p s e} (h : x.runUpTo limit m α p s = some e) :
          ∃ _ : Nat, x.runUpTo limit n α p s = some e := ⟨0, ih (Nat.le_of_succ_le_succ hm) h⟩
      exact (step_of_limit (fun _ => id) more h).elim fun _ => id

/-- A run ends with what it ends with for some bound. -/
theorem run_eq_some_iff : x.run limit p s = some e ↔ ∃ n, x.runUpTo limit n α p s = some e := by
  rw [Input.run]
  constructor
  · intro h
    split at h
    next ends =>
      cases h
      exact ends.choose_spec
    next => cases h
  · rintro ⟨n, h⟩
    have ends : ∃ e n, x.runUpTo limit n α p s = some e := ⟨e, n, h⟩
    obtain ⟨m, h'⟩ := ends.choose_spec
    have same := (runUpTo_of_le (Nat.le_max_left m n) h').symm.trans
      (runUpTo_of_le (Nat.le_max_right m n) h)
    rw [dif_pos ends, same]

theorem run_eq (p : Program α) (s : State) :
    x.run limit p s = x.step limit (fun _ => x.run limit) α p s := by
  refine Option.ext fun e => ⟨fun h => ?_, fun h => ?_⟩
  · obtain ⟨_ | n, h⟩ := run_eq_some_iff.mp h
    · cases h
    · have inside {α p s e} (h : x.runUpTo limit n α p s = some e) :
          ∃ _ : Nat, x.run limit p s = some e := ⟨0, run_eq_some_iff.mpr ⟨n, h⟩⟩
      exact (step_of_limit (fun _ => id) inside h).elim fun _ => id
  · obtain ⟨n, h⟩ := step_of_limit runUpTo_of_le run_eq_some_iff.mp h
    exact run_eq_some_iff.mpr ⟨n + 1, h⟩

theorem run_pure (a : α) (s : State) :
    x.run limit (pure a : Program α) s = some (.ok a, s) := run_eq _ s

theorem bind_eq (p : Program α) (f : α → Program β) : Program.bind p f = p >>= f := rfl

theorem run_bind (p : Program α) (f : α → Program β) (s : State) :
    x.run limit (p >>= f) s = (x.run limit p s).bind fun
      | (.ok a, s') => x.run limit (f a) s'
      | (.error e, s') => some (.error e, s') := by
  rw [run_eq]
  rfl

theorem run_bind_ok {a : α} {f : α → Program β} (h : x.run limit p s = some (.ok a, s')) :
    x.run limit (p >>= f) s = x.run limit (f a) s' := by
  rw [run_bind, h]
  rfl

theorem run_bind_error {e : ParseError} {f : α → Program β}
    (h : x.run limit p s = some (.error e, s')) :
    x.run limit (p >>= f) s = some (.error e, s') := by
  rw [run_bind, h]
  rfl

theorem run_peek (s : State) : x.run limit peek s = some (.ok (x.peek s.position), s) := by
  rw [run_eq]
  rfl

theorem run_kindAt (n : Nat) (s : State) :
    x.run limit (kindAt n) s = some (.ok (x.kindAt (s.position + n)), s) := by
  rw [run_eq]
  rfl

theorem run_advance (s : State) :
    x.run limit advance s = some (.ok (x.peek s.position),
      if (x.peek s.position).kind = .eof then s else { s with position := s.position + 1 }) := by
  rw [run_eq]
  rfl

theorem run_fail (es : List Expected) (s : State) :
    x.run limit (fail es : Program α) s = some (.error (s.failure x es), s) := by
  rw [run_eq]
  rfl

theorem run_throw (e : ParseError) (s : State) :
    x.run limit (throw e : Program α) s = some (.error e, s) := by
  rw [run_eq]
  rfl

theorem run_mapError (f : ParseError → ParseError) (p : Program α) (s : State) :
    x.run limit (mapError f p) s = (x.run limit p s).map fun e => (e.1.mapError f, e.2) := by
  rw [run_eq, Option.map_eq_bind]
  rfl

theorem run_nested (p : Program α) (s : State) :
    x.run limit (nested p) s =
      if limit ≤ s.depth then some (.error (s.excess x limit), s)
      else (x.run limit p { s with depth := s.depth + 1 }).map fun e =>
        (e.1, { e.2 with depth := e.2.depth - 1 }) := by
  rw [run_eq, Option.map_eq_bind]
  rfl

theorem run_attempt (p : Program α) (s : State) :
    x.run limit (attempt p) s = (x.run limit p s).bind fun
      | (.ok a, s') => some (.ok (.ok a), s')
      | (.error e, s') =>
        if e.isTooDeep then some (.error e, s')
        else some (.ok (.error e), { s' with position := s.position }) := by
  rw [run_eq]
  rfl

theorem run_loop (step : σ → Program (σ ⊕ α)) (a : σ) (s : State) :
    x.run limit (loop step a) s = (x.run limit (step a) s).bind fun
      | (.ok (.inl a'), s') => x.run limit (loop step a') s'
      | (.ok (.inr b), s') => some (.ok b, s')
      | (.error e, s') => some (.error e, s') := by
  rw [run_eq]
  rfl

theorem run_call (p : Production α) (s : State) :
    x.run limit (call p) s = x.run limit p.body s := run_eq _ s

end CPretty.Machine
