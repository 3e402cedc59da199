import CPretty.Proofs.Machine.Run

namespace CPretty.Machine

open Program hiding pure bind

variable {x : Input} {limit : Nat} {α β γ σ : Type} {p : Program α} {q : Program β} {s s' t : State}
  {r : Except ParseError α}

/-- The nesting level is the same as before, and the position is not behind the end marker unless it
was before. -/
structure State.Keeps (x : Input) (s s' : State) : Prop where
  depth : s'.depth = s.depth
  inside : s.position ≤ x.last → s'.position ≤ x.last

namespace State.Keeps

protected theorem refl (s : State) : s.Keeps x s := ⟨rfl, id⟩

theorem trans (h : s.Keeps x s') (h' : s'.Keeps x t) : s.Keeps x t :=
  ⟨h'.depth.trans h.depth, fun hs => h'.inside (h.inside hs)⟩

theorem advance (s : State) : s.Keeps x
    (if (x.peek s.position).kind = .eof then s else { s with position := s.position + 1 }) := by
  split
  · exact .refl s
  next hk =>
    refine ⟨rfl, fun hs => Nat.lt_of_le_of_ne hs fun he => hk ?_⟩
    rw [he, Input.peek_last]
    exact x.finish_kind

theorem nested (h : State.Keeps x { s with depth := s.depth + 1 } s') :
    s.Keeps x { s' with depth := s'.depth - 1 } :=
  ⟨by rw [h.depth, Nat.add_sub_cancel], h.inside⟩

theorem rewind (h : s.Keeps x s') : s.Keeps x { s' with position := s.position } := ⟨h.depth, id⟩

end State.Keeps

/-- Where the programs inside keep the discipline, so does the whole. -/
theorem step_keeps {run : Runner} (h : x.step limit run α p s = some (r, s'))
    (keeps : ∀ {β q t r u}, run β q t = some (r, u) → t.Keeps x u) : s.Keeps x s' := by
  cases p with
  | bind p f =>
    obtain ⟨⟨_ | a, s₁⟩, h₁, h⟩ := Option.bind_eq_some_iff.mp h
    · cases h
      exact keeps h₁
    · exact (keeps h₁).trans (keeps h)
  | advance =>
    cases h
    exact .advance s
  | mapError f p =>
    obtain ⟨⟨r, s₁⟩, h₁, h⟩ := Option.bind_eq_some_iff.mp h
    cases h
    exact keeps h₁
  | nested p =>
    simp only [Input.step] at h
    split at h
    · cases h
      exact .refl s
    · obtain ⟨⟨r, s₁⟩, h₁, h⟩ := Option.bind_eq_some_iff.mp h
      cases h
      exact .nested (keeps h₁)
  | attempt p =>
    obtain ⟨⟨_ | a, s₁⟩, h₁, h⟩ := Option.bind_eq_some_iff.mp h
    · dsimp only at h
      split at h <;> cases h
      · exact keeps h₁
      · exact (keeps h₁).rewind
    · cases h
      exact keeps h₁
  | loop step a =>
    obtain ⟨⟨_ | a | b, s₁⟩, h₁, h⟩ := Option.bind_eq_some_iff.mp h
    · cases h
      exact keeps h₁
    · exact (keeps h₁).trans (keeps h)
    · cases h
      exact keeps h₁
  | call p => exact keeps h
  | _ =>
    cases h
    exact .refl s

theorem run_keeps (h : x.run limit p s = some (r, s')) : s.Keeps x s' := by
  rw [run_eq_some_iff] at h
  obtain ⟨n, h⟩ := h
  induction n generalizing α s s' with
  | zero => cases h
  | succ n ih => exact step_keeps h ih

/-- The programs that a run of a program comes to, each with the state it is entered in. -/
inductive Reaches (x : Input) (limit : Nat) {α : Type} (p : Program α) (s : State) :
    {β : Type} → Program β → State → Prop
  | self : Reaches x limit p s p s
  | first {β γ : Type} {q : Program β} {f : β → Program γ} {t : State} :
    Reaches x limit p s (.bind q f) t → Reaches x limit p s q t
  | next {β γ : Type} {q : Program β} {f : β → Program γ} {b : β} {t u : State} :
    Reaches x limit p s (.bind q f) t → x.run limit q t = some (.ok b, u) →
      Reaches x limit p s (f b) u
  | mapError {β : Type} {q : Program β} {f : ParseError → ParseError} {t : State} :
    Reaches x limit p s (.mapError f q) t → Reaches x limit p s q t
  | nested {β : Type} {q : Program β} {t : State} :
    Reaches x limit p s (.nested q) t → t.depth < limit →
      Reaches x limit p s q { t with depth := t.depth + 1 }
  | attempt {β : Type} {q : Program β} {t : State} :
    Reaches x limit p s (.attempt q) t → Reaches x limit p s q t
  | step {β σ : Type} {q : σ → Program (σ ⊕ β)} {a : σ} {t : State} :
    Reaches x limit p s (.loop q a) t → Reaches x limit p s (q a) t
  | again {β σ : Type} {q : σ → Program (σ ⊕ β)} {a a' : σ} {t u : State} :
    Reaches x limit p s (.loop q a) t → x.run limit (q a) t = some (.ok (.inl a'), u) →
      Reaches x limit p s (.loop q a') u
  | call {β : Type} {q : Production β} {t : State} :
    Reaches x limit p s (.call q) t → Reaches x limit p s q.body t

theorem Reaches.inside (h : Reaches x limit p s q t) (hs : s.position ≤ x.last) :
    t.position ≤ x.last := by
  induction h with
  | self => exact hs
  | next _ hr ih => exact (run_keeps hr).inside ih
  | again _ hr ih => exact (run_keeps hr).inside ih
  | _ => assumption

theorem Reaches.depth_le (h : Reaches x limit p s q t) (hs : s.depth ≤ limit) :
    t.depth ≤ limit := by
  induction h with
  | self => exact hs
  | next _ hr ih => rwa [(run_keeps hr).depth]
  | nested _ hd _ => exact hd
  | again _ hr ih => rwa [(run_keeps hr).depth]
  | _ => assumption

/-- A run that ends has come to the end of every program on its way. -/
theorem Reaches.ends (h : Reaches x limit p s q t) (hp : x.run limit p s ≠ none) :
    x.run limit q t ≠ none := by
  induction h with
  | self => exact hp
  | first _ ih =>
    intro hn
    rw [bind_eq, run_bind, hn] at ih
    exact ih rfl
  | next _ hr ih => rwa [bind_eq, run_bind, hr] at ih
  | mapError _ ih =>
    intro hn
    rw [run_mapError, hn] at ih
    exact ih rfl
  | nested _ hd ih =>
    intro hn
    rw [run_nested, if_neg (Nat.not_le.mpr hd), hn] at ih
    exact ih rfl
  | attempt _ ih =>
    intro hn
    rw [run_attempt, hn] at ih
    exact ih rfl
  | step _ ih =>
    intro hn
    rw [run_loop, hn] at ih
    exact ih rfl
  | again _ hr ih => rwa [run_loop, hr] at ih
  | call _ ih => rwa [run_call] at ih

end CPretty.Machine
