import CPretty.Proofs.Machine.Agreement
import CPretty.Proofs.Parse.Linked

namespace CPretty

theorem ParseError.exists_tooDeep {e : ParseError} (h : e.isTooDeep = true) :
    ∃ l, e.fault = .tooDeep l := by
  rw [isTooDeep] at h
  split at h
  · exact ⟨_, ‹_›⟩
  · cases h

namespace Machine

open Program hiding pure bind

variable {x : Input} {limit d k n m : Nat} {α β σ : Type} {s t : State} {c c' : Cursor}
  {p p₁ p₂ : Program α} {q q₁ q₂ : Parse α} {N : α → Nat} {e : ParseError}

theorem run_attempt_ok {a : α} (h : x.run limit p s = some (.ok a, t)) :
    x.run limit (attempt p) s = some (.ok (.ok a), t) := by
  rw [run_attempt, h]
  rfl

theorem run_attempt_deep (h : x.run limit p s = some (.error e, t)) (he : e.isTooDeep = true) :
    x.run limit (attempt p) s = some (.error e, t) := by
  rw [run_attempt, h, Option.bind_some]
  exact if_pos he

theorem run_attempt_error (h : x.run limit p s = some (.error e, t)) (he : ¬ e.isTooDeep = true) :
    x.run limit (attempt p) s = some (.ok (.error e), s) := by
  have same : { t with position := s.position } = s := by rw [(run_keeps h).depth]
  rw [run_attempt, h, Option.bind_some]
  exact (if_neg he).trans (by rw [same])

theorem either_deep (h : q₁ c = .error e) (he : e.isTooDeep = true) (q₂ : Parse α) :
    Parse.either q₁ q₂ c = .error e := by
  simp only [Parse.either, h, he, if_true]

theorem either_error {e' : ParseError} (h : q₁ c = .error e) (he : ¬ e.isTooDeep = true)
    (h' : q₂ c = .error e') : Parse.either q₁ q₂ c = .error (e.furthest e') := by
  simp only [Parse.either, h, he, h', Bool.false_eq_true, if_false]

theorem furthest_deep {e' : ParseError} (he : ¬ e.isTooDeep = true) (he' : e'.isTooDeep = true) :
    e.furthest e' = e' := by
  obtain ⟨l, hl⟩ := ParseError.exists_tooDeep he'
  exact ParseError.furthest_of_tooDeep he hl

theorem foldl_either_ok {r : α × Cursor} (h : q c = .ok r) (qs : List (Parse α)) :
    qs.foldl Parse.either q c = .ok r := by
  induction qs generalizing q with
  | nil => exact h
  | cons q' qs ih => exact ih (either_of_ok h q')

theorem foldl_either_deep (h : q c = .error e) (he : e.isTooDeep = true) (qs : List (Parse α)) :
    qs.foldl Parse.either q c = .error e := by
  induction qs generalizing q with
  | nil => exact h
  | cons q' qs ih => exact ih (either_deep h he q')

namespace Agrees

theorem either (h₁ : Agrees x limit d N p₁ s q₁ c) (h₂ : Agrees x limit d N p₂ s q₂ c) :
    Agrees x limit d N (Machine.either p₁ p₂) s (Parse.either q₁ q₂) c := by
  cases h₁ with
  | ok run parse stands =>
    refine .ok ?_ (either_of_ok parse q₂) stands
    exact (run_bind_ok (run_attempt_ok run)).trans (run_pure _ _)
  | @error e t run parse =>
    by_cases he : e.isTooDeep = true
    · exact .error (run_bind_error (run_attempt_deep run he)) (either_deep parse he q₂)
    · have second : x.run limit (Machine.either p₁ p₂) s =
          (x.run limit p₂ s).map fun e' => (e'.1.mapError e.furthest, e'.2) :=
        (run_bind_ok (run_attempt_error run he)).trans (run_mapError _ p₂ s)
      cases h₂ with
      | ok run' parse' stands =>
        rw [run'] at second
        exact .ok second (either_of_error parse he parse') stands
      | error run' parse' =>
        rw [run'] at second
        exact .error second (either_error parse he parse')

/-- The alternatives after others that failed. -/
theorem firstOfAfter {ps : List (Program α)} {qs : List (Parse α)}
    (h : List.Forall₂ (fun p q => Agrees x limit d N p s q c) ps qs) (hq : q c = .error e)
    (he : ¬ e.isTooDeep = true) :
    Agrees x limit d N (Machine.firstOfAfter (some e) ps) s (qs.foldl Parse.either q) c := by
  induction h generalizing q e with
  | nil => exact .error (run_throw e s) hq
  | @cons p₁ q₁ ps qs h _ ih =>
    cases h with
    | ok run parse stands =>
      refine .ok ?_ (foldl_either_ok (either_of_error hq he parse) qs) stands
      exact (run_bind_ok (run_attempt_ok run)).trans (run_pure _ _)
    | @error e' t run parse =>
      have both := either_error hq he parse
      by_cases he' : e'.isTooDeep = true
      · rw [furthest_deep he he'] at both
        exact .error (run_bind_error (run_attempt_deep run he')) (foldl_either_deep both he' qs)
      · refine .congr (ih both ?_) (run_bind_ok (run_attempt_error run he')) rfl
        rwa [ParseError.isTooDeep_furthest he]

theorem firstOf {ps : List (Program α)} {qs : List (Parse α)}
    (h₁ : Agrees x limit d N p₁ s q₁ c)
    (h : List.Forall₂ (fun p q => Agrees x limit d N p s q c) ps qs) :
    Agrees x limit d N (Machine.firstOf (p₁ :: ps)) s (qs.foldl Parse.either q₁) c := by
  cases h₁ with
  | ok run parse stands =>
    refine .ok ?_ (foldl_either_ok parse qs) stands
    exact (run_bind_ok (run_attempt_ok run)).trans (run_pure _ _)
  | @error e t run parse =>
    by_cases he : e.isTooDeep = true
    · exact .error (run_bind_error (run_attempt_deep run he)) (foldl_either_deep parse he qs)
    · exact (firstOfAfter h parse he).congr (run_bind_ok (run_attempt_error run he)) rfl

theorem nested (hs : Stands x d n s c) (hd : d < limit)
    (h : Agrees x limit (d + 1) N p { s with depth := s.depth + 1 } q c) :
    Agrees x limit d N (Program.nested p) s q c := by
  have deeper : x.run limit (Program.nested p) s = _ := run_nested p s
  rw [if_neg (by rw [hs.depth]; omega)] at deeper
  cases h with
  | @ok a t c' run parse stands =>
    rw [run] at deeper
    refine .ok deeper parse ⟨?_, stands.after, stands.inside, stands.cursor⟩
    dsimp only
    rw [stands.depth, Nat.add_sub_cancel]
  | error run parse =>
    rw [run] at deeper
    exact .error deeper parse

theorem refused (hs : Stands x d n s c) (hd : limit ≤ d) :
    Agrees x limit d N (Program.nested p) s (do throw ((← get).excess limit)) c := by
  refine .error (e := c.excess limit) (t := s) ?_ rfl
  rw [run_nested, if_pos (by rw [hs.depth]; exact hd), hs.excess]

/-- A bound for a value that a repetition goes on with, and for its result. -/
def more (n : Nat) (k : α → Nat) : σ ⊕ α → Nat
  | .inl _ => n + 1
  | .inr r => n + k r

/-- A repetition from a value `a` on, where `rest` is the parser of what is left of it, with a bound
beyond the number of tokens left. Its steps may take for granted that what follows them agrees. A
result tells whether a token was taken since the repetition had the value. -/
theorem loopUpTo {step : σ → Program (σ ⊕ α)} {a : σ} (taken : σ → α → Nat)
    (rest : Nat → σ → Parse α) (step' : Nat → σ → Parse (σ ⊕ α)) (one : ∀ a r, taken a r ≤ 1)
    (unfold : ∀ m a, rest (m + 1) a = step' m a >>= Sum.elim (rest m) Pure.pure)
    (hm : c.ahead.length < m) (hs : Stands x d n s c)
    (h : ∀ {m}, (∀ {a n s c}, c.ahead.length < m → Stands x d n s c →
        Agrees x limit d (fun r => n + taken a r) (Program.loop step a) s (rest m a) c) →
      ∀ {a n s c}, c.ahead.length ≤ m → Stands x d n s c →
        Agrees x limit d (more n (taken a)) (step a) s (step' m a) c) :
    Agrees x limit d (fun r => n + taken a r) (Program.loop step a) s (rest m a) c := by
  -- A step that goes on takes a token, so the next smaller bound suffices for what follows it.
  induction m generalizing a n s c with
  | zero => exact absurd hm (Nat.not_lt_zero _)
  | succ m ih =>
    have hm := Nat.le_of_lt_succ hm
    have around := congrFun (unfold m a) c
    have first : x.run limit (Program.loop step a) s = _ := run_loop step a s
    cases h ih hm hs.here with
    | @ok o t c' run parse stands =>
      rw [Parse.bind_of_ok parse] at around
      rw [run] at first
      obtain a' | r := o
      · have inner := ih (a := a') (Nat.lt_of_lt_of_le (hs.length_lt stands) hm) stands
        refine (inner.mono fun r => ?_).congr first around
        exact (Nat.add_le_add hs.after (one a r)).trans (Nat.le_add_right _ _)
      · exact .ok first around (stands.mono (Nat.add_le_add_right hs.after _))
    | @error e t run parse =>
      rw [Parse.bind_of_error parse] at around
      rw [run] at first
      exact .error first around

theorem loop {step : σ → Program (σ ⊕ α)} {a : σ} {q : Parse α} (taken : σ → α → Nat)
    (rest : Nat → σ → Parse α) (step' : Nat → σ → Parse (σ ⊕ α)) (one : ∀ a r, taken a r ≤ 1)
    (unfold : ∀ m a, rest (m + 1) a = step' m a >>= Sum.elim (rest m) Pure.pure)
    (whole : q c = rest (c.ahead.length + 1) a c) (hs : Stands x d n s c)
    (h : ∀ {m}, (∀ {a n s c}, c.ahead.length < m → Stands x d n s c →
        Agrees x limit d (fun r => n + taken a r) (Program.loop step a) s (rest m a) c) →
      ∀ {a n s c}, c.ahead.length ≤ m → Stands x d n s c →
        Agrees x limit d (more n (taken a)) (step a) s (step' m a) c) :
    Agrees x limit d (fun r => n + taken a r) (Program.loop step a) s q c :=
  (loopUpTo taken rest step' one unfold (Nat.lt_succ_self _) hs h).congr rfl whole

def manyNext (q : Parse (Option α)) (as : List α) : Parse (List α ⊕ List α) := do
  match ← q with
  | some a => return .inl (as ++ [a])
  | none => return .inr as

def iterateNext (q : σ → Parse (Option σ)) (a : σ) : Parse (σ ⊕ σ) := do
  match ← q a with
  | some a' => return .inl a'
  | none => return .inr a

/-- The next item of a list in braces, or its last one, or the end of it. -/
def bracedNext (q : Parse α) (as : List α) : Parse (List α ⊕ List α) := do
  if ← Parse.check .rBrace then return .inr as
  else
    let a ← q
    if ← Parse.eat .comma then return .inl (as ++ [a]) else return .inr (as ++ [a])

/-- A bound that is one higher for a value than for none. -/
def took (n : Nat) : Option α → Nat
  | some _ => n + 1
  | none => n

/-- The steps of a repetition agree, and take a token when they yield a value. -/
def Steps (x : Input) (limit d : Nat) (p : Program (Option α)) (q : Parse (Option α)) : Prop :=
  ∀ ⦃n s c⦄, Stands x d n s c → Agrees x limit d (took n) p s q c

theorem took_some {a : α} (hs : Stands x d m s c) (hm : n + 1 ≤ m) :
    Agrees x limit d (took n) (Pure.pure (some a)) s (Pure.pure (some a)) c := .pure hs hm

theorem took_none (hs : Stands x d m s c) (hm : n ≤ m) :
    Agrees x limit d (took n) (Pure.pure (none : Option α)) s (Pure.pure none) c := .pure hs hm

def grown (as bs : List α) : Nat := if as.length < bs.length then 1 else 0

theorem grown_le (as bs : List α) : grown as bs ≤ 1 := by
  rw [grown]
  split <;> omega

theorem grown_self (as : List α) : grown as as = 0 := if_neg (Nat.lt_irrefl _)

/-- A list that is not empty takes at least one token. -/
theorem many_grown {p : Program (Option α)} {q : Parse (Option α)} (h : Steps x limit d p q)
    (hs : Stands x d n s c) :
    Agrees x limit d (fun as => n + grown [] as) (Machine.many p) s (Parse.many q) c := by
  refine loop grown (fun m as => (as ++ ·) <$> Parse.manyUpTo q m) (fun _ => manyNext q) grown_le ?_
    ?_ hs ?_
  · intro m as
    rw [manyNext, Parse.manyUpTo, map_eq_pure_bind, bind_assoc, bind_assoc]
    congr 1
    funext o
    cases o <;> simp
  · simp only [List.nil_append, id_map']
    rfl
  · intro m _ as n s c _ hs
    refine (h hs).bind fun {o t c'} hd => ?_
    cases o with
    | some a => exact .pure hd (Nat.le_refl _)
    | none => exact .pure hd (Nat.le_of_eq (congrArg (n + ·) (grown_self as)))

theorem many {p : Program (Option α)} {q : Parse (Option α)} (h : Steps x limit d p q)
    (hs : Stands x d n s c) :
    Agrees x limit d (fun _ => n) (Machine.many p) s (Parse.many q) c :=
  (many_grown h hs).mono fun _ => Nat.le_add_right n _

/-- A value that is not as it was takes at least as many tokens as `taken` tells. -/
theorem iterate_taken {p : σ → Program (Option σ)} {q : σ → Parse (Option σ)} {a : σ}
    (taken : σ → σ → Nat) (one : ∀ a r, taken a r ≤ 1) (same : ∀ a, taken a a = 0)
    (h : ∀ a, Steps x limit d (p a) (q a)) (hs : Stands x d n s c) :
    Agrees x limit d (fun r => n + taken a r) (Machine.iterate p a) s (Parse.iterate q a) c := by
  refine loop taken (Parse.iterateUpTo q) (fun _ => iterateNext q) one ?_ rfl hs ?_
  · intro m a
    rw [iterateNext, Parse.iterateUpTo, bind_assoc]
    congr 1
    funext o
    cases o <;> simp
  · intro m _ a n s c _ hs
    refine (h a hs).bind fun {o t c'} hd => ?_
    cases o with
    | some a' => exact .pure hd (Nat.le_refl _)
    | none => exact .pure hd (Nat.le_of_eq (congrArg (n + ·) (same a)))

theorem iterate {p : σ → Program (Option σ)} {q : σ → Parse (Option σ)} {a : σ}
    (h : ∀ a, Steps x limit d (p a) (q a)) (hs : Stands x d n s c) :
    Agrees x limit d (fun _ => n) (Machine.iterate p a) s (Parse.iterate q a) c :=
  iterate_taken (fun _ _ => 0) (fun _ _ => Nat.zero_le 1) (fun _ => rfl) h hs

theorem many_eat? {kind : Kind} (hk : kind ≠ .eof) (hs : Stands x d n s c) :
    Agrees x limit d (fun _ => n) (Machine.many (Machine.eat? kind)) s
      (Parse.many (Parse.eat? kind)) c := by
  refine many (fun n s c hs => ?_) hs
  have parsed := Parse.eat?_apply kind c
  by_cases he : c.peek.kind = kind
  · rw [if_pos (by simpa using he)] at parsed
    exact .ok (run_eat?_some hs he hk) parsed (hs.advance_of_ne (he ▸ hk))
  · rw [if_neg (by simpa using he)] at parsed
    exact .ok (run_eat?_none hs he) parsed hs

theorem manyUntil {p : Program α} {q : Parse α} {close : Kind}
    (h : Follows x limit d 1 p q) (hs : Stands x d n s c) :
    Agrees x limit d (fun _ => n) (Machine.manyUntil close p) s (Parse.manyUntil close q) c := by
  refine many (fun n s c hs => .check hs (.atEnd hs ?_)) hs
  split
  · exact .took_none hs le_rfl
  · exact (h hs).bind fun hd => .took_some hd le_rfl

theorem commaItems {p : Program α} {q : Parse α}
    (h : Follows x limit d 1 p q) (hs : Stands x d n s c) :
    Agrees x limit d (fun _ => n) (Machine.commaItems p) s (Parse.commaItems q) c := by
  refine many (fun n s c hs => .eat hs (by decide) (fun _ _ _ hd => ?_) fun _ => ?_) hs
  · exact (h hd).bind fun hd => .took_some hd (Nat.le_succ _)
  · exact .took_none hs le_rfl

theorem commaList {p : Program α} {q : Parse α}
    (h : Follows x limit d 1 p q) (hs : Stands x d n s c) :
    Agrees x limit d (fun _ => n + 1) (Machine.commaList p) s (Parse.commaList q) c :=
  (h hs).bind fun hd => (commaItems h hd).bind fun hd => .pure hd le_rfl

theorem bracedItems {p : Program α} {q : Parse α}
    (h : Follows x limit d 1 p q) (hs : Stands x d n s c) :
    Agrees x limit d (fun _ => n) (Machine.bracedItems p) s (Parse.bracedItems q) c := by
  refine loop (fun _ _ => 0) (fun m as => (as ++ ·) <$> Parse.bracedItemsUpTo q m)
    (fun _ => bracedNext q) (fun _ _ => Nat.zero_le 1) ?_ ?_ hs ?_
  · intro m as
    rw [bracedNext, Parse.bracedItemsUpTo, map_eq_pure_bind, bind_assoc, bind_assoc]
    congr 1
    funext b
    split
    · simp
    · rw [bind_assoc, bind_assoc]
      congr 1
      funext a
      rw [bind_assoc, bind_assoc]
      congr 1
      funext b
      split <;> simp
  · simp only [List.nil_append, id_map']
    rfl
  · intro m _ as n s c _ hs
    refine .check hs ?_
    split
    · exact .pure hs le_rfl
    · refine (h hs).bind fun hd => .eat hd (by decide) (fun _ _ _ hd => ?_) fun _ => ?_
      · exact .pure hd (Nat.le_succ _)
      · exact .pure hd (Nat.le_succ _)

end Agrees

end Machine

end CPretty
