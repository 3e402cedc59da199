import CPretty.Proofs.Machine.Specifier

namespace CPretty

theorem Parse.iterateUpTo_map {σ τ : Type} {w : σ → τ} {p : σ → Parse (Option σ)}
    {q : τ → Parse (Option τ)} (h : ∀ a, q (w a) = Option.map w <$> p a) (m : Nat) (a : σ) :
    iterateUpTo q m (w a) = w <$> iterateUpTo p m a := by
  induction m generalizing a with
  | zero => rfl
  | succ m ih =>
    rw [iterateUpTo, iterateUpTo, h, map_eq_pure_bind, map_eq_pure_bind, bind_assoc, bind_assoc]
    congr 1
    funext o
    cases o with
    | none => simp
    | some a' =>
      rw [pure_bind, ← map_eq_pure_bind]
      exact ih a'

theorem Parse.iterate_map {σ τ : Type} {w : σ → τ} {p : σ → Parse (Option σ)}
    {q : τ → Parse (Option τ)} (h : ∀ a, q (w a) = Option.map w <$> p a) (a : σ) :
    iterate q (w a) = w <$> iterate p a := by
  rw [iterate, iterate, map_bind]
  congr 1
  funext ts
  exact iterateUpTo_map h _ a

namespace Machine

open Program hiding pure bind
open Grammar

variable {x : Input} {limit d n : Nat} {s t : State} {c c' : Cursor} {deep : Nested}

theorem startsNestedAbstract_eq (c : Cursor) :
    Lookahead.startsNestedAbstract c.ahead =
      (c.peek.kind == .lParen && (c.kindAt 1 == .star || c.kindAt 1 == .lBracket)) := by
  rw [Cursor.kindAt, Cursor.peek]
  obtain hl | ⟨a, hl⟩ | ⟨a, b, ts, hl⟩ := ahead_cases c
  · rw [hl]
    exact (Bool.and_false _).symm
  · rw [hl]
    exact (Bool.and_false _).symm
  · rw [hl]
    rfl

def appeared (before after : Option Node) : Nat :=
  if before.isNone && after.isSome then 1 else 0

theorem appeared_le (before after : Option Node) : appeared before after ≤ 1 := by
  rw [appeared]
  split <;> omega

theorem took_appeared (n : Nat) (before after : Option Node) :
    Agrees.took n after ≤ Agrees.took n before + appeared before after := by
  cases before <;> cases after <;> simp [Agrees.took, appeared]

/-- The rest of a list of parameters, of which some were read before. -/
def parameterRest (deep : Nested) (m : Nat) (params : List Node) : Parse (List Node) :=
  (params ++ ·) <$> parametersUpTo deep m

/-- The next parameter of a list, or its last one. -/
def parameterNext (deep : Nested) (_ : Nat) (params : List Node) :
    Parse (List Node ⊕ List Node) := do
  let p ← Grammar.parameter deep
  if ← Parse.eat .comma then
    match ← Parse.eat? .ellipsis with
    | some dots => return .inr (params ++ [p, dots.leaf .ellipsis])
    | none => return .inl (params ++ [p])
  else return .inr (params ++ [p])

theorem parameterRest_succ (deep : Nested) (m : Nat) (params : List Node) :
    parameterRest deep (m + 1) params =
      parameterNext deep m params >>= Sum.elim (parameterRest deep m) pure := by
  rw [parameterRest, parameterNext, parametersUpTo, map_eq_pure_bind, bind_assoc, bind_assoc]
  congr 1
  funext p
  rw [bind_assoc, bind_assoc]
  congr 1
  funext comma
  split
  · rw [bind_assoc, bind_assoc]
    congr 1
    funext dots
    cases dots <;> simp [parameterRest]
  · simp

theorem pointer_grown (hs : Stands x d n s c) :
    Agrees x limit d (fun levels => n + Agrees.grown [] levels) (call .pointer) s
      (Parse.many pointerLevel?) c := by
  refine .congr (.many_grown (fun n s c hs => ?_) hs) (run_call _ s) rfl
  refine .eat? hs (by decide) (fun _ _ _ hd => ?_) fun _ => .took_none hs le_rfl
  refine (Agrees.many (fun n s c hs => .peekKind hs fun k hk => ?_) hd).bind fun hd =>
    .took_some hd le_rfl
  split
  next hg =>
    exact .advance_of_ne hs (Agrees.ne_eof hk hg (by rintro rfl; rfl)) fun hd =>
      .took_some hd le_rfl
  next => exact .took_none hs le_rfl

theorem pointer : Follows x limit d 0 (call .pointer) (Parse.many pointerLevel?) :=
  fun n _ _ hs => (pointer_grown hs).mono fun _ => Nat.le_add_right n _

theorem parameterEnd : Follows x limit d 0 (call .parameterEnd) Grammar.parameterEnd := by
  refine .call fun n s c hs => .check hs (.check hs ?_)
  split
  · exact .pure hs le_rfl
  · exact .fail hs _

namespace Agreeing

theorem declSpecs (h : Agreeing x limit d deep) :
    Follows x limit d 1 (Node.collect .declSpecs <$> call .specifiers) (Grammar.declSpecs deep) :=
  fun _ _ _ hs => specifiers _ (h.specifierList hs)

theorem specQuals (h : Agreeing x limit d deep) :
    Follows x limit d 1 (Node.collect .specQuals <$> call .specifiers) (Grammar.specQuals deep) :=
  fun _ _ _ hs => specifiers _ (h.specifierList hs)

theorem parameter (h : Agreeing x limit d deep) :
    Follows x limit d 1 (call .parameter) (Grammar.parameter deep) := by
  refine .call fun n s c hs => (h.declSpecs hs).bind fun {_ t c'} hd => ?_
  refine .bind (N := fun _ => n + 1) ?_ fun hd => .pure hd le_rfl
  refine .firstOf ?_ (.cons ?_ (.cons ?_ .nil))
  · exact (h.declarator hd).bind fun hd => (parameterEnd hd).bind fun hd => .pure hd (by omega)
  · exact (h.abstractDeclarator hd).bind fun hd => (parameterEnd hd).bind fun hd =>
      .pure hd (by omega)
  · exact (parameterEnd hd).bind fun hd => .pure hd le_rfl

theorem parameterList (h : Agreeing x limit d deep) :
    Follows x limit d 0 (call .parameterList) (Grammar.parameterList deep) := by
  refine .call fun n s c hs => .check hs ?_
  split
  · exact .pure hs le_rfl
  refine .step (run_isIdentifierList hs) rfl ?_
  split
  · refine (Agrees.commaList (fun n s c hs => ?_) hs).bind fun hd => .pure hd (by omega)
    rw [map_eq_pure_bind _ (Parse.expect _)]
    exact .expect hs (by decide) fun _ _ _ hd => .pure hd le_rfl
  · have params : Agrees x limit d (fun _ => n) (loop parameterStep []) s
        (do parametersUpTo deep ((← Parse.ahead).length + 1)) c := by
      refine .loop (fun _ _ => 0) (parameterRest deep) (parameterNext deep)
        (fun _ _ => Nat.zero_le 1) (parameterRest_succ deep) ?_ hs fun {m} _ params n s c _ hs => ?_
      · simp only [parameterRest, List.nil_append, id_map']
        rfl
      · refine (h.parameter hs).bind fun hd => .eat hd (by decide) (fun _ _ _ hd => ?_)
          fun _ => .pure hd (Nat.le_succ n)
        refine .eat? hd (by decide) (fun _ _ _ hd => .pure hd ?_) fun _ => .pure hd ?_
        · exact Nat.le_add_right n 3
        · exact Nat.le_succ (n + 1)
    rw [← bind_assoc]
    refine params.bind fun hd => .check hd ?_
    split
    · exact .pure hd le_rfl
    · exact .fail hd _

theorem suffix (h : Agreeing x limit d deep) (decl : Option Node) :
    Agrees.Steps x limit d (suffixStep decl) (do return (← suffix? deep decl).map some) := by
  intro n s c hs
  rw [suffix?, bind_assoc]
  refine .peekKind hs fun k hk => ?_
  cases k with
  | lBracket =>
    rw [bind_assoc]
    refine .advance_of_ne hs (hk ▸ nofun) fun hd => ?_
    rw [bind_assoc]
    refine .check hd ?_
    split
    · simp only [pure_bind, bind_assoc]
      refine .congr ?_ (run_bind_ok (run_pure none _)) rfl
      exact .expect hd (by decide) fun _ _ _ hd => .took_some hd (by omega)
    · simp only [bind_assoc, pure_bind]
      refine (h.assignment hd).map.bind fun hd => ?_
      exact .expect hd (by decide) fun _ _ _ hd => .took_some hd (by omega)
  | lParen =>
    simp only [bind_assoc, pure_bind, Option.map_some]
    refine .advance_of_ne hs (hk ▸ nofun) fun hd => (h.parameterList hd).bind fun hd => ?_
    exact .expect hd (by decide) fun _ _ _ hd => .took_some hd (by omega)
  | _ => exact .took_none hs le_rfl

theorem suffixes_appeared (h : Agreeing x limit d deep) (base : Option Node)
    (hs : Stands x d n s c) :
    Agrees x limit d (fun decl => n + appeared base decl) (call (.suffixes base)) s
      (Parse.iterate (fun decl => return (← suffix? deep decl).map some) base) c := by
  refine .congr (.iterate_taken appeared appeared_le ?_ h.suffix hs) (run_call _ s) rfl
  intro decl
  cases decl <;> rfl

theorem suffixes (h : Agreeing x limit d deep) (base : Option Node) :
    Follows x limit d 0 (call (.suffixes base))
      (Parse.iterate (fun decl => return (← suffix? deep decl).map some) base) :=
  fun n _ _ hs => (h.suffixes_appeared base hs).mono fun _ => Nat.le_add_right n _

theorem directDeclarator (h : Agreeing x limit d deep) :
    Follows x limit d 1 (call .directDeclarator) (do
      let base ← declaratorBase deep
      Parse.iterate (fun decl => suffix? deep (some decl)) base) := by
  refine .call fun n s c hs => .bind (N := fun _ => n + 1) ?_ fun {base t c'} hd => ?_
  · refine .peekKind hs fun k hk => ?_
    cases k with
    | ident => exact .advance_of_ne hs (hk ▸ nofun) fun hd => .pure hd le_rfl
    | lParen =>
      refine .advance_of_ne hs (hk ▸ nofun) fun hd => (h.declarator hd).bind fun hd => ?_
      exact .expect hd (by decide) fun _ _ _ hd => .pure hd (by omega)
    | _ => exact .fail hs _
  · have wrapped := h.suffixes (some base) hd
    rw [Parse.iterate_map (w := some) (p := fun decl => suffix? deep (some decl))
      (fun decl => (map_eq_pure_bind _ _).symm) base] at wrapped
    refine .congr (wrapped.bind (g := fun o => pure (o.getD base)) fun hd => .pure hd le_rfl) rfl ?_
    simp

theorem declarator' (h : Agreeing x limit d deep) :
    Follows x limit d 1 declaratorBody (Grammar.declarator deep) := by
  refine fun n s c hs => (pointer hs).bind fun hd => ?_
  rw [← bind_assoc]
  exact (h.directDeclarator hd).bind fun hd => .pure hd (by omega)

/-- A declarator without a name takes at least one token, unless there is none. -/
theorem directAbstractDeclarator_took (h : Agreeing x limit d deep) (hs : Stands x d n s c) :
    Agrees x limit d (Agrees.took n) (call .directAbstractDeclarator) s (do
      let base ← Grammar.abstractBase deep
      Parse.iterate (fun decl => return (← suffix? deep decl).map some) base) c := by
  refine .congr (.bind (N := Agrees.took n) ?_ fun {base t c'} hd => ?_) (run_call _ s) rfl
  · refine .congr ?_ (run_bind_ok (hs.peek ▸ run_check .lParen s)) rfl
    refine .congr ?_ (run_bind_ok (run_look hs 1)) rfl
    refine .step (run_look hs 1) (Parse.ahead_apply c) ?_
    rw [startsNestedAbstract_eq]
    split
    next hb =>
      refine .advance_of_ne hs (Agrees.ne_eof rfl hb fun he => by rw [he]; rfl) fun hd => ?_
      refine (h.abstractDeclarator hd).bind fun hd => ?_
      exact .expect hd (by decide) fun _ _ _ hd => .took_some hd (by omega)
    next => exact .took_none hs le_rfl
  · exact (h.suffixes_appeared base hd).mono (took_appeared n base)

theorem directAbstractDeclarator (h : Agreeing x limit d deep) :
    Follows x limit d 0 (call .directAbstractDeclarator) (do
      let base ← Grammar.abstractBase deep
      Parse.iterate (fun decl => return (← suffix? deep decl).map some) base) :=
  fun n _ _ hs => (h.directAbstractDeclarator_took hs).mono fun decl => by
    cases decl
    · exact le_rfl
    · exact Nat.le_succ n

theorem abstractDeclarator' (h : Agreeing x limit d deep) :
    Follows x limit d 1 abstractBody (Grammar.abstractDeclarator deep) := by
  refine fun n s c hs => (pointer_grown hs).bind fun {levels t c'} hd => ?_
  rw [← bind_assoc]
  refine (h.directAbstractDeclarator_took hd).bind fun {direct t c'} hd => ?_
  cases levels with
  | cons level levels =>
    refine .pure hd ?_
    cases direct
    · exact le_rfl
    · exact Nat.le_succ (n + 1)
  | nil =>
    cases direct with
    | some decl => exact .pure hd le_rfl
    | none => exact .fail hd _

theorem memberDeclarator (h : Agreeing x limit d deep) :
    Follows x limit d 1 Machine.memberDeclarator (Grammar.memberDeclarator deep) := by
  intro n s c hs
  refine .congr ?_ (run_bind_ok (hs.peek ▸ run_check .colon s)) rfl
  split
  next colon =>
    refine .congr ?_ (run_bind_ok (run_pure none s)) rfl
    refine .eat? hs (by decide) (fun _ _ _ hd => ?_) fun hn => absurd (beq_iff_eq.mp colon) hn
    exact (h.conditional' hd).bind fun hd => .pure hd (by omega)
  next colon =>
    have none := Parse.eat?_apply .colon c
    rw [if_neg colon] at none
    refine .congr ?_ rfl (Parse.bind_of_ok none)
    refine .bind_map (h.declarator hs) fun hd => ?_
    refine .eat? hd (by decide) (fun _ _ _ hd => ?_) fun _ => ?_
    · exact (h.conditional' hd).bind fun hd => .pure hd (by omega)
    · exact .pure hd le_rfl

theorem member (h : Agreeing x limit d deep) :
    Follows x limit d 1 (call .member) (Grammar.member deep) := by
  refine .call fun n s c hs => (h.specQuals hs).bind fun hd => .check hd ?_
  split
  · exact .skip (.expect hd (by decide) fun _ _ _ hd => .pure hd (by omega))
  · refine (Agrees.commaList h.memberDeclarator hd).bind fun hd => ?_
    exact .expect hd (by decide) fun _ _ _ hd => .pure hd (by omega)

theorem struct' (h : Agreeing x limit d deep) :
    Follows x limit d 1 structBody (Grammar.structSpecifier deep) := by
  refine fun n s c hs => .advance hs fun hd => ?_
  refine .eat? hd (by decide) (fun _ _ _ hd => ?_) fun _ => ?_
  · refine .eat hd (by decide) (fun _ _ _ hd => ?_) fun _ => .pure hd le_rfl
    refine (Agrees.manyUntil h.member hd).bind fun hd => ?_
    exact .expect hd (by decide) fun _ _ _ hd => .pure hd (by omega)
  · refine .eat hd (by decide) (fun _ _ _ hd => ?_) fun _ => .fail hd _
    refine (Agrees.manyUntil h.member hd).bind fun hd => ?_
    exact .expect hd (by decide) fun _ _ _ hd => .pure hd (by omega)

theorem initializer' (h : Agreeing x limit d deep) :
    Follows x limit d 1 initializerBody (Grammar.initializer deep) := by
  refine fun n s c hs => .eat? hs (by decide) (fun _ _ _ hd => ?_) fun _ => h.assignment hs
  refine (Agrees.bracedItems h.initializer hd).bind fun hd => ?_
  exact .expect hd (by decide) fun _ _ _ hd => .pure hd (by omega)

theorem initDeclarator (h : Agreeing x limit d deep) :
    Follows x limit d 1 (call .initDeclarator) (Grammar.initDeclarator deep) := by
  refine .call fun n s c hs => (h.declarator hs).bind fun hd => ?_
  refine .eat hd (by decide) (fun _ _ _ hd => ?_) fun _ => .skip (.pure hd le_rfl)
  exact (h.initializer hd).map.bind fun hd => .pure hd (by omega)

theorem staticAssert (h : Agreeing x limit d deep) :
    Follows x limit d 1 (call .staticAssert) (Grammar.staticAssert deep) := by
  refine .call fun n s c hs => .advance hs fun hd => .expect hd (by decide) fun _ _ _ hd => ?_
  refine (h.conditional' hd).bind fun hd => .expect hd (by decide) fun _ _ _ hd => ?_
  rw [Parse.strings, bind_assoc]
  refine .expect hd (by decide) fun _ _ _ hd => ?_
  simp only [bind_assoc, pure_bind]
  refine (Agrees.many_eat? (by decide) hd).bind fun hd => ?_
  refine .expect hd (by decide) fun _ _ _ hd => ?_
  exact .expect hd (by decide) fun _ _ _ hd => .pure hd (by omega)

theorem declaration (h : Agreeing x limit d deep) :
    Follows x limit d 1 (call .declaration) (Grammar.declaration deep) := by
  refine .call fun n s c hs => .check hs ?_
  split
  · exact h.staticAssert hs
  refine (h.declSpecs hs).bind fun hd => .check hd ?_
  split
  · refine .skip ?_
    exact .eat? hd (by decide) (fun _ _ _ hd => .pure hd (by omega)) fun _ => .fail hd _
  · refine (Agrees.commaList h.initDeclarator hd).bind fun hd => ?_
    exact .eat? hd (by decide) (fun _ _ _ hd => .pure hd (by omega)) fun _ => .fail hd _

end Agreeing

end Machine

end CPretty
