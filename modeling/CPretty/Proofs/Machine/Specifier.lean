import CPretty.Proofs.Machine.Expression

namespace CPretty.Machine

open Program hiding pure bind
open Grammar

variable {x : Input} {limit d n : Nat} {s t : State} {c c' : Cursor} {deep : Nested}

theorem ahead_cases (c : Cursor) :
    c.ahead = [] ∨ (∃ a, c.ahead = [a]) ∨ ∃ a b ts, c.ahead = a :: b :: ts := by
  rcases c.ahead with _ | ⟨a, _ | ⟨b, ts⟩⟩
  · exact .inl rfl
  · exact .inr (.inl ⟨a, rfl⟩)
  · exact .inr (.inr ⟨a, b, ts, rfl⟩)

theorem any_kindAt (c : Cursor) (i : Nat) {p : Kind → Bool} (hp : p .eof = false) :
    c.ahead[i]?.any (fun t => p t.kind) = p (c.kindAt i) := by
  rw [Cursor.kindAt]
  cases c.ahead[i]? with
  | none => exact hp.symm
  | some t => rfl

/-- The rest of a list of specifiers, of which some were read before. -/
def specifierRest (deep : Nested) (m : Nat) (given : List Node × Bool) : Parse (List Node) :=
  (given.1 ++ ·) <$> specifiersUpTo deep m given.2

theorem specifierRest_nil (deep : Nested) (m : Nat) (seenType : Bool) :
    specifierRest deep m ([], seenType) = specifiersUpTo deep m seenType := by
  simp only [specifierRest, List.nil_append, id_map']

def specifierNext (deep : Nested) (m : Nat) (given : List Node × Bool) :
    Parse (List Node × Bool ⊕ List Node) := do
  match ← specifier? deep (do typeNameOf deep (← specifiersUpTo deep m false)) given.2 with
  | none => return .inr given.1
  | some (spec, seenType) => return .inl (given.1 ++ [spec], seenType)

theorem specifierRest_succ (deep : Nested) (m : Nat) (given : List Node × Bool) :
    specifierRest deep (m + 1) given =
      specifierNext deep m given >>= Sum.elim (specifierRest deep m) pure := by
  rw [specifierRest, specifiersUpTo, specifierNext, map_eq_pure_bind, bind_assoc, bind_assoc]
  congr 1
  funext found
  cases found with
  | none => simp
  | some found => simp [specifierRest]

/-- A list of specifiers, of which there has to be at least one. -/
def nonempty (q : Parse (List Node)) : Parse (List Node) := do
  let specs ← q
  if specs.isEmpty then Parse.fail [.production "declaration specifiers"] else return specs

namespace Agreeing

theorem enumerator (h : Agreeing x limit d deep) :
    Follows x limit d 1 enumeratorItem (Grammar.enumerator deep) := by
  refine fun n s c hs => .expect hs (by decide) fun _ _ _ hd => ?_
  refine .eat hd (by decide) (fun _ _ _ hd => ?_) fun _ => ?_
  · exact (h.conditional' hd).map.bind fun hd => .pure hd (by omega)
  · exact .skip (.pure hd le_rfl)

theorem enumSpecifier (h : Agreeing x limit d deep) :
    Follows x limit d 1 (call .enumSpecifier) (Grammar.enumSpecifier deep) := by
  refine .call fun n s c hs => .advance hs fun hd => ?_
  refine .eat? hd (by decide) (fun _ _ _ hd => ?_) fun _ => ?_
  · refine .eat hd (by decide) (fun _ _ _ hd => ?_) fun _ => .pure hd le_rfl
    refine (Agrees.bracedItems h.enumerator hd).bind fun hd => ?_
    exact .expect hd (by decide) fun _ _ _ hd => .pure hd (by omega)
  · refine .eat hd (by decide) (fun _ _ _ hd => ?_) fun _ => .fail hd _
    refine (Agrees.bracedItems h.enumerator hd).bind fun hd => ?_
    exact .expect hd (by decide) fun _ _ _ hd => .pure hd (by omega)

theorem atomicSpecifier {q : Parse Node} (hs : Stands x d n s c)
    (hq : ∀ {n t c'}, c'.ahead.length < c.ahead.length → Stands x d n t c' →
      Agrees x limit d (fun _ => n + 1) (call .typeName) t q c') :
    Agrees x limit d (fun _ => n + 1) (call .atomicSpecifier) s (Grammar.atomicSpecifier q) c := by
  refine .congr ?_ (run_call _ s) rfl
  refine .advance hs.here fun hd => .expect hd (by decide) fun _ _ _ hd => ?_
  refine (hq (hs.length_lt hd) hd).bind fun hd => ?_
  have := hs.after
  exact .expect hd (by decide) fun _ _ _ hd => .pure hd (by omega)

theorem specifierItems {q : Parse (List Node)}
    (hq : Agrees x limit d (fun r => n + Agrees.grown [] r)
      (loop specifierStep ([], false)) s q c) :
    Agrees x limit d (fun _ => n + 1) (call .specifiers) s (nonempty q) c := by
  refine .congr (hq.bind fun {specs t c'} hd => ?_) (run_call _ s) rfl
  cases specs with
  | nil => exact .fail hd _
  | cons spec specs => exact .pure hd le_rfl

theorem specifiers (wrap : List Node → Shape Node) {q : Parse (List Node)}
    (hq : Agrees x limit d (fun r => n + Agrees.grown [] r)
      (loop specifierStep ([], false)) s q c) :
    Agrees x limit d (fun _ => n + 1) (Node.collect wrap <$> call .specifiers) s
      (do specifierNode wrap (← q)) c := by
  refine (specifierItems hq).map.congr rfl (congrFun ?_ c)
  rw [nonempty, map_bind]
  congr 1
  funext specs
  cases specs <;> rfl

theorem typeNameOf (h : Agreeing x limit d deep) {q : Parse (List Node)}
    (hq : Agrees x limit d (fun r => n + Agrees.grown [] r)
      (loop specifierStep ([], false)) s q c) :
    Agrees x limit d (fun _ => n + 1) (call .typeName) s
      (do Grammar.typeNameOf deep (← q)) c := by
  simp only [Grammar.typeNameOf]
  rw [← bind_assoc]
  refine .congr ((specifiers _ hq).bind fun hd => .peekKind hd fun k _ => ?_) (run_call _ s) rfl
  split
  · exact (h.abstractDeclarator hd).bind fun hd => .pure hd (by omega)
  · exact .pure hd le_rfl

theorem specifierList (h : Agreeing x limit d deep) (hs : Stands x d n s c) :
    Agrees x limit d (fun r => n + Agrees.grown [] r)
      (loop specifierStep ([], false)) s (Grammar.specifierList deep) c := by
  refine .loop (a := ([], false)) (fun given => Agrees.grown given.1) (specifierRest deep)
    (specifierNext deep) (fun given => Agrees.grown_le given.1) (specifierRest_succ deep) ?_ hs
    fun {m} ih (specs, seenType) n s c hm hs => ?_
  · rw [specifierRest_nil]
    rfl
  · rw [specifierNext, specifier?, bind_assoc]
    refine .peekKind hs fun k hk => ?_
    rw [bind_assoc]
    refine .kindAt hs 1 ?_
    rw [any_kindAt c 1 (p := (· == .lParen)) rfl]
    split
    · -- The type name inside is read with the bound for the specifiers that follow it.
      simp only [bind_assoc, pure_bind]
      refine (atomicSpecifier hs fun hc hd => h.typeNameOf ?_).bind fun hd => .pure hd le_rfl
      have list := ih (a := ([], false)) (Nat.lt_of_lt_of_le hc hm) hd
      rwa [specifierRest_nil] at list
    split
    next hg =>
      simp only [bind_assoc, pure_bind]
      exact .advance_of_ne hs (Agrees.ne_eof hk hg (by rintro rfl; rfl)) fun hd => .pure hd le_rfl
    split
    next hg =>
      simp only [bind_assoc, pure_bind]
      exact .advance_of_ne hs (Agrees.ne_eof hk hg (by rintro rfl; rfl)) fun hd => .pure hd le_rfl
    split
    · simp only [bind_assoc, pure_bind]
      exact (h.struct hs).bind fun hd => .pure hd le_rfl
    split
    · simp only [bind_assoc, pure_bind]
      exact (h.enumSpecifier hs).bind fun hd => .pure hd le_rfl
    split
    next hg =>
      simp only [bind_assoc, pure_bind]
      exact .advance_of_ne hs (Agrees.ne_eof hk hg (by rintro rfl; rfl)) fun hd => .pure hd le_rfl
    · exact .pure hs (Nat.le_of_eq (congrArg (n + ·) (Agrees.grown_self specs)))

theorem typeName (h : Agreeing x limit d deep) :
    Follows x limit d 1 (call .typeName) (Grammar.typeName deep) :=
  fun _ _ _ hs => h.typeNameOf (h.specifierList hs)

end Agreeing

end CPretty.Machine
