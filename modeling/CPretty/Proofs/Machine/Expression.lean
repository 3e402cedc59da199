import CPretty.Proofs.Grammar.Soundness.Expression
import CPretty.Proofs.Machine.Lookahead
import CPretty.Proofs.Machine.Repetition

namespace CPretty.Machine

open Program hiding pure bind
open Grammar

variable {x : Input} {limit d k n : Nat} {α β : Type} {s t : State} {c c' : Cursor} {deep : Nested}

theorem assignAll_nil : assignAll [] = id := rfl

theorem assignAll_concat (targets : List (Node × Token)) (target : Node) (op : Token)
    (value : Node) : assignAll (targets ++ [(target, op)]) value =
      assignAll targets (Node.assign target op value) := by
  rw [assignAll, List.foldr_append]
  rfl

/-- The rest of an assignment to targets that were read before. -/
def assignmentRest (deep : Nested) (m : Nat) (targets : List (Node × Token)) : Parse Node :=
  assignAll targets <$> assignmentUpTo deep (m - 1)

/-- The next target of an assignment, or the end of it. -/
def assignmentNext (deep : Nested) : Nat → List (Node × Token) →
    Parse (List (Node × Token) ⊕ Node)
  | 0, targets => (.inr ∘ assignAll targets) <$> Grammar.conditional deep
  | _ + 1, targets => do
    let value ← Grammar.conditional deep
    if (← Parse.peekKind).is .assignment then
      if isTarget value then
        let op ← Parse.advance
        return .inl (targets ++ [(value, op)])
      else Parse.fail [.production "unary expression before assignment operator"]
    else return .inr (assignAll targets value)

theorem assignmentRest_succ (deep : Nested) (m : Nat) (targets : List (Node × Token)) :
    assignmentRest deep (m + 1) targets =
      assignmentNext deep m targets >>= Sum.elim (assignmentRest deep m) pure := by
  cases m with
  | zero =>
    simp only [assignmentRest, assignmentNext, Nat.zero_add, Nat.sub_self, assignmentUpTo,
      map_eq_pure_bind, bind_assoc, pure_bind, Function.comp_apply, Sum.elim_inr]
  | succ m =>
    simp only [assignmentRest, assignmentNext, Nat.add_sub_cancel, assignmentUpTo,
      map_eq_pure_bind, bind_assoc]
    congr 1
    funext value
    congr 1
    funext kind
    split
    · split
      · simp only [bind_assoc, pure_bind, Sum.elim_inl, assignmentRest, Nat.add_sub_cancel,
          map_eq_pure_bind, assignAll_concat]
      · rfl
    · simp only [pure_bind, Sum.elim_inr]

theorem Follows.stuck {p : Program α} {q : Parse α} {f : α → Program β} {g : α → Parse β}
    {M : β → Nat} (h : Follows x limit d 1 p q) (hs : Stands x d n s c) (hc : c.ahead.length ≤ 0) :
    Agrees x limit d M (p >>= f) s (q >>= g) c := by
  cases h hs.here with
  | ok run parse stands => exact absurd (hs.length_lt stands) (by omega)
  | error run parse => exact .stop run parse

/-- The productions that count as a level agree with the parsers of a record. -/
structure Agreeing (x : Input) (limit d : Nat) (deep : Nested) : Prop where
  operand : Follows x limit d 1 (call .cast) deep.operand
  expression : Follows x limit d 1 (nested (call .expression)) deep.expression
  conditional : Follows x limit d 1 (nested (call .conditional)) deep.conditional
  struct : Follows x limit d 1 (call .structSpecifier) deep.struct
  initializer : Follows x limit d 1 (call .initializer) deep.initializer
  declarator : Follows x limit d 1 (call .declarator) deep.declarator
  abstractDeclarator : Follows x limit d 1 (call .abstractDeclarator) deep.abstractDeclarator
  statement : Follows x limit d 1 (call .statement) deep.statement

namespace Agreeing

theorem binaryStep {i : Fin ladder.length} {q : Parse Node}
    (h : Follows x limit d 1 (call (.operand i)) q) :
    Follows x limit d 1 (call (.binary i)) (do
      let first ← q
      first |> Parse.iterate fun lhs => do
        if (ladder.get i).accepts (← Parse.peekKind) then
          let op ← Parse.advance
          return some (Node.binary lhs op (← q))
        else return none) := by
  refine .call fun n s c hs => (h hs).bind fun hd => .iterate (fun lhs n s c hs => ?_) hd
  refine .peekKind hs fun k hk => ?_
  split
  next ha =>
    refine .advance_of_ne hs (Agrees.ne_eof hk ha ?_) fun hd => ?_
    · rintro rfl
      exact eq_false_of_ne_true (accepts_eof (List.get_mem ladder i))
    · exact (h hd).bind fun hd => .took_some hd (Nat.le_succ _)
  next => exact .took_none hs le_rfl

theorem operandOf (h : Agreeing x limit d deep) (i : Fin ladder.length)
    (hi : ∀ tighter : i + 1 < ladder.length, Follows x limit d 1 (call (.binary ⟨i + 1, tighter⟩))
      (Grammar.binary deep.operand (ladder.drop (i + 1)))) :
    Follows x limit d 1 (call (.operand i))
      (Grammar.binary deep.operand (ladder.drop (i + 1))) := by
  refine .call ?_
  rw [Production.body, operandBody]
  split
  next tighter => exact hi tighter
  next last =>
    rw [List.drop_eq_nil_of_le (Nat.le_of_not_lt last)]
    exact h.operand

theorem binary (h : Agreeing x limit d deep) (i : Fin ladder.length) :
    Follows x limit d 1 (call (.binary i)) (Grammar.binary deep.operand (ladder.drop i)) := by
  rw [List.drop_eq_getElem_cons i.isLt]
  exact binaryStep (h.operandOf i fun tighter => h.binary ⟨i + 1, tighter⟩)
termination_by ladder.length - i

theorem operandLevel (h : Agreeing x limit d deep) (i : Fin ladder.length) :
    Follows x limit d 1 (call (.operand i))
      (Grammar.binary deep.operand (ladder.drop (i + 1))) :=
  h.operandOf i fun tighter => h.binary ⟨i + 1, tighter⟩

theorem conditional' (h : Agreeing x limit d deep) :
    Follows x limit d 1 (call .conditional) (Grammar.conditional deep) := by
  refine .call fun n s c hs => (h.binary _ hs).bind fun hd => ?_
  refine .eat hd (by decide) (fun _ _ _ hd => ?_) fun _ => .pure hd le_rfl
  refine (h.expression hd).bind fun hd => .expect hd (by decide) fun _ _ _ hd => ?_
  exact (h.conditional hd).bind fun hd => .pure hd (by omega)

theorem assignment (h : Agreeing x limit d deep) :
    Follows x limit d 1 (call .assignment) (Grammar.assignment deep) := by
  refine .call fun n s c hs => .loop (fun _ _ => 1) (assignmentRest deep) (assignmentNext deep)
    (fun _ _ => le_rfl) (assignmentRest_succ deep) ?_ hs fun {m} _ targets n s c hm hs => ?_
  · rw [assignmentRest, assignAll_nil, id_map]
    rfl
  · cases m with
    | zero =>
      -- The parser asks for no operator here, but with no token left there is no operand either.
      rw [assignmentNext, map_eq_pure_bind]
      exact h.conditional'.stuck hs hm
    | succ m =>
      refine (h.conditional' hs).bind fun hd => .peekKind hd fun k hk => ?_
      split
      next ha =>
        split
        · exact .advance_of_ne hd (Agrees.ne_eof hk ha (by rintro rfl; rfl)) fun hd =>
            .pure hd (Nat.le_succ _)
        · exact .fail hd _
      next => exact .pure hd le_rfl

theorem expression' (h : Agreeing x limit d deep) :
    Follows x limit d 1 (call .expression) (Grammar.expression deep) :=
  .call fun _ _ _ hs => (Agrees.commaList h.assignment hs).bind fun hd => .pure hd le_rfl

theorem condition (h : Agreeing x limit d deep) :
    Follows x limit d 1 (call .condition) (Grammar.condition deep) :=
  .call fun _ _ _ hs => .expect hs (by decide) fun _ _ _ hd => (h.expression' hd).bind fun hd =>
    .expect hd (by decide) fun _ _ _ hd => .pure hd (by omega)

theorem arguments (h : Agreeing x limit d deep) :
    Follows x limit d 0 (call .arguments) (Grammar.arguments deep) := by
  refine .call fun n s c hs => .check hs ?_
  split
  · exact .pure hs le_rfl
  · refine (Agrees.commaList h.assignment hs).bind fun hd => .check hd ?_
    split
    · exact .pure hd (by omega)
    · exact .fail hd _

theorem primary (h : Agreeing x limit d deep) :
    Follows x limit d 1 (call .primary) (Grammar.primary deep) := by
  refine .call fun n s c hs => .peekKind hs fun k hk => ?_
  have some (hk' : k ≠ .eof) : c.peek.kind ≠ .eof := hk ▸ hk'
  cases k with
  | ident | constant => exact .advance_of_ne hs (some nofun) fun hd => .pure hd le_rfl
  | stringLiteral =>
    rw [Parse.strings, bind_assoc]
    refine .take hs hk (by decide) fun hd => ?_
    rw [bind_assoc]
    exact (Agrees.many_eat? (by decide) hd).bind fun hd => .pure hd le_rfl
  | lParen =>
    refine .advance_of_ne hs (some nofun) fun hd => (h.expression' hd).bind fun hd => ?_
    exact .expect hd (by decide) fun _ _ _ hd => .pure hd (by omega)
  | _ => exact .fail hs _

theorem postfixed (h : Agreeing x limit d deep) :
    Follows x limit d 1 (call .postfixed) (Grammar.postfixed deep) := by
  refine .call fun n s c hs => (h.primary hs).bind fun hd => .iterate (fun recv n s c hs => ?_) hd
  refine .peekKind hs fun k hk => ?_
  have some (hk' : k ≠ .eof) : c.peek.kind ≠ .eof := hk ▸ hk'
  cases k with
  | lBracket =>
    refine .advance_of_ne hs (some nofun) fun hd => (h.expression' hd).bind fun hd => ?_
    exact .expect hd (by decide) fun _ _ _ hd => .took_some hd (by omega)
  | lParen =>
    refine .advance_of_ne hs (some nofun) fun hd => (h.arguments hd).bind fun hd => ?_
    exact .expect hd (by decide) fun _ _ _ hd => .took_some hd (by omega)
  | dot | arrow =>
    refine .advance_of_ne hs (some nofun) fun hd => ?_
    exact .expect hd (by decide) fun _ _ _ hd => .took_some hd (by omega)
  | plusPlus | minusMinus =>
    exact .advance_of_ne hs (some nofun) fun hd => .took_some hd le_rfl
  | _ => exact .took_none hs le_rfl

end Agreeing

end CPretty.Machine
