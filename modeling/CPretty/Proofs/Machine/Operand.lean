import CPretty.Proofs.Grammar.Completeness
import CPretty.Proofs.Machine.Specifier

namespace CPretty.Machine

open Program hiding pure bind
open Grammar

variable {x : Input} {limit d n : Nat} {s t : State} {c c' : Cursor} {deep : Nested}

def size? (deep : Nested) : Parse (Option Node) := do
  if (← Parse.peekKind) == .kwSizeof then return some (← sizeofType deep) else return none

/-- An operator with its operand, or a primary expression with what follows it. -/
def plainOperand (deep : Nested) : Parse Node := do
  if (← Parse.peekKind).is .unary then operator deep else Grammar.postfixed deep

/-- The operators before an operand, and the operand if it is the size of a type. -/
def operators (deep : Nested) : Parse (List Token × Option Node) := do
  let ops ← Parse.many prefixOperator?
  return (ops, ← size? deep)

theorem unaryBody_eq (deep : Nested) :
    Grammar.unaryBody deep = (do
      match ← size? deep with
      | some body => return body
      | none => plainOperand deep) := by
  funext c
  have kind := Parse.peekKind_apply c
  rw [Grammar.unaryBody, size?, bind_assoc, Parse.bind_of_ok kind, Parse.bind_of_ok kind]
  split
  · simp
  · rw [pure_bind]
    dsimp only
    rw [plainOperand, Parse.bind_of_ok kind]

theorem unary_eq (deep : Nested) :
    Grammar.unary deep = (do
      let (ops, size) ← operators deep
      match size with
      | some body => return ops.foldr Node.prefixed body
      | none => return ops.foldr Node.prefixed (← plainOperand deep)) := by
  rw [Grammar.unary, operators, unaryBody_eq, bind_assoc]
  congr 1
  funext ops
  rw [bind_assoc, bind_assoc]
  congr 1
  funext size
  cases size <;> simp

/-- Whether the size of a type was read behind the operators. -/
def sizeTaken (_ : List Token) (found : List Token × Option Node) : Nat :=
  if found.2.isSome then 1 else 0

/-- The rest of the operators before an operand, and the operand if it is the size of a type. -/
def prefixRest (deep : Nested) (m : Nat) (ops : List Token) :
    Parse (List Token × Option Node) := do
  let more ← Parse.manyUpTo prefixOperator? m
  return (ops ++ more, ← size? deep)

/-- The next operator before an operand, or the end of them. -/
def prefixNext (deep : Nested) (_ : Nat) (ops : List Token) :
    Parse (List Token ⊕ List Token × Option Node) := do
  match ← prefixOperator? with
  | some op => return .inl (ops ++ [op])
  | none => return .inr (ops, ← size? deep)

theorem prefixRest_succ (deep : Nested) (m : Nat) (ops : List Token) :
    prefixRest deep (m + 1) ops =
      prefixNext deep m ops >>= Sum.elim (prefixRest deep m) pure := by
  rw [prefixRest, prefixNext, Parse.manyUpTo, bind_assoc, bind_assoc]
  congr 1
  funext found
  cases found <;> simp [prefixRest]

theorem startsSizeofType_eq (hk : c.peek.kind = .kwSizeof) :
    startsSizeofType c.ahead =
      (c.kindAt 1 == .lParen && Lookahead.startsTypeName false (c.ahead.drop 2)) := by
  rw [Cursor.kindAt]
  obtain hl | ⟨a, hl⟩ | ⟨a, b, ts, hl⟩ := ahead_cases c
  · rw [hl]
    rfl
  · rw [hl]
    rfl
  · have first : a.kind = .kwSizeof := by rwa [Cursor.peek, hl, List.headD_cons] at hk
    rw [hl, startsSizeofType, first, beq_self_eq_true, Bool.true_and]
    rfl

theorem peek_advance {k : Kind} (hk : c.kindAt 1 = k) (he : k ≠ .eof) :
    c.advance.peek.kind = k := by
  rw [Cursor.kindAt] at hk
  rw [Cursor.advance, Cursor.peek]
  obtain hl | ⟨a, hl⟩ | ⟨a, b, ts, hl⟩ := ahead_cases c
  · rw [hl] at hk
    exact absurd hk.symm he
  · rw [hl] at hk
    exact absurd hk.symm he
  · rw [hl] at hk ⊢
    exact hk

namespace Agreeing

theorem prefixOperator {m : Nat} {ops : List Token}
    (hq : prefixOperator? c = .ok (some c.peek, c.advance)) (hs : Stands x d n s c)
    (hk : c.peek.kind ≠ .eof) :
    Agrees x limit d (Agrees.more n (sizeTaken ops)) (do return .inl (ops ++ [← advance])) s
      (prefixNext deep m ops) c := by
  have operator : prefixNext deep m ops c =
      (do return .inl (ops ++ [← Parse.advance]) : Parse _) c := by
    rw [Parse.bind_of_ok (Parse.advance_apply c)]
    exact Parse.bind_of_ok hq
  refine .congr ?_ rfl operator
  exact .advance_of_ne hs hk fun hd => .pure hd (Nat.le_refl _)

theorem prefixSize (h : Agreeing x limit d deep) {m : Nat} {ops : List Token}
    (hq : prefixOperator? c = .ok (none, c)) (hs : Stands x d n s c)
    (hk : c.peek.kind = .kwSizeof) (paren : c.kindAt 1 = .lParen) :
    Agrees x limit d (Agrees.more n (sizeTaken ops)) (do
      let keyword ← advance
      let _ ← advance
      let name ← call .typeName
      let close ← Machine.expect .rParen
      return .inr (ops, some (Node.between keyword.span close.span
        (.unary keyword.text name true)))) s (prefixNext deep m ops) c := by
  have size : prefixNext deep m ops c = (do
      let body ← sizeofType deep
      return .inr (ops, some body) : Parse _) c := by
    refine (Parse.bind_of_ok hq).trans ?_
    simp only [size?, bind_assoc, Parse.bind_of_ok (Parse.peekKind_apply c), hk]
    simp only [beq_self_eq_true, if_true, bind_assoc, pure_bind]
  refine .congr ?_ rfl size
  rw [sizeofType]
  simp only [bind_assoc, pure_bind]
  refine .advance_of_ne hs (hk ▸ nofun) fun hd => ?_
  refine .take hd (peek_advance paren nofun) (by decide) fun hd => (h.typeName hd).bind fun hd => ?_
  exact .expect hd (by decide) fun _ _ _ hd => .pure hd (by simp [Agrees.more, sizeTaken])

theorem operators (h : Agreeing x limit d deep) (hs : Stands x d n s c) :
    Agrees x limit d (fun found => n + sizeTaken [] found) (loop prefixStep []) s
      (Machine.operators deep) c := by
  refine .loop sizeTaken (prefixRest deep) (prefixNext deep) ?_ (prefixRest_succ deep) ?_ hs
    fun {m} _ ops n s c _ hs => ?_
  · intro ops found
    rw [sizeTaken]
    split <;> omega
  · simp only [prefixRest, List.nil_append]
    rfl
  have found := prefixOperator?_apply c
  refine .congr ?_ (run_bind_ok (hs.peek ▸ run_peekKind s)) rfl
  split
  next count =>
    rw [count, Bool.true_or, if_pos rfl] at found
    exact prefixOperator found hs (Agrees.ne_eof rfl count fun he => by rw [he]; rfl)
  next count =>
    rw [eq_false_of_ne_true count, Bool.false_or] at found
    split
    next size =>
      have keyword : c.peek.kind = .kwSizeof := beq_iff_eq.mp size
      rw [size, Bool.true_and, startsSizeofType_eq keyword] at found
      refine .congr ?_ (run_bind_ok (run_look hs 1)) rfl
      refine .congr ?_ (run_bind_ok (run_startsTypeName hs 2 false)) rfl
      split
      next paren =>
        rw [paren] at found
        rw [Bool.and_eq_true, beq_iff_eq] at paren
        exact h.prefixSize found hs keyword paren.1
      next paren =>
        rw [eq_false_of_ne_true paren] at found
        exact prefixOperator found hs (keyword ▸ nofun)
    next size =>
      rw [eq_false_of_ne_true size] at found
      refine .congr (.pure hs ?_) rfl ((Parse.bind_of_ok found).trans ?_)
      · simp [Agrees.more, sizeTaken]
      · simp only [size?, bind_assoc, Parse.bind_of_ok (Parse.peekKind_apply c), size]
        rfl

theorem plainUnary (h : Agreeing x limit d deep) :
    Follows x limit d 1 Machine.plainUnary (plainOperand deep) := by
  refine fun n s c hs => .peekKind hs fun k hk => ?_
  split
  next hg =>
    exact .advance_of_ne hs (Agrees.ne_eof hk hg (by rintro rfl; rfl)) fun hd =>
      (h.operand hd).bind fun hd => .pure hd (by omega)
  next => exact h.postfixed hs

theorem unary (h : Agreeing x limit d deep) :
    Follows x limit d 1 (call .unary) (Grammar.unary deep) := by
  refine .call fun n s c hs => ?_
  rw [unary_eq]
  refine (h.operators hs).bind fun {found t c'} hd => ?_
  obtain ⟨ops, _ | body⟩ := found
  · exact (h.plainUnary hd).bind fun hd => .pure hd le_rfl
  · exact .pure hd le_rfl

theorem operand' (h : Agreeing x limit d deep) :
    Follows x limit d 1 castBody (Grammar.operand deep) := by
  refine fun n s c hs => (Agrees.many (fun n s c hs => ?_) hs).bind fun hd =>
    (h.unary hd).bind fun hd => .pure hd le_rfl
  refine .check hs (.step (run_startsTypeName hs 1 true) rfl ?_)
  rw [List.drop_one]
  split
  next hb =>
    refine .advance_of_ne hs (Agrees.ne_eof rfl hb ?_) fun hd => (h.typeName hd).bind fun hd => ?_
    · intro he
      rw [he]
      rfl
    · exact .expect hd (by decide) fun _ _ _ hd => .took_some hd (by omega)
  next => exact .took_none hs le_rfl

end Agreeing

end CPretty.Machine
