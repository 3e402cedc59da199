import CPretty.Proofs.Machine.Declaration
import CPretty.Proofs.Machine.Operand

namespace CPretty.Machine

open Program hiding pure bind
open Grammar

variable {x : Input} {limit d n : Nat} {s t : State} {c c' : Cursor} {deep : Nested}

/-- An arm of an `if` ladder: its keyword, condition and statement. -/
abbrev Arm := Token × Node × Node

/-- The node of the arms of a ladder, the first of which is the outermost. -/
def stack (arms : List Arm) (no : Option Node) : Option Node :=
  arms.foldr (fun arm no => some (ifArm arm no)) no

def armOf (deep : Nested) : Parse Arm := do
  let keyword ← Parse.advance
  let cond ← Grammar.condition deep
  return (keyword, cond, ← deep.statement)

/-- The arms after an `if` statement, at most `m` of them, and the statement of the last `else`. -/
def ladderUpTo (deep : Nested) : Nat → Parse (List Arm × Option Node)
  | 0 => do
    if ← Parse.eat .kwElse then return ([], some (← deep.statement)) else return ([], none)
  | m + 1 => do
    if ← Parse.eat .kwElse then
      if ← Parse.check .kwIf then
        let arm ← armOf deep
        let (arms, no) ← ladderUpTo deep m
        return (arm :: arms, no)
      else return ([], some (← deep.statement))
    else return ([], none)

/-- What stands behind an arm: a ladder of at most `m` further arms, a statement or nothing. -/
def elseUpTo (deep : Nested) (m : Nat) : Parse (Option Node) := do
  if ← Parse.eat .kwElse then
    if ← Parse.check .kwIf then some <$> ifStatementUpTo deep m else some <$> deep.statement
  else return none

theorem ifStatementUpTo_succ (deep : Nested) (m : Nat) :
    ifStatementUpTo deep (m + 1) = (do
      let arm ← armOf deep
      return ifArm arm (← elseUpTo deep m)) := by
  rw [ifStatementUpTo, armOf]
  simp only [bind_assoc, pure_bind, elseUpTo]
  congr 1
  funext keyword
  congr 1
  funext cond
  congr 1
  funext yes
  congr 1
  funext follows
  cases follows with
  | false => rfl
  | true =>
    simp only [if_true, bind_assoc]
    congr 1
    funext arm
    cases arm <;> rfl

theorem elseUpTo_eq (deep : Nested) (m : Nat) :
    elseUpTo deep m = (fun found => stack found.1 found.2) <$> ladderUpTo deep m := by
  induction m with
  | zero =>
    rw [elseUpTo, ladderUpTo, map_bind]
    congr 1
    funext follows
    cases follows with
    | false => rfl
    | true =>
      simp [ifStatementUpTo, stack]
      rfl
  | succ m ih =>
    rw [elseUpTo, ladderUpTo, ifStatementUpTo_succ, ih]
    simp only [map_bind]
    congr 1
    funext follows
    cases follows with
    | false => rfl
    | true =>
      simp only [if_true, map_bind]
      congr 1
      funext again
      cases again <;> simp [stack]

/-- The rest of a ladder, of which some arms were read before. -/
def ladderRest (deep : Nested) (m : Nat) (arms : List Arm) : Parse (List Arm × Option Node) := do
  let (more, no) ← ladderUpTo deep m
  return (arms ++ more, no)

def ladderNext (deep : Nested) (_ : Nat) (arms : List Arm) :
    Parse (List Arm ⊕ List Arm × Option Node) := do
  if ← Parse.eat .kwElse then
    if ← Parse.check .kwIf then return .inl (arms ++ [← armOf deep])
    else return .inr (arms, some (← deep.statement))
  else return .inr (arms, none)

theorem ladderRest_succ (deep : Nested) (m : Nat) (arms : List Arm) :
    ladderRest deep (m + 1) arms =
      ladderNext deep m arms >>= Sum.elim (ladderRest deep m) pure := by
  rw [ladderRest, ladderNext, ladderUpTo, bind_assoc, bind_assoc]
  congr 1
  funext follows
  cases follows with
  | false => simp
  | true =>
    simp only [if_true, bind_assoc]
    congr 1
    funext again
    cases again <;> simp [ladderRest]

/-- A function definition, with specifiers or without any. -/
def definitionOf (deep : Nested) (withSpecifiers : Bool) : Parse Node := do
  if withSpecifiers then Grammar.functionDefinition deep (some (← Grammar.declSpecs deep))
  else Grammar.functionDefinition deep none

namespace Agreeing

theorem expressionStatement (h : Agreeing x limit d deep) :
    Follows x limit d 1 (call .expressionStatement) (Grammar.expressionStatement deep) := by
  refine .call fun n s c hs => ?_
  refine .congr ?_ rfl (Parse.bind_of_ok (Parse.check_apply .semicolon c))
  split
  next semi =>
    have semi := beq_iff_eq.mp semi
    simp only [pure_bind]
    refine .step (run_eat?_some hs semi nofun) ?_ (.pure (hs.advance_of_ne (semi ▸ nofun)) le_rfl)
    rw [Parse.expect_apply, if_pos (beq_iff_eq.mpr semi)]
  next semi =>
    simp only [map_eq_pure_bind, bind_assoc, pure_bind]
    refine .congr ?_ (run_bind_ok (run_eat?_none hs (mt beq_iff_eq.mpr semi))) rfl
    refine (h.expression' hs).bind fun hd => ?_
    exact .expect hd (by decide) fun _ _ _ hd => .pure hd (by omega)

theorem declarationOr (h : Agreeing x limit d deep) {p : Program Node} {q : Parse Node}
    (hp : Follows x limit d 1 p q) :
    Follows x limit d 1 (Machine.declarationOr p) (Grammar.declarationOr deep q) := by
  refine fun n s c hs => .step (run_startsDeclaration hs) (Parse.ahead_apply c) ?_
  split
  · exact .either (h.declaration hs) (hp hs)
  · exact hp hs

theorem blockItem (h : Agreeing x limit d deep) :
    Follows x limit d 1 (call .blockItem) (Grammar.declarationOr deep deep.statement) :=
  .call (h.declarationOr h.statement)

theorem compound (h : Agreeing x limit d deep) :
    Follows x limit d 1 (call .compound) (Grammar.compound deep) := by
  refine .call fun n s c hs => .expect hs (by decide) fun _ _ _ hd => ?_
  refine (Agrees.manyUntil h.blockItem hd).bind fun hd => ?_
  exact .expect hd (by decide) fun _ _ _ hd => .pure hd (by omega)

theorem forStatement (h : Agreeing x limit d deep) :
    Follows x limit d 1 (call .forStatement) (Grammar.forStatement deep) := by
  refine .call fun n s c hs => .advance hs fun hd => .expect hd (by decide) fun _ _ _ hd => ?_
  refine (h.declarationOr h.expressionStatement hd).bind fun hd => ?_
  refine (h.expressionStatement hd).bind fun hd => .check hd ?_
  split
  · refine .skip ?_
    refine .expect hd (by decide) fun _ _ _ hd => ?_
    exact (h.statement hd).bind fun hd => .pure hd (by omega)
  · refine (h.expression' hd).map.bind fun hd => ?_
    refine .expect hd (by decide) fun _ _ _ hd => ?_
    exact (h.statement hd).bind fun hd => .pure hd (by omega)

theorem jump (shape : Shape Node) :
    Follows x limit d 1 (Machine.jump shape) (Grammar.jump shape) := by
  refine fun n s c hs => .advance hs fun hd => ?_
  exact .expect hd (by decide) fun _ _ _ hd => .pure hd le_rfl

theorem labelled (h : Agreeing x limit d deep) (hs : Stands x d n s c)
    (hk : c.peek.kind = .ident) (colon : c.kindAt 1 = .colon) :
    Agrees x limit d (fun _ => n + 1) Machine.labelled s (Grammar.labelled deep) c := by
  refine .advance_of_ne hs (hk ▸ nofun) fun hd => ?_
  refine .take hd (peek_advance colon nofun) (by decide) fun hd => ?_
  exact (h.statement hd).bind fun hd => .pure hd (by omega)

theorem ladder (h : Agreeing x limit d deep) {m : Nat} (hm : c.ahead.length < m)
    (hs : Stands x d n s c) :
    Agrees x limit d (fun _ => n) (loop elseStep []) s (ladderUpTo deep m) c := by
  have whole : Agrees x limit d (fun _ => n) (loop elseStep []) s (ladderRest deep m []) c := by
    refine .loopUpTo (fun _ _ => 0) (ladderRest deep) (ladderNext deep) (fun _ _ => Nat.zero_le 1)
      (ladderRest_succ deep) hm hs fun {m} _ arms n s c _ hs => ?_
    refine .eat hs (by decide) (fun _ _ _ hd => .check hd ?_) fun _ => .pure hs le_rfl
    split
    · rw [armOf, bind_assoc]
      refine .advance hd fun hd => ?_
      rw [bind_assoc]
      refine (h.condition hd).bind fun hd => ?_
      rw [bind_assoc]
      exact (h.statement hd).bind fun hd => .pure hd (Nat.le_add_right (n + 1) 2)
    · exact (h.statement hd).bind fun hd => .pure hd (Nat.le_add_right n 2)
  refine whole.congr rfl ?_
  simp [ladderRest]

theorem ifStatement (h : Agreeing x limit d deep) :
    Follows x limit d 1 (call .ifStatement)
      (do ifStatementUpTo deep ((← Parse.ahead).length + 1)) := by
  refine .call fun n s c hs => .congr ?_ rfl (Parse.bind_of_ok (Parse.ahead_apply c))
  rw [ifStatementUpTo_succ, elseUpTo_eq, armOf]
  simp only [map_eq_pure_bind, bind_assoc, pure_bind]
  refine .advance hs.here fun hd => (h.condition hd).bind fun hd => ?_
  refine (h.statement hd).bind fun hd => ?_
  have := hs.after
  exact (h.ladder (hs.length_lt (hd.mono (by omega))) hd).bind fun hd => .pure hd (by omega)

theorem statement' (h : Agreeing x limit d deep) :
    Follows x limit d 1 (call .statementBody) (Grammar.statement deep) := by
  refine .call fun n s c hs => .peekKind hs fun k hk => ?_
  have some (hk' : k ≠ .eof) : c.peek.kind ≠ .eof := hk ▸ hk'
  cases k with
  | ident =>
    refine .kindAt hs 1 ?_
    rw [any_kindAt c 1 (p := (· == .colon)) rfl]
    split
    next colon => exact h.labelled hs hk (beq_iff_eq.mp colon)
    next => exact h.expressionStatement hs
  | kwCase =>
    refine .advance_of_ne hs (some nofun) fun hd => (h.conditional' hd).bind fun hd => ?_
    refine .expect hd (by decide) fun _ _ _ hd => ?_
    exact (h.statement hd).bind fun hd => .pure hd (by omega)
  | kwDefault =>
    refine .advance_of_ne hs (some nofun) fun hd => .expect hd (by decide) fun _ _ _ hd => ?_
    exact (h.statement hd).bind fun hd => .pure hd (by omega)
  | lBrace => exact h.compound hs
  | kwIf => exact h.ifStatement hs
  | kwSwitch | kwWhile =>
    refine .advance_of_ne hs (some nofun) fun hd => (h.condition hd).bind fun hd => ?_
    exact (h.statement hd).bind fun hd => .pure hd (by omega)
  | kwDo =>
    refine .advance_of_ne hs (some nofun) fun hd => (h.statement hd).bind fun hd => ?_
    refine .expect hd (by decide) fun _ _ _ hd => (h.condition hd).bind fun hd => ?_
    exact .expect hd (by decide) fun _ _ _ hd => .pure hd (by omega)
  | kwFor => exact h.forStatement hs
  | kwGoto =>
    refine .advance_of_ne hs (some nofun) fun hd => .expect hd (by decide) fun _ _ _ hd => ?_
    exact .expect hd (by decide) fun _ _ _ hd => .pure hd (by omega)
  | kwContinue | kwBreak => exact jump _ hs
  | kwReturn =>
    refine .advance_of_ne hs (some nofun) fun hd => .check hd ?_
    split
    · refine .skip ?_
      exact .expect hd (by decide) fun _ _ _ hd => .pure hd (by omega)
    · refine (h.expression' hd).map.bind fun hd => ?_
      exact .expect hd (by decide) fun _ _ _ hd => .pure hd (by omega)
  | _ => exact h.expressionStatement hs

theorem functionRest (h : Agreeing x limit d deep) (specs : Option Node) :
    Follows x limit d 1 (Machine.functionRest specs) (Grammar.functionDefinition deep specs) := by
  refine fun n s c hs => (h.declarator hs).bind fun hd => ?_
  split
  · refine (Agrees.many (fun n s c hs => .check hs ?_) hd).bind fun hd => ?_
    · split
      · exact .took_none hs le_rfl
      · exact (h.declaration hs).bind fun hd => .took_some hd le_rfl
    · exact (h.compound hd).bind fun hd => .pure hd (by omega)
  · exact .fail hd _

theorem functionDefinition (h : Agreeing x limit d deep) (withSpecifiers : Bool) :
    Follows x limit d 1 (call (.functionDefinition withSpecifiers))
      (definitionOf deep withSpecifiers) := by
  refine .call fun n s c hs => ?_
  cases withSpecifiers with
  | true => exact (h.declSpecs hs).bind fun hd => (h.functionRest _ hd).mono fun _ => Nat.le_succ _
  | false => exact h.functionRest none hs

theorem externalDeclaration (h : Agreeing x limit d deep) :
    Follows x limit d 1 (call .externalDeclaration) (Grammar.externalDeclaration deep) :=
  .call fun _ _ _ hs => .firstOf (h.functionDefinition true hs)
    (.cons (h.declaration hs) (.cons (h.functionDefinition false hs) .nil))

theorem translationUnit (h : Agreeing x limit d deep) :
    Follows x limit d 0 (call .translationUnit) (Grammar.sourceFile deep) := by
  refine .call fun n s c hs => (Agrees.many (fun n s c hs => .atEnd hs ?_) hs).bind fun hd =>
    .peek hd (.pure hd le_rfl)
  split
  · exact .took_none hs le_rfl
  · exact (h.externalDeclaration hs).bind fun hd => .took_some hd le_rfl

end Agreeing

end CPretty.Machine
