import CPretty.Grammar.SourceFile
import CPretty.Proofs.Parse.Sited

namespace CPretty

open Parse Grammar

/-- Nesting productions whose errors tell of one place. A `struct` specifier is read only at its
keyword, and no opening parenthesis stands after a declarator. -/
structure Nested.AllSteady (s : Cursor) (limit : Nat) (deep : Nested) : Prop where
  operand : Steady s limit deep.operand
  expression : Steady s limit deep.expression
  conditional : Steady s limit deep.conditional
  struct : ∀ ⦃n c⦄, s.Clear n c → c.peek.kind.is .structOrUnion = true →
    Lands s limit (fun _ d => s.Clear n d) (deep.struct c)
  initializer : Steady s limit deep.initializer
  declarator : ∀ ⦃n c⦄, s.Clear n c →
    Lands s limit (fun _ d => s.Clear n d ∧ d.peek.kind ≠ .lParen) (deep.declarator c)
  abstractDeclarator : Steady s limit deep.abstractDeclarator
  statement : Steady s limit deep.statement

namespace Grammar

variable {s c : Cursor} {limit n : Nat} {k : Kind} {deep : Nested}

theorem ladder_common : ∀ l ∈ ladder, ∀ k : Kind, l.accepts k = true → k.Common := by
  intro l hl k hk
  constructor <;> rintro rfl <;> revert l <;> decide

theorem binary_steady {p : Parse Node} (h : Steady s limit p) (levels : List Expected)
    (hl : ∀ l ∈ levels, ∀ k : Kind, l.accepts k = true → k.Common) :
    Steady s limit (binary p levels) := by
  induction levels with
  | nil => exact h
  | cons level tighter ih =>
    have hi := ih fun l hm => hl l (List.mem_cons_of_mem level hm)
    intro n c hc
    refine .bind (hi hc) fun hd => Steady.iterate (fun lhs n c hc => ?_) _ hd
    refine .peekKind fun k hk => ?_
    split
    next ha =>
      refine .advance hc (hl level List.mem_cons_self _ (hk ▸ ha)) fun hd => ?_
      exact .bind (hi hd) fun hd => .pure hd
    next => exact .pure hc

theorem conditional_steady (h : deep.AllSteady s limit) : Steady s limit (conditional deep) := by
  intro n c hc
  refine .bind (binary_steady h.operand ladder ladder_common hc) fun hd => ?_
  refine .eat hd (by decide) (fun hd => ?_) fun _ => .pure hd
  refine .bind (h.expression hd.widen) fun hd => .expect hd (by decide) fun hd => ?_
  exact .bind (h.conditional hd) fun hd => .pure hd

theorem assignment_steady (h : deep.AllSteady s limit) : Steady s limit (assignment deep) := by
  have loop (m : Nat) : Steady s limit (assignmentUpTo deep m) := by
    induction m with
    | zero => exact conditional_steady h
    | succ m ih =>
      intro n c hc
      refine .bind (conditional_steady h hc) fun hd => .peekKind fun k hk => ?_
      split
      next ha =>
        split
        · refine .advance hd (.of_is (hk ▸ ha)) fun hd => ?_
          exact .bind (ih hd) fun hd => .pure hd
        · exact .fail_production hd _
      next => exact .pure hd
  exact fun n c hc => .ahead (loop _ hc)

theorem expression_steady (h : deep.AllSteady s limit) : Steady s limit (expression deep) :=
  fun _ _ hc => .bind (Steady.commaList (assignment_steady h) hc) fun hd => .pure hd.1

theorem condition_steady (h : deep.AllSteady s limit) : Steady s limit (condition deep) :=
  fun _ _ hc => .expect hc (by decide) fun hd => .bind (expression_steady h hd) fun hd =>
    .expect hd (by decide) fun hd => .pure hd

theorem enumerator_steady (h : deep.AllSteady s limit) : Steady s limit (enumerator deep) := by
  intro n c hc
  refine .expect hc (by decide) fun hd => .eat hd (by decide) (fun hd => ?_) fun _ => .pure hd
  exact .bind_map (conditional_steady h hd.widen) fun hd => .pure hd

theorem tag_lands {α : Type} {Q : α → Cursor → Prop} {f : Option Token → Bool → Parse α}
    (hc : s.Clear n c)
    (body : ∀ {name d}, s.Clear n d → Lands s limit Q (f name true d))
    (name : ∀ {t d}, s.Clear n d → Lands s limit Q (f (some t) false d))
    (neither : c.peek.kind ≠ .ident → c.peek.kind ≠ .lBrace → Lands s limit Q (f none false c)) :
    Lands s limit Q ((do let name ← eat? .ident; f name (← eat .lBrace)) c) := by
  refine .eat? hc (by decide) (fun hd => ?_) fun hi => ?_
  · exact .eat hd.widen (by decide) (fun hd => body hd.widen) fun _ => name hd.widen
  · exact .eat hc (by decide) (fun hd => body hd.widen) (neither hi)

theorem fail_tag {α : Type} {Q : α → Cursor → Prop} (hc : s.Clear n c)
    (hi : c.peek.kind ≠ .ident) (hb : c.peek.kind ≠ .lBrace) :
    Lands s limit Q ((fail [.token .ident, .token .lBrace] : Parse α) c) :=
  .fail hc (by simp) (by simp) (by simp [Expected.accepts, hi, hb])

theorem enumSpecifier_lands (h : deep.AllSteady s limit) (hc : s.Clear n c)
    (hk : c.peek.kind = .kwEnum) :
    Lands s limit (fun _ d => s.Clear n d) (enumSpecifier deep c) := by
  refine .advance hc (hk ▸ by decide) fun hd => tag_lands hd ?body ?name (fail_tag hd)
  case body =>
    intro name d hd
    refine .bind (Steady.bracedItems (enumerator_steady h) hd) fun hd => ?_
    exact .expect hd (by decide) fun hd => .pure hd
  case name => exact fun hd => .pure hd

theorem specifierNode_steady (wrap : List Node → Shape Node) (specs : List Node) :
    Steady s limit (specifierNode wrap specs) := by
  intro n c hc
  rw [specifierNode]
  split
  · exact .fail_production hc _
  · exact .pure hc

theorem typeNameOf_steady (h : deep.AllSteady s limit) (specs : List Node) :
    Steady s limit (typeNameOf deep specs) := by
  intro n c hc
  refine .bind (specifierNode_steady _ specs hc) fun hd => .peekKind fun k hk => ?_
  split
  · exact .bind (h.abstractDeclarator hd) fun hd => .pure hd
  · exact .pure hd

theorem atomicSpecifier_lands {typeName : Parse Node} (h : Steady s limit typeName)
    (hc : s.Clear n c) (hk : c.peek.kind = .kwAtomic) :
    Lands s limit (fun _ d => s.Clear n d) (atomicSpecifier typeName c) := by
  refine .advance hc (hk ▸ by decide) fun hd => .expect hd (by decide) fun hd => ?_
  exact .bind (h hd) fun hd => .expect hd (by decide) fun hd => .pure hd

theorem specifier?_steady (h : deep.AllSteady s limit) {typeName : Parse Node}
    (ht : Steady s limit typeName) (seenType : Bool) :
    Steady s limit (specifier? deep typeName seenType) := by
  intro n c hc
  refine .peekKind fun k hk => .ahead ?_
  split
  next ha =>
    simp only [Bool.and_eq_true, beq_iff_eq] at ha
    exact .bind (atomicSpecifier_lands ht hc (hk.trans ha.1)) fun hd => .pure hd
  next =>
  split
  next ha =>
    simp only [Bool.or_eq_true] at ha
    have hk : c.peek.kind.Common := by
      rw [hk]
      exact ha.elim (fun ha => ha.elim .of_is .of_is) .of_is
    exact .advance hc hk fun hd => .pure hd
  next =>
  split
  next ha => exact .advance hc (.of_is (hk ▸ ha)) fun hd => .pure hd
  next =>
  split
  next ha => exact .bind (h.struct hc (hk ▸ ha)) fun hd => .pure hd
  next =>
  split
  next ha => exact .bind (enumSpecifier_lands h hc (hk.trans (eq_of_beq ha))) fun hd => .pure hd
  next =>
  split
  next ha =>
    simp only [Bool.and_eq_true, beq_iff_eq] at ha
    exact .advance hc (by rw [hk, ha.1]; decide) fun hd => .pure hd
  next => exact .pure hc

theorem specifiersUpTo_steady (h : deep.AllSteady s limit) (m : Nat) (seenType : Bool) :
    Steady s limit (specifiersUpTo deep m seenType) := by
  induction m generalizing seenType with
  | zero => exact fun _ _ hc => .pure hc
  | succ m ih =>
    have ht : Steady s limit (do typeNameOf deep (← specifiersUpTo deep m false)) :=
      fun n c hc => .bind (ih false hc) fun hd => typeNameOf_steady h _ hd
    intro n c hc
    refine .bind (specifier?_steady h ht seenType hc) fun {o d} hd => ?_
    cases o with
    | none => exact .pure hd
    | some spec => exact .bind (ih _ hd) fun hd => .pure hd

theorem specifierList_steady (h : deep.AllSteady s limit) : Steady s limit (specifierList deep) :=
  fun _ _ hc => .ahead (specifiersUpTo_steady h _ _ hc)

theorem declSpecs_steady (h : deep.AllSteady s limit) : Steady s limit (declSpecs deep) :=
  fun _ _ hc => .bind (specifierList_steady h hc) fun hd => specifierNode_steady _ _ hd

theorem specQuals_steady (h : deep.AllSteady s limit) : Steady s limit (specQuals deep) :=
  fun _ _ hc => .bind (specifierList_steady h hc) fun hd => specifierNode_steady _ _ hd

theorem typeName_steady (h : deep.AllSteady s limit) : Steady s limit (typeName deep) :=
  fun _ _ hc => .bind (specifierList_steady h hc) fun hd => typeNameOf_steady h _ hd

theorem primary_steady (h : deep.AllSteady s limit) : Steady s limit (primary deep) := by
  intro n c hc
  refine .peekKind fun k hk => ?_
  split
  · exact .advance hc (hk ▸ by decide) fun hd => .pure hd
  · exact .advance hc (hk ▸ by decide) fun hd => .pure hd
  · exact .bind (Steady.strings hc) fun hd => .pure hd
  · refine .advance hc (hk ▸ by decide) fun hd => .bind (expression_steady h hd) fun hd => ?_
    exact .expect hd (by decide) fun hd => .pure hd
  · exact .fail_production hc _

theorem fail_close {α : Type} {Q : α → Cursor → Prop} (hc : s.Clear n c)
    (hk : c.peek.kind ≠ .comma) (hp : c.peek.kind ≠ .rParen) :
    Lands s limit Q ((fail [.token .comma, .token .rParen] : Parse α) c) :=
  .fail hc (by simp) (by simp) (by simp [Expected.accepts, hk, hp])

theorem arguments_steady (h : deep.AllSteady s limit) : Steady s limit (arguments deep) := by
  intro n c hc
  refine .check ?_
  split
  · exact .pure hc
  · refine .bind (Steady.commaList (assignment_steady h) hc) fun ⟨hd, hk⟩ => .check ?_
    split
    next => exact .pure hd
    next hp => exact fail_close hd hk (by simpa using hp)

theorem access?_steady (h : deep.AllSteady s limit) (recv : Node) :
    Steady s limit (access? deep recv) := by
  intro n c hc
  refine .peekKind fun k hk => ?_
  split
  · refine .advance hc (hk ▸ by decide) fun hd => .bind (expression_steady h hd) fun hd => ?_
    exact .expect hd (by decide) fun hd => .pure hd
  · refine .advance hc (hk ▸ by decide) fun hd => .bind (arguments_steady h hd) fun hd => ?_
    exact .expect hd (by decide) fun hd => .pure hd
  · refine .advance hc (hk ▸ by decide) fun hd => ?_
    exact .expect hd (by decide) fun hd => .pure hd
  · refine .advance hc (hk ▸ by decide) fun hd => ?_
    exact .expect hd (by decide) fun hd => .pure hd
  · exact .advance hc (hk ▸ by decide) fun hd => .pure hd
  · exact .advance hc (hk ▸ by decide) fun hd => .pure hd
  · exact .pure hc

theorem postfixed_steady (h : deep.AllSteady s limit) : Steady s limit (postfixed deep) :=
  fun _ _ hc => .bind (primary_steady h hc) fun hd => Steady.iterate (access?_steady h) _ hd

theorem prefixOperator?_steady : Steady s limit prefixOperator? := by
  intro n c hc
  refine .peekKind fun k hk => .ahead ?_
  split
  next ha =>
    have hk : c.peek.kind.Common := by
      rw [hk]
      simp only [Bool.or_eq_true, Bool.and_eq_true, beq_iff_eq] at ha
      obtain ha | ⟨rfl, -⟩ := ha
      · exact .of_is ha
      · decide
    exact .advance hc hk fun hd => .pure hd
  next => exact .pure hc

theorem unaryBody_steady (h : deep.AllSteady s limit) : Steady s limit (unaryBody deep) := by
  intro n c hc
  refine .peekKind fun k hk => ?_
  split
  next ha =>
    have hk : c.peek.kind.Common := by
      rw [hk, eq_of_beq ha]
      decide
    refine .advance hc hk fun hd => .expect hd (by decide) fun hd => ?_
    exact .bind (typeName_steady h hd) fun hd => .expect hd (by decide) fun hd => .pure hd
  next =>
  split
  next ha =>
    exact .advance hc (.of_is (hk ▸ ha)) fun hd => .bind (h.operand hd) fun hd => .pure hd
  next => exact postfixed_steady h hc

theorem unary_steady (h : deep.AllSteady s limit) : Steady s limit (unary deep) :=
  fun _ _ hc => .bind (Steady.many prefixOperator?_steady hc) fun hd =>
    .bind (unaryBody_steady h hd) fun hd => .pure hd

theorem castPrefix?_steady (h : deep.AllSteady s limit) : Steady s limit (castPrefix? deep) := by
  intro n c hc
  refine .check (.ahead ?_)
  split
  next ha =>
    simp only [Bool.and_eq_true, beq_iff_eq] at ha
    refine .advance hc (by rw [ha.1]; decide) fun hd => .bind (typeName_steady h hd) fun hd => ?_
    exact .expect hd (by decide) fun hd => .pure hd
  next => exact .pure hc

theorem operand_steady (h : deep.AllSteady s limit) : Steady s limit (operand deep) :=
  fun _ _ hc => .bind (Steady.many (castPrefix?_steady h) hc) fun hd =>
    .bind (unary_steady h hd) fun hd => .pure hd

end Grammar

end CPretty
