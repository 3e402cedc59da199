import CPretty.Proofs.Grammar.Plain
import CPretty.Proofs.Grammar.Precedence
import CPretty.Proofs.Parse.Completes
import CPretty.Proofs.Syntax.Bare

namespace CPretty

open Parse Grammar Lookahead

variable {limit k m : Nat} {kind : Kind} {c d : Cursor} {t op : Token} {xs ys : List Token}
  {n e : Node} {ns : List Node} {Q : Node → Cursor → Prop}

/-- The kinds that go on with an operand. An operand in parentheses is taken for a cast where
another operand follows. -/
def extendsOperand : List Kind := castOperands ++ Kind.suffixStarts

def extendsBinary (levels : List Expected) : List Kind :=
  extendsOperand ++ levels.flatMap Expected.kinds

def extendsConditional : List Kind := extendsBinary ladder ++ [.question]

def extendsAssignment : List Kind := extendsConditional ++ Category.members .assignment

def extendsExpression : List Kind := extendsAssignment ++ [.comma]

/-- The tree is the given one up to its ranges, and the reading stops at the given position. -/
def Yields (n : Node) (c : Cursor) (n' : Node) (d : Cursor) : Prop := n'.bare = n.bare ∧ d = c

namespace Completes

theorem operand (h : ∀ k, Completes (Grammar.operand (.levels limit k) c) Q) :
    Completes ((Nested.levels limit k).operand c) Q := by
  cases k with
  | zero => exact tooDeep rfl
  | succ k => exact h k

theorem expression (h : ∀ k, Completes (Grammar.expression (.levels limit k) c) Q) :
    Completes ((Nested.levels limit k).expression c) Q := by
  cases k with
  | zero => exact tooDeep rfl
  | succ k => exact h k

theorem conditional (h : ∀ k, Completes (Grammar.conditional (.levels limit k) c) Q) :
    Completes ((Nested.levels limit k).conditional c) Q := by
  cases k with
  | zero => exact tooDeep rfl
  | succ k => exact h k

end Completes

namespace Grammar

variable {deep : Nested}

theorem access?_none (h : c.peek.kind ∉ Kind.suffixStarts) : access? deep n c = .ok (none, c) := by
  rw [access?, bind_of_ok (peekKind_apply c)]
  generalize c.peek.kind = k at h
  split
  case h_7 => rfl
  all_goals exact absurd (by decide) h

abbrev binaryStep (operand : Parse Node) (l : Expected) (ls : List Expected) (lhs : Node) :
    Parse (Option Node) := do
  if l.accepts (← peekKind) then
    let op ← advance
    return some (Node.binary lhs op (← binary operand ls))
  else return none

theorem binaryStep_none {operand : Parse Node} {l : Expected} {ls : List Expected}
    (h : ¬ l.accepts c.peek.kind = true) : binaryStep operand l ls n c = .ok (none, c) := by
  rw [binaryStep, bind_of_ok (peekKind_apply c), if_neg h]
  rfl

/-- A unary expression with at most `m` prefix operators. -/
def unaryUpTo (deep : Nested) (m : Nat) : Parse Node := do
  let ops ← manyUpTo prefixOperator? m
  return ops.foldr Node.prefixed (← unaryBody deep)

theorem prefixOperator?_apply (c : Cursor) : prefixOperator? c =
    if c.peek.kind.is .count || (c.peek.kind == .kwSizeof && !startsSizeofType c.ahead) then
      .ok (some c.peek, c.advance) else .ok (none, c) := by
  rw [prefixOperator?, bind_of_ok (peekKind_apply c), bind_of_ok (ahead_apply c)]
  split <;> rfl

theorem unaryUpTo_succ (h : prefixOperator? c = .ok (some op, d)) :
    unaryUpTo deep (m + 1) c = (Node.prefixed op <$> unaryUpTo deep m) d := by
  rw [unaryUpTo, manyUpTo, bind_assoc, bind_of_ok h]
  simp only [unaryUpTo, map_eq_pure_bind, bind_assoc, pure_bind, List.foldr_cons]

theorem unaryUpTo_none (h : prefixOperator? c = .ok (none, c)) (hm : 0 < m) :
    unaryUpTo deep m c = unaryBody deep c := by
  obtain ⟨m, rfl⟩ := Nat.exists_eq_add_one_of_ne_zero (Nat.ne_of_gt hm)
  rw [unaryUpTo, manyUpTo, bind_assoc, bind_of_ok h]
  simp

theorem not_castOperand (h : c.peek.kind ∉ extendsOperand) :
    ∀ u ∈ c.ahead.head?, u.kind ∉ castOperands := by
  intro u hu hk
  refine h (List.mem_append_left _ ?_)
  rwa [Cursor.peek, List.headD_eq_head?_getD, hu, Option.getD_some]

theorem castPrefix?_none (hx : Plain xs) (h : c.peek.kind ∉ extendsOperand) :
    castPrefix? deep (c.before xs) = .ok (none, c.before xs) := by
  obtain ⟨t, ts, rfl, -⟩ := hx.head
  rw [castPrefix?, bind_of_ok (check_apply _ _), bind_of_ok (ahead_apply _), if_neg]
  · rfl
  · intro hp
    simp only [Cursor.peek_before_cons, Cursor.ahead_before, List.cons_append, List.tail_cons,
      Bool.and_eq_true, beq_iff_eq] at hp
    rw [hx.paren t ts rfl hp.1 _ (not_castOperand h)] at hp
    cases hp.2

abbrev commaItem? {α : Type} (item : Parse α) : Parse (Option α) := do
  if ← eat .comma then return some (← item) else return none

end Grammar

/-- The nodes are the given ones up to their ranges, and the reading stops at the given position. -/
def YieldsAll (ns : List Node) (c : Cursor) (ns' : List Node) (d : Cursor) : Prop :=
  ns'.map Node.bare = ns.map Node.bare ∧ d = c

/-- The parser reads the phrase, at every depth, where nothing goes on with it. For operands and for
operators that group to the left, it gets to the loop that reads what goes on with them. -/
def Grammar.Accepts (limit : Nat) : Phrase → List Token → List Node → Prop
  | .primary, xs, [n] => ∀ k c, c.peek.kind ∉ castOperands →
    Completes (primary (.levels limit k) (c.before xs)) (Yields n c)
  | .postfixed, xs, [n] => ∀ k c Q, c.peek.kind ∉ castOperands →
    (∀ n' m, n'.bare = n.bare → c.ahead.length < m →
      Completes (iterateUpTo (access? (.levels limit k)) m n' c) Q) →
    Completes (postfixed (.levels limit k) (c.before xs)) Q
  | .unary, xs, [n] => ∀ k c m, c.peek.kind ∉ extendsOperand → (c.before xs).ahead.length < m →
    Completes (unaryUpTo (.levels limit k) m (c.before xs)) (Yields n c)
  | .operand, xs, [n] => ∀ k c, c.peek.kind ∉ extendsOperand →
    Completes (operand (.levels limit k) (c.before xs)) (Yields n c)
  | .binary [], xs, [n] => ∀ k c, c.peek.kind ∉ extendsBinary [] →
    Completes ((Nested.levels limit k).operand (c.before xs)) (Yields n c)
  | .binary (l :: ls), xs, [n] => ∀ k c Q, c.peek.kind ∉ extendsBinary ls →
    (∀ n' m, n'.bare = n.bare → c.ahead.length < m →
      Completes (iterateUpTo (binaryStep (Nested.levels limit k).operand l ls) m n' c) Q) →
    Completes (binary (Nested.levels limit k).operand (l :: ls) (c.before xs)) Q
  | .conditional, xs, [n] => ∀ k c, c.peek.kind ∉ extendsConditional →
    Completes (conditional (.levels limit k) (c.before xs)) (Yields n c)
  | .assignment, xs, [n] => ∀ k c m, c.peek.kind ∉ extendsAssignment →
    (c.before xs).ahead.length ≤ m →
    Completes (assignmentUpTo (.levels limit k) m (c.before xs)) (Yields n c)
  | .expression, xs, [n] => ∀ k c, c.peek.kind ∉ extendsExpression →
    Completes (expression (.levels limit k) (c.before xs)) (Yields n c)
  | .commas .assignment, xs, ns => ∀ k c, c.peek.kind ∉ extendsExpression →
    Completes (assignment (.levels limit k) (c.before xs)) fun n' d =>
      d.ahead.length ≤ (c.before xs).ahead.length ∧ ∀ m, d.ahead.length < m →
        Completes (manyUpTo (commaItem? (assignment (.levels limit k))) m d) fun ns' e =>
          YieldsAll ns c (n' :: ns') e
  | .optional (.commas .assignment), xs, ns => ∀ k c, c.peek.kind = .rParen →
    Completes (arguments (.levels limit k) (c.before xs)) (YieldsAll ns c)
  | _, _, _ => True

/-- An operator of a rung goes on with no tighter phrase. -/
theorem not_mem_extendsBinary {l : Expected} {ls : List Expected} (hs : l :: ls <:+ ladder)
    (h : l.accepts op.kind = true) : op.kind ∉ extendsBinary ls := by
  have rungs : ((List.range ladder.length).all fun i => ladder[i]?.all fun l =>
      l.kinds.all fun k => !(extendsBinary (ladder.drop (i + 1))).contains k) = true := by
    decide +kernel
  obtain ⟨i, hi⟩ : ∃ i, i = ladder.length - (l :: ls).length := ⟨_, rfl⟩
  have rest : l :: ls = ladder.drop i := hi ▸ List.suffix_iff_eq_drop.mp hs
  have rung : ladder[i]? = some l := by
    rw [← List.head?_drop, ← rest, List.head?_cons]
  have bound : i < ladder.length := (List.getElem?_eq_some_iff.mp rung).1
  have tighter : ls = ladder.drop (i + 1) := by
    rw [← List.tail_drop, ← rest, List.tail_cons]
  have kinds := List.all_eq_true.mp rungs i (List.mem_range.mpr bound)
  rw [rung, Option.all_some, ← tighter] at kinds
  simpa using List.all_eq_true.mp kinds _ (Expected.mem_kinds h)

theorem extendsBinary_subset (ls : List Expected) (l : Expected) :
    extendsBinary ls ⊆ extendsBinary (l :: ls) := by
  intro k hk
  simp only [extendsBinary, List.flatMap_cons, List.mem_append] at hk ⊢
  grind

theorem not_accepts {l : Expected} {ls : List Expected} (h : kind ∉ extendsBinary (l :: ls)) :
    ¬ l.accepts kind = true := by
  intro hl
  refine h (List.mem_append_right _ ?_)
  rw [List.flatMap_cons]
  exact List.mem_append_left _ (Expected.mem_kinds hl)

theorem nonempty?_map_bare {ns ns' : List Node} (h : ns'.map Node.bare = ns.map Node.bare) :
    (Node.nonempty? ns').map (List.map Node.bare) = (Node.nonempty? ns).map
    (List.map Node.bare) := by
  cases ns <;> cases ns' <;> simp_all [Node.nonempty?]

namespace Grammar.Accepts

variable {l r q : Token} {sp : Span} {i yes no : Node} {args : List Node} {zs : List Token}

theorem ident (ht : t.kind = .ident) : Accepts limit .primary [t] [⟨sp, .ident t.text⟩] := by
  intro k c _
  exact .peekKind ht (.advance (.pure ⟨rfl, rfl⟩))

theorem constant (ht : t.kind = .constant) : Accepts limit .primary [t] [⟨sp, .const t.text⟩] := by
  intro k c _
  exact .peekKind ht (.advance (.pure ⟨rfl, rfl⟩))

theorem parens (hl : l.kind = .lParen) (h : Accepts limit .expression xs [e])
    (hr : r.kind = .rParen) : Accepts limit .primary (l :: xs ++ [r]) [⟨sp, .parens e⟩] := by
  intro k c _
  rw [List.cons_append]
  refine .peekKind hl (.advance ?_)
  rw [Cursor.before_append]
  refine (h k (c.before [r]) (by rw [Cursor.peek_before_cons, hr]; decide)).bind ?_
  rintro n' _ ⟨hn, rfl⟩
  exact .expect hr (.pure ⟨by simp [Node.between, Node.bare_mk, Shape.map, hn], rfl⟩)

/-- String literals up to a token that is none. -/
theorem manyStrings (hc : c.peek.kind ≠ .stringLiteral) (h : ∀ s ∈ xs, s.kind = .stringLiteral)
    (hm : (c.before xs).ahead.length < m) :
    Completes (manyUpTo (eat? .stringLiteral) m (c.before xs)) fun ts d => ts = xs ∧ d = c := by
  induction xs generalizing m with
  | nil =>
    have none : eat? .stringLiteral c = .ok (none, c) := by
      rw [eat?_apply, if_neg (by simpa using hc)]
    rw [Cursor.before_nil, manyUpTo_of_none none]
    exact .ok ⟨rfl, rfl⟩
  | cons t ts ih =>
    have ht := h t List.mem_cons_self
    refine .manyUpTo_some (Nat.zero_lt_of_lt hm) ?_
    rw [eat?_apply, if_pos (by simpa using ht)]
    refine .ok ⟨t, rfl, ?_⟩
    refine (ih (fun s hs => h s (List.mem_cons_of_mem t hs)) (Nat.lt_sub_of_add_lt hm)).imp ?_
    rintro _ _ ⟨rfl, rfl⟩
    exact ⟨rfl, rfl⟩

theorem strings (h : ∀ s ∈ t :: xs, s.kind = .stringLiteral) :
    Accepts limit .primary (t :: xs) [⟨sp, .const (Token.texts (t :: xs))⟩] := by
  intro k c hc
  have ht := h t List.mem_cons_self
  have hc : c.peek.kind ≠ .stringLiteral := fun he => hc (he ▸ by decide)
  refine .peekKind ht ?_
  have first : Completes (Parse.strings (c.before (t :: xs)))
      fun r d => r = (t, xs) ∧ d = c := by
    refine .expect ht ?_
    have hs : ∀ s ∈ xs, s.kind = .stringLiteral := fun s hs => h s (List.mem_cons_of_mem t hs)
    refine (Completes.many (manyStrings hc hs (Nat.lt_succ_self _))).bind ?_
    rintro _ _ ⟨rfl, rfl⟩
    exact .ok ⟨rfl, rfl⟩
  refine first.bind ?_
  rintro _ _ ⟨rfl, rfl⟩
  exact .pure ⟨rfl, rfl⟩

theorem ofPrimary (h : Accepts limit .primary xs [e]) : Accepts limit .postfixed xs [e] := by
  intro k c Q hc hQ
  refine (h k c hc).bind ?_
  rintro n' _ ⟨hn, rfl⟩
  exact hQ n' _ hn (Nat.lt_succ_self _)

theorem index (h : Accepts limit .postfixed xs [e]) (hl : l.kind = .lBracket)
    (hi : Accepts limit .expression ys [i]) (hr : r.kind = .rBracket) :
    Accepts limit .postfixed (xs ++ l :: ys ++ [r]) [⟨sp, .index e i⟩] := by
  intro k c Q _ hQ
  rw [List.append_assoc, Cursor.before_append]
  refine h k _ Q (by rw [List.cons_append, Cursor.peek_before_cons, hl]; decide)
    fun n' m hn hm => ?_
  refine .iterateUpTo_some (Nat.zero_lt_of_lt hm) ?_
  rw [List.cons_append] at hm ⊢
  refine .peekKind hl (.advance ?_)
  rw [Cursor.before_append]
  refine (hi k (c.before [r]) (by rw [Cursor.peek_before_cons, hr]; decide)).bind ?_
  rintro i' _ ⟨hi', rfl⟩
  refine .expect hr (.pure ⟨_, rfl, hQ _ _ ?_ ?_⟩)
  · simp [Node.between, Node.bare_mk, Shape.map, hn, hi']
  · simp at hm ⊢
    omega

theorem call (h : Accepts limit .postfixed xs [e]) (hl : l.kind = .lParen)
    (ha : Accepts limit (.optional (.commas .assignment)) ys args) (hr : r.kind = .rParen) :
    Accepts limit .postfixed (xs ++ l :: ys ++ [r]) [⟨sp, .call e (Node.nonempty? args)⟩] := by
  intro k c Q _ hQ
  rw [List.append_assoc, Cursor.before_append]
  refine h k _ Q (by rw [List.cons_append, Cursor.peek_before_cons, hl]; decide)
    fun n' m hn hm => ?_
  refine .iterateUpTo_some (Nat.zero_lt_of_lt hm) ?_
  rw [List.cons_append] at hm ⊢
  refine .peekKind hl (.advance ?_)
  rw [Cursor.before_append]
  refine (ha k (c.before [r]) hr).bind ?_
  rintro args' _ ⟨ha', rfl⟩
  refine .expect hr (.pure ⟨_, rfl, hQ _ _ ?_ ?_⟩)
  · simp [Node.between, Node.bare_mk, Shape.map, hn, nonempty?_map_bare ha']
  · simp at hm ⊢
    omega

theorem field (h : Accepts limit .postfixed xs [e]) (hq : q.kind = .dot ∨ q.kind = .arrow)
    (ht : t.kind = .ident) :
    Accepts limit .postfixed (xs ++ [q, t]) [⟨sp, .field e q.text t.text⟩] := by
  intro k c Q _ hQ
  rw [Cursor.before_append]
  have hc : q.kind ∉ castOperands := by obtain hq | hq := hq <;> rw [hq] <;> decide
  refine h k _ Q hc fun n' m hn hm => ?_
  refine .iterateUpTo_some (Nat.zero_lt_of_lt hm) ?_
  have step : Completes (access? (.levels limit k) n' (c.before [q, t])) fun o d =>
      o = some (Node.between n'.span t.span (.field n' q.text t.text)) ∧ d = c := by
    obtain hq | hq := hq
    · exact .peekKind hq (.advance (.expect ht (.pure ⟨rfl, rfl⟩)))
    · exact .peekKind hq (.advance (.expect ht (.pure ⟨rfl, rfl⟩)))
  refine step.imp ?_
  rintro _ _ ⟨rfl, rfl⟩
  refine ⟨_, rfl, hQ _ _ ?_ ?_⟩
  · simp [Node.between, Node.bare_mk, Shape.map, hn]
  · simp at hm ⊢
    omega

theorem postUnary (h : Accepts limit .postfixed xs [e]) (hq : q.kind.is .count = true) :
    Accepts limit .postfixed (xs ++ [q]) [⟨sp, .postUnary e q.text⟩] := by
  intro k c Q _ hQ
  rw [Cursor.before_append]
  have kinds : q.kind = .plusPlus ∨ q.kind = .minusMinus :=
    Kind.of_is (P := fun k => k = .plusPlus ∨ k = .minusMinus) hq (by decide)
  have hc : q.kind ∉ castOperands := by obtain hq | hq := kinds <;> rw [hq] <;> decide
  refine h k _ Q hc fun n' m hn hm => ?_
  refine .iterateUpTo_some (Nat.zero_lt_of_lt hm) ?_
  have step : Completes (access? (.levels limit k) n' (c.before [q])) fun o d =>
      o = some (Node.between n'.span q.span (.postUnary n' q.text)) ∧ d = c := by
    obtain hq | hq := kinds
    · exact .peekKind hq (.advance (.pure ⟨rfl, rfl⟩))
    · exact .peekKind hq (.advance (.pure ⟨rfl, rfl⟩))
  refine step.imp ?_
  rintro _ _ ⟨rfl, rfl⟩
  refine ⟨_, rfl, hQ _ _ ?_ ?_⟩
  · simp [Node.between, Node.bare_mk, Shape.map, hn]
  · simp at hm ⊢
    omega

theorem postfixed_whole (h : Accepts limit .postfixed xs [e]) (hc : c.peek.kind ∉ extendsOperand) :
    Completes (postfixed (.levels limit k) (c.before xs)) (Yields e c) := by
  rw [extendsOperand, List.mem_append, not_or] at hc
  refine h k c _ hc.1 fun n' m hn _ => ?_
  rw [iterateUpTo_of_none (access?_none hc.2)]
  exact .ok ⟨hn, rfl⟩

theorem ofPostfixed (h : Accepts limit .postfixed xs [e])
    (ht : ∃ t ts, xs = t :: ts ∧ t.kind ∈ [Kind.ident, .constant, .stringLiteral, .lParen]) :
    Accepts limit .unary xs [e] := by
  intro k c m hc hm
  obtain ⟨t, ts, rfl, ht⟩ := ht
  have kinds : ∀ k ∈ [Kind.ident, .constant, .stringLiteral, .lParen],
      k.is .count = false ∧ k ≠ .kwSizeof ∧ k.is .unary = false := by decide
  obtain ⟨hk, hs, hu⟩ := kinds _ ht
  rw [unaryUpTo_none (by simp [prefixOperator?_apply, hk, hs]) (Nat.zero_lt_of_lt hm)]
  refine .peekKind rfl ?_
  rw [Cursor.peek_before_cons, if_neg (by simpa using hs), if_neg (by simp [hu])]
  exact h.postfixed_whole hc

theorem operator (hq : q.kind.is .unary = true) (h : Accepts limit .operand xs [e]) :
    Accepts limit .unary (q :: xs) [⟨sp, .unary q.text e false⟩] := by
  intro k c m hc hm
  have kinds : ∀ k ∈ Category.members .unary, k.is .count = false ∧ k ≠ .kwSizeof := by decide
  obtain ⟨hk, hs⟩ := Kind.of_is hq kinds
  rw [unaryUpTo_none (by simp [prefixOperator?_apply, hk, hs]) (Nat.zero_lt_of_lt hm)]
  refine .peekKind rfl ?_
  rw [Cursor.peek_before_cons, if_neg (by simpa using hs), if_pos hq]
  refine .advance ?_
  refine Completes.bind (.operand fun k => h k c hc) ?_
  rintro n' _ ⟨hn, rfl⟩
  exact .pure ⟨by simp [Node.prefixed, Node.between, Node.bare_mk, Shape.map, hn], rfl⟩

theorem prefixed (hq : q.kind.is .count = true ∨ q.kind = .kwSizeof)
    (h : Accepts limit .unary xs [e]) (hx : Plain xs) :
    Accepts limit .unary (q :: xs) [⟨sp, .unary q.text e false⟩] := by
  intro k c m hc hm
  obtain ⟨m, rfl⟩ := Nat.exists_eq_add_one_of_ne_zero (Nat.ne_of_gt (Nat.zero_lt_of_lt hm))
  have step : prefixOperator? (c.before (q :: xs)) = .ok (some q, c.before xs) := by
    have size := hx.startsSizeofType_eq (t := q) (not_castOperand hc)
    rw [prefixOperator?_apply, if_pos]
    · rfl
    · obtain hq | hq := hq
      · simp [hq]
      · simp [hq, size]
  rw [unaryUpTo_succ step]
  refine (h k c m hc (Nat.lt_of_succ_lt_succ hm)).map ?_
  rintro n' _ ⟨hn, rfl⟩
  exact ⟨by simp [Node.prefixed, Node.between, Node.bare_mk, Shape.map, hn], rfl⟩

theorem ofUnary (h : Accepts limit .unary xs [e]) (hx : Plain xs) :
    Accepts limit .operand xs [e] := by
  intro k c hc
  rw [operand, bind_of_ok (many_of_none (castPrefix?_none hx hc))]
  refine Completes.bind (h k c _ hc (Nat.lt_succ_self _)) fun n' d hn => ?_
  exact .pure hn

variable {ls : List Expected} {rung : Expected}

theorem ofOperand (h : Accepts limit .operand xs [e]) : Accepts limit (.binary []) xs [e] := by
  intro k c hc
  exact .operand fun k => h k c (by simpa [extendsBinary] using hc)

theorem binary_whole (h : Accepts limit (.binary ls) xs [e]) (hc : c.peek.kind ∉ extendsBinary ls) :
    Completes (binary (Nested.levels limit k).operand ls (c.before xs)) (Yields e c) := by
  cases ls with
  | nil => exact h k c hc
  | cons rung ls =>
    refine h k c _ (fun hm => hc (extendsBinary_subset ls rung hm)) fun n' m hn _ => ?_
    rw [iterateUpTo_of_none (binaryStep_none (not_accepts hc))]
    exact .ok ⟨hn, rfl⟩

theorem tighter (h : Accepts limit (.binary ls) xs [e]) :
    Accepts limit (.binary (rung :: ls)) xs [e] := by
  intro k c Q hc hQ
  refine (h.binary_whole hc).bind ?_
  rintro n' _ ⟨hn, rfl⟩
  exact hQ n' _ hn (Nat.lt_succ_self _)

theorem binary (h : Accepts limit (.binary (rung :: ls)) xs [e]) (hs : rung :: ls <:+ ladder)
    (hq : rung.accepts q.kind = true) (h' : Accepts limit (.binary ls) ys [i]) :
    Accepts limit (.binary (rung :: ls)) (xs ++ q :: ys) [⟨sp, .binary e q.text i⟩] := by
  intro k c Q hc hQ
  rw [Cursor.before_append]
  refine h k _ Q (not_mem_extendsBinary hs hq) fun n' m hn hm => ?_
  refine .iterateUpTo_some (Nat.zero_lt_of_lt hm) ?_
  refine .peekKind rfl ?_
  rw [Cursor.peek_before_cons, if_pos hq]
  refine .advance ((h'.binary_whole hc).bind ?_)
  rintro i' _ ⟨hi, rfl⟩
  refine .pure ⟨_, rfl, hQ _ _ ?_ ?_⟩
  · simp [Node.binary, Node.between, Node.bare_mk, Shape.map, hn, hi]
  · simp at hm ⊢
    omega

theorem ofBinary (h : Accepts limit (.binary ladder) xs [e]) :
    Accepts limit .conditional xs [e] := by
  intro k c hc
  rw [extendsConditional, List.mem_append, not_or] at hc
  refine (h.binary_whole hc.1).bind ?_
  rintro n' _ ⟨hn, rfl⟩
  exact .eat_none (fun he => hc.2 (by simp [he])) (.pure ⟨hn, rfl⟩)

theorem ternary (h : Accepts limit (.binary ladder) xs [e]) (hq : q.kind = .question)
    (hy : Accepts limit .expression ys [yes]) (ht : t.kind = .colon)
    (hn : Accepts limit .conditional zs [no]) :
    Accepts limit .conditional (xs ++ q :: ys ++ t :: zs) [⟨sp, .ternary e yes no⟩] := by
  intro k c hc
  rw [List.append_assoc, Cursor.before_append, List.cons_append]
  refine (h.binary_whole (by rw [Cursor.peek_before_cons, hq]; decide)).bind ?_
  rintro e' _ ⟨he, rfl⟩
  refine .eat hq ?_
  rw [Cursor.before_append]
  have colon : (c.before (t :: zs)).peek.kind ∉ extendsExpression := by
    rw [Cursor.peek_before_cons, ht]
    decide
  refine Completes.bind (.expression fun k => hy k _ colon) ?_
  rintro y' _ ⟨hy', rfl⟩
  refine .expect ht (Completes.bind (.conditional fun k => hn k c hc) ?_)
  rintro z' _ ⟨hz', rfl⟩
  exact .pure ⟨by simp [Node.between, Node.bare_mk, Shape.map, he, hy', hz'], rfl⟩

theorem ofConditional (h : Accepts limit .conditional xs [e]) :
    Accepts limit .assignment xs [e] := by
  intro k c m hc _
  rw [extendsAssignment, List.mem_append, not_or] at hc
  cases m with
  | zero => exact h k c hc.1
  | succ m =>
    have other : ¬ c.peek.kind.is .assignment = true := fun ha => hc.2 (List.contains_iff_mem.mp ha)
    refine (h k c hc.1).bind ?_
    rintro n' _ ⟨hn, rfl⟩
    refine .peekKind rfl ?_
    rw [if_neg other]
    exact .pure ⟨hn, rfl⟩

theorem isTarget_of_bare_eq {n n' : Node} (h : n'.bare = n.bare) : isTarget n' = isTarget n := by
  have same (n : Node) : isTarget n.bare = isTarget n := by
    obtain ⟨sp, s⟩ := n
    rw [Node.bare_mk]
    cases s <;> rfl
  rw [← same n, ← h, same]

theorem assign (h : Accepts limit .conditional xs [e]) (he : isTarget e = true)
    (hq : q.kind.is .assignment = true) (h' : Accepts limit .assignment ys [i]) :
    Accepts limit .assignment (xs ++ q :: ys) [⟨sp, .assign e q.text i⟩] := by
  intro k c m hc hm
  have kinds : ∀ k ∈ Category.members .assignment, k ∉ extendsConditional := by decide
  rw [Cursor.before_append] at hm ⊢
  obtain ⟨m, rfl⟩ : ∃ m', m = m' + 1 := ⟨m - 1, by simp at hm; omega⟩
  refine (h k (c.before (q :: ys)) (Kind.of_is hq kinds)).bind ?_
  rintro n' _ ⟨hn, rfl⟩
  refine .peekKind rfl ?_
  rw [Cursor.peek_before_cons, if_pos hq, isTarget_of_bare_eq hn, if_pos he]
  refine .advance ((h' k c m hc (by simp at hm ⊢; omega)).bind ?_)
  rintro i' _ ⟨hi, rfl⟩
  exact .pure ⟨by simp [Node.assign, Node.between, Node.bare_mk, Shape.map, hn, hi], rfl⟩

theorem assignment_whole (h : Accepts limit .assignment xs [e])
    (hc : c.peek.kind ∉ extendsAssignment) :
    Completes (assignment (.levels limit k) (c.before xs)) (Yields e c) :=
  h k c _ hc (Nat.le_refl _)

theorem one (h : Accepts limit .assignment xs [e]) :
    Accepts limit (.commas .assignment) xs [e] := by
  intro k c hc
  rw [extendsExpression, List.mem_append, not_or] at hc
  have none : commaItem? (assignment (.levels limit k)) c = .ok (none, c) := by
    rw [commaItem?, bind_of_ok (eat_of_ne fun he => hc.2 (by simp [he]))]
    rfl
  refine (h.assignment_whole hc.1).imp ?_
  rintro n' _ ⟨hn, rfl⟩
  refine ⟨by simp, fun m _ => ?_⟩
  rw [manyUpTo_of_none none]
  exact .ok ⟨by simp [hn], rfl⟩

theorem more (h : Accepts limit .assignment xs [e]) (ht : t.kind = .comma)
    (hs : Accepts limit (.commas .assignment) ys ns) :
    Accepts limit (.commas .assignment) (xs ++ t :: ys) (e :: ns) := by
  intro k c hc
  rw [Cursor.before_append]
  refine (h.assignment_whole (by rw [Cursor.peek_before_cons, ht]; decide)).imp ?_
  rintro n' _ ⟨hn, rfl⟩
  refine ⟨by simp, fun m hm => .manyUpTo_some (Nat.zero_lt_of_lt hm) (.eat ht ?_)⟩
  refine (hs k c hc).bind fun n₁ d hd => .pure ⟨n₁, rfl, ?_⟩
  refine (hd.2 _ (Nat.lt_of_le_of_lt hd.1 ?_)).imp fun ns' d' hs => ⟨?_, hs.2⟩
  · simp at hm ⊢
    omega
  · simpa [hn] using hs.1

theorem commaList_whole (h : Accepts limit (.commas .assignment) xs ns)
    (hc : c.peek.kind ∉ extendsExpression) :
    Completes (commaList (assignment (.levels limit k)) (c.before xs)) (YieldsAll ns c) :=
  (h k c hc).bind fun _ _ hd => (hd.2 _ (Nat.lt_succ_self _)).bind fun _ _ hs => .ok hs

theorem collect_bare {ns ns' : List Node} (h : ns'.map Node.bare = ns.map Node.bare) :
    (Node.collect .exprs ns').bare = (Node.collect .exprs ns).bare := by
  obtain _ | ⟨n, _ | ⟨m, ns⟩⟩ := ns <;> obtain _ | ⟨n', _ | ⟨m', ns'⟩⟩ := ns' <;>
    simp_all [Node.collect, Node.bare_mk, Shape.map]

theorem expression (h : Accepts limit (.commas .assignment) xs ns) :
    Accepts limit .expression xs [Node.collect .exprs ns] := by
  intro k c hc
  refine (h.commaList_whole hc).bind ?_
  rintro ns' _ ⟨hn, rfl⟩
  exact .ok ⟨collect_bare hn, rfl⟩

theorem absent : Accepts limit (.optional (.commas .assignment)) [] [] := by
  intro k c hc
  refine .check ?_
  rw [if_pos (by simpa using hc)]
  exact .ok ⟨rfl, rfl⟩

theorem present (h : Accepts limit (.commas .assignment) xs ns)
    (hx : ∃ t ts, xs = t :: ts ∧ t.kind ≠ .rParen) :
    Accepts limit (.optional (.commas .assignment)) xs ns := by
  intro k c hc
  obtain ⟨t, ts, rfl, ht⟩ := hx
  refine .check ?_
  rw [Cursor.peek_before_cons, if_neg (by simpa using ht)]
  refine (h.commaList_whole (by rw [hc]; decide)).bind ?_
  rintro ns' _ ⟨hn, rfl⟩
  refine .check ?_
  rw [if_pos (by simpa using hc)]
  exact .ok ⟨hn, rfl⟩

end Grammar.Accepts

/-- A suffixed operand starts with a name, a literal or a parenthesis. -/
theorem Derives.postfixed_head {p : Phrase} (h : Derives p xs ns)
    (hp : p = .primary ∨ p = .postfixed) :
    ∃ t ts, xs = t :: ts ∧ t.kind ∈ [Kind.ident, .constant, .stringLiteral, .lParen] := by
  induction h with
  | ident ht | constant ht => exact ⟨_, _, rfl, by simp [ht]⟩
  | strings hs => exact ⟨_, _, rfl, by simp [hs _ List.mem_cons_self]⟩
  | parens hl _ _ _ => exact ⟨_, _, rfl, by simp [hl]⟩
  | ofPrimary _ ih => exact ih (.inl rfl)
  | index _ _ _ _ ih _ | call _ _ _ _ ih _ =>
    obtain ⟨t, ts, rfl, ht⟩ := ih (.inr rfl)
    exact ⟨t, _, rfl, ht⟩
  | field _ _ _ ih | postUnary _ _ ih =>
    obtain ⟨t, ts, rfl, ht⟩ := ih (.inr rfl)
    exact ⟨t, _, rfl, ht⟩
  | _ => simp at hp

/-- The parser reads every phrase of expressions that take no type name. -/
theorem Derives.accepted {p : Phrase} (h : Derives p xs ns) (hp : p.OnLadder)
    (ht : ∀ n ∈ ns, n.Every Shape.TakesNoType) : Accepts limit p xs ns := by
  induction h with
  | ident hi => exact .ident hi
  | constant hi => exact .constant hi
  | strings hs => exact .strings hs
  | parens hl _ hr ih =>
    exact .parens hl (ih trivial ((Node.Every.of_singleton ht).2 _ List.mem_cons_self)) hr
  | ofPrimary _ ih => exact (ih trivial ht).ofPrimary
  | index _ hl _ hr ih ih' =>
    have hc := (Node.Every.of_singleton ht).2
    exact .index (ih trivial (hc _ (by simp [Shape.children]))) hl
      (ih' trivial (hc _ (by simp [Shape.children]))) hr
  | call _ hl _ hr ih ih' =>
    have hc := (Node.Every.of_singleton ht).2
    refine .call (ih trivial (hc _ (by simp [Shape.children]))) hl (ih' trivial fun n hn => ?_) hr
    refine hc n ?_ n List.mem_cons_self
    simp [Shape.children, Node.getD_nonempty?, hn]
  | field _ hq ht' ih =>
    exact .field (ih trivial ((Node.Every.of_singleton ht).2 _ List.mem_cons_self)) hq ht'
  | postUnary _ hq ih =>
    exact .postUnary (ih trivial ((Node.Every.of_singleton ht).2 _ List.mem_cons_self)) hq
  | ofPostfixed h ih => exact (ih trivial ht).ofPostfixed (h.postfixed_head (.inr rfl))
  | prefixed hq h ih =>
    have he := (Node.Every.of_singleton ht).2 _ List.mem_cons_self
    exact .prefixed hq (ih trivial he) (h.plain rfl he)
  | sizeofType | cast => exact (Node.Every.of_singleton ht).1.elim
  | operator hq _ ih =>
    exact .operator hq (ih trivial ((Node.Every.of_singleton ht).2 _ List.mem_cons_self))
  | ofUnary h ih => exact (ih trivial ht).ofUnary (h.plain rfl ht)
  | ofOperand _ ih => exact (ih trivial ht).ofOperand
  | tighter _ ih => exact (ih ((List.suffix_cons _ _).trans hp) ht).tighter
  | binary _ _ hop _ ih ih' =>
    have hc := (Node.Every.of_singleton ht).2
    exact .binary (ih hp (hc _ (by simp [Shape.children]))) hp hop
      (ih' ((List.suffix_cons _ _).trans hp) (hc _ (by simp [Shape.children])))
  | ofBinary _ ih => exact (ih (List.suffix_refl _) ht).ofBinary
  | ternary _ hq _ ht' _ ih ih' ih'' =>
    have hc := (Node.Every.of_singleton ht).2
    exact .ternary (ih (List.suffix_refl _) (hc _ (by simp [Shape.children]))) hq
      (ih' trivial (hc _ (by simp [Shape.children]))) ht'
      (ih'' trivial (hc _ (by simp [Shape.children])))
  | ofConditional _ ih => exact (ih trivial ht).ofConditional
  | assign _ he hq _ ih ih' =>
    have hc := (Node.Every.of_singleton ht).2
    exact .assign (ih trivial (hc _ (by simp [Shape.children]))) he hq
      (ih' trivial (hc _ (by simp [Shape.children])))
  | expression _ ih =>
    exact (ih trivial (Node.Every.of_collect (List.forall_mem_singleton.mp ht) rfl)).expression
  | @one p _ _ _ ih =>
    cases p with
    | assignment => exact (ih trivial ht).one
    | _ => trivial
  | @more p _ _ _ _ _ _ hc _ ih ihs =>
    cases p with
    | assignment =>
      rw [List.forall_mem_cons] at ht
      exact (ih trivial (List.forall_mem_singleton.mpr ht.1)).more hc (ihs trivial ht.2)
    | _ => trivial
  | @absent p =>
    cases p with
    | commas p =>
      cases p with
      | assignment => exact .absent
      | _ => trivial
    | _ => trivial
  | @present p _ _ h ih =>
    cases p with
    | commas p =>
      cases p with
      | assignment =>
        obtain ⟨t, us, rfl, hk⟩ := (h.plain rfl ht).head
        exact (ih trivial ht).present ⟨t, us, rfl, fun he => by rw [he] at hk; revert hk; decide⟩
      | _ => trivial
    | _ => trivial
  | _ => trivial

end CPretty
