import CPretty.Proofs.Grammar.Completeness

namespace CPretty

open Parse Grammar Lookahead

variable {limit k m : Nat} {c d : Cursor} {e : ParseError} {n : Node} {ks ks' : List Kind}

def Node.inParens (n : Node) : Nat → Node
  | 0 => n
  | k + 1 => ⟨default, .parens (n.inParens k)⟩

/-- The second parser reads from the position what the first one does, as long as no token of the
given kinds follows it, and fails as the first one does. -/
structure Widens (ks : List Kind) (p q : Parse Node) (c : Cursor) : Prop where
  ok : ∀ {n d}, p c = .ok (n, d) → d.peek.kind ∉ ks → q c = .ok (n, d)
  error : ∀ {e}, p c = .error e → q c = .error e

namespace Widens

variable {p q r : Parse Node}

theorem refl (ks : List Kind) (p : Parse Node) (c : Cursor) : Widens ks p p c :=
  ⟨fun h _ => h, fun h => h⟩

theorem trans (h : Widens ks p q c) (h' : Widens ks' q r c) (hk : ks ⊆ ks') : Widens ks' p r c where
  ok hp hd := h'.ok (h.ok hp fun hm => hd (hk hm)) hd
  error hp := h'.error (h.error hp)

theorem bind {f : Node → Parse Node}
    (hf : ∀ n d, d.peek.kind ∉ ks → f n d = .ok (n, d)) : Widens ks p (p >>= f) c where
  ok hp hd := (bind_of_ok hp).trans (hf _ _ hd)
  error hp := bind_of_error hp

end Widens

namespace Grammar

variable {deep : Nested}

theorem binary_widens (operand : Parse Node) (ls : List Expected) (c : Cursor) :
    Widens (extendsBinary ls) operand (binary operand ls) c := by
  induction ls with
  | nil => exact .refl _ _ _
  | cons l ls ih =>
    refine ih.trans (.bind fun n d hd => ?_) (extendsBinary_subset ls l)
    exact iterateUpTo_of_none (binaryStep_none (not_accepts hd)) _

theorem conditional_widens (deep : Nested) (c : Cursor) :
    Widens extendsConditional deep.operand (conditional deep) c := by
  refine (binary_widens deep.operand ladder c).trans (.bind fun n d hd => ?_)
    (List.subset_append_left _ _)
  rw [bind_of_ok (eat_of_ne fun hq => hd (hq ▸ by decide))]
  rfl

theorem assignmentUpTo_widens (deep : Nested) (m : Nat) (c : Cursor) :
    Widens extendsAssignment deep.operand (assignmentUpTo deep m) c := by
  have subset : extendsConditional ⊆ extendsAssignment := List.subset_append_left _ _
  cases m with
  | zero => exact (conditional_widens deep c).trans (.refl _ _ c) subset
  | succ m =>
    refine (conditional_widens deep c).trans (.bind fun n d hd => ?_) subset
    rw [bind_of_ok (peekKind_apply d), if_neg]
    · rfl
    · exact fun hk => hd (List.mem_append_right _ (List.contains_iff_mem.mp hk))

theorem assignment_widens (deep : Nested) (c : Cursor) :
    Widens extendsAssignment deep.operand (assignment deep) c :=
  have h := assignmentUpTo_widens deep c.ahead.length c
  ⟨h.ok, h.error⟩

/-- An expression of one operand alone is that operand. -/
theorem expression_widens (deep : Nested) (c : Cursor) :
    Widens extendsExpression deep.operand (expression deep) c := by
  have whole : expression deep = assignment deep >>= fun n => do
      return Node.collect .exprs (n :: (← commaItems (assignment deep))) := by
    simp only [expression, commaList, bind_assoc, pure_bind]
  rw [whole]
  refine (assignment_widens deep c).trans (.bind fun n d hd => ?_)
    (List.subset_append_left _ _)
  have comma : d.peek.kind ≠ .comma := fun hk => hd (hk ▸ by decide)
  have alone : commaItems (assignment deep) d = .ok ([], d) := by
    refine many_of_none ?_
    rw [bind_of_ok (eat_of_ne comma)]
    rfl
  rw [bind_of_ok alone]
  rfl

def valueStarts : List Kind := [.lParen, .constant]

theorem not_startsTypeName {ts : List Token} (h : ∀ t ∈ ts.head?, t.kind ∈ valueStarts) :
    startsTypeName true ts = false := by
  cases ts with
  | nil => rfl
  | cons t ts =>
    have kinds : ∀ k ∈ valueStarts, startsType k = false ∧ (k == .ident) = false := by decide
    obtain ⟨ht, hi⟩ := kinds _ (h t rfl)
    rw [startsTypeName, ht, hi]
    rfl

/-- Where no cast and no prefix operator starts, an operand is read from its primary expression. -/
theorem operand_widens (hc : c.peek.kind ∈ valueStarts)
    (hp : ∀ t ∈ c.ahead.tail.head?, c.peek.kind = .lParen → t.kind ∈ valueStarts) :
    Widens Kind.suffixStarts (primary deep) (operand deep) c := by
  have kinds : ∀ k ∈ valueStarts, (k.is .count || k == .kwSizeof) = false ∧
      (k == .kwSizeof) = false ∧ k.is .unary = false := by decide
  obtain ⟨hcount, hsizeof, hunary⟩ := kinds _ hc
  have casts : castPrefix? deep c = .ok (none, c) := by
    rw [castPrefix?, bind_of_ok (check_apply _ c), bind_of_ok (ahead_apply c)]
    by_cases hl : c.peek.kind = .lParen
    · rw [not_startsTypeName fun t ht => hp t ht hl, Bool.and_false]
      rfl
    · rw [beq_eq_false_iff_ne.mpr hl]
      rfl
  have ops : prefixOperator? c = .ok (none, c) := by
    rw [prefixOperator?_apply, if_neg]
    simp_all
  have body : unaryBody deep c = postfixed deep c := by
    rw [unaryBody, bind_of_ok (peekKind_apply c), if_neg (by simp [hsizeof]),
      if_neg (by simp [hunary])]
  have whole : operand deep c = postfixed deep c := by
    rw [operand, bind_of_ok (many_of_none casts), unary, bind_assoc, bind_of_ok (many_of_none ops)]
    simp only [List.foldr_nil, bind_pure, body]
  have suffixes : Widens Kind.suffixStarts (primary deep) (postfixed deep) c :=
    .bind fun n d hd => iterateUpTo_of_none (access?_none hd) _
  exact ⟨fun h hd => whole.trans (suffixes.ok h hd), fun h => whole.trans (suffixes.error h)⟩

variable {opens closes : List Token} {one : Token}

theorem head_values (ho : ∀ t ∈ opens, t.kind = .lParen) (h1 : one.kind = .constant)
    (ts : List Token) : ∀ t ∈ (opens ++ one :: ts).head?, t.kind ∈ valueStarts := by
  cases opens with
  | nil => rintro _ ⟨⟩; rw [h1]; decide
  | cons l opens => rintro _ ⟨⟩; rw [ho l List.mem_cons_self]; decide

theorem primary_constant (h : one.kind = .constant) (c : Cursor) :
    primary deep (c.before [one]) = .ok (one.leaf (.const one.text), c) := by
  obtain ⟨kind, text, loc⟩ := one
  obtain rfl : kind = .constant := h
  rfl

theorem primary_lParen {l : Token} (hl : l.kind = .lParen) (d : Cursor) :
    primary deep (d.before [l]) = (do
      let inner ← expression deep
      let close ← expect .rParen
      return Node.between l.span close.span (.parens inner)) d := by
  rw [primary, bind_of_ok (peekKind_apply _), Cursor.peek_before_cons, hl]
  rfl

theorem primary_parens_ok {l r : Token} (hl : l.kind = .lParen) (hr : r.kind = .rParen)
    (h : expression deep d = .ok (n, c.before [r])) :
    primary deep (d.before [l]) = .ok (Node.between l.span r.span (.parens n), c) := by
  have close : expect .rParen (c.before [r]) = .ok (r, c) := by
    rw [expect_apply, if_pos (by simp [hr])]
    rfl
  rw [primary_lParen hl, bind_of_ok h, bind_of_ok close]
  rfl

theorem primary_parens_error {l : Token} (hl : l.kind = .lParen)
    (h : expression deep d = .error e) : primary deep (d.before [l]) = .error e := by
  rw [primary_lParen hl]
  exact bind_of_error h

theorem not_suffixStarts (hc : c.peek.kind ∉ extendsExpression) :
    c.peek.kind ∉ Kind.suffixStarts := by
  have sub : Kind.suffixStarts ⊆ extendsExpression := by decide
  exact fun hm => hc (sub hm)

theorem operand_lParen {l : Token} (limit k : Nat) (hl : l.kind = .lParen)
    (hd : ∀ t ∈ d.ahead.head?, t.kind ∈ valueStarts) :
    Widens Kind.suffixStarts (primary (.levels limit k)) (Nested.levels limit (k + 1)).operand
      (d.before [l]) := by
  refine operand_widens ?_ fun t ht _ => hd t ht
  rw [Cursor.peek_before_cons, hl]
  decide

theorem operand_parens_ok {l r : Token} (hl : l.kind = .lParen) (hr : r.kind = .rParen)
    (hd : ∀ t ∈ d.ahead.head?, t.kind ∈ valueStarts) (hc : c.peek.kind ∉ extendsExpression)
    (h : (Nested.levels limit k).operand d = .ok (n, c.before [r])) :
    (Nested.levels limit (k + 1)).operand (d.before [l]) =
      .ok (Node.between l.span r.span (.parens n), c) := by
  have stops : (c.before [r]).peek.kind ∉ extendsExpression := by
    rw [Cursor.peek_before_cons, hr]
    decide
  have inner := (expression_widens (.levels limit k) d).ok h stops
  exact (operand_lParen limit k hl hd).ok (primary_parens_ok hl hr inner) (not_suffixStarts hc)

theorem operand_parens_error {l : Token} (hl : l.kind = .lParen)
    (hd : ∀ t ∈ d.ahead.head?, t.kind ∈ valueStarts)
    (h : (Nested.levels limit k).operand d = .error e) :
    (Nested.levels limit (k + 1)).operand (d.before [l]) = .error e := by
  have inner := (expression_widens (.levels limit k) d).error h
  exact (operand_lParen limit k hl hd).error (primary_parens_error hl inner)

theorem operand_constant (limit k : Nat) (h1 : one.kind = .constant)
    (hc : c.peek.kind ∉ extendsExpression) :
    (Nested.levels limit (k + 1)).operand (c.before [one]) =
      .ok (one.leaf (.const one.text), c) := by
  have value : (c.before [one]).peek.kind = .constant := by rw [Cursor.peek_before_cons, h1]
  refine (operand_widens (by rw [value]; decide) fun t _ hp => ?_).ok (primary_constant h1 c)
    (not_suffixStarts hc)
  rw [value] at hp
  cases hp

/-- A constant in parentheses is read where a level is left for each pair of them and one for the
constant. Otherwise the reading stops behind as many parentheses as there are levels left. -/
theorem operand_inParens (limit : Nat) (ho : ∀ t ∈ opens, t.kind = .lParen)
    (hr : ∀ t ∈ closes, t.kind = .rParen) (h1 : one.kind = .constant)
    (hl : opens.length = closes.length) (k : Nat) (c : Cursor)
    (hc : c.peek.kind ∉ extendsExpression) :
    (opens.length < k → ∃ n, (Nested.levels limit k).operand (c.before (opens ++ one :: closes)) =
        .ok (n, c) ∧ n.bare = Node.inParens ⟨default, .const one.text⟩ opens.length) ∧
      (k ≤ opens.length → (Nested.levels limit k).operand (c.before (opens ++ one :: closes)) =
        .error ((c.before ((opens ++ one :: closes).drop k)).excess limit)) := by
  induction opens generalizing closes k c with
  | nil =>
    obtain rfl := List.length_eq_zero_iff.mp hl.symm
    cases k with
    | zero => exact ⟨fun h => absurd h (Nat.not_lt_zero _), fun _ => rfl⟩
    | succ k =>
      exact ⟨fun _ => ⟨_, operand_constant limit k h1 hc, rfl⟩,
        fun h => absurd h (Nat.not_succ_le_zero k)⟩
  | cons l opens ih =>
    rw [List.forall_mem_cons] at ho
    obtain ⟨closes, r, rfl⟩ : ∃ cs r, closes = cs ++ [r] := by
      refine ⟨_, _, (List.dropLast_concat_getLast (l := closes) ?_).symm⟩
      rintro rfl
      cases hl
    rw [List.forall_mem_append, List.forall_mem_singleton] at hr
    have lengths : opens.length = closes.length := by simpa using hl
    let d : Cursor := (c.before [r]).before (opens ++ one :: closes)
    have front : c.before (l :: opens ++ one :: (closes ++ [r])) = d.before [l] := by
      simp [d, Cursor.before]
    have values : ∀ t ∈ d.ahead.head?, t.kind ∈ valueStarts := by
      simpa [d, Cursor.before] using head_values ho.2 h1 (closes ++ [r])
    have stops : (c.before [r]).peek.kind ∉ extendsExpression := by
      rw [Cursor.peek_before_cons, hr.2]
      decide
    cases k with
    | zero => exact ⟨fun h => absurd h (Nat.not_lt_zero _), fun _ => rfl⟩
    | succ k =>
      obtain ⟨inside, outside⟩ := ih ho.2 hr.1 lengths k (c.before [r]) stops
      rw [front]
      constructor
      · intro hk
        obtain ⟨n, hn, hb⟩ := inside (Nat.lt_of_succ_lt_succ hk)
        refine ⟨_, operand_parens_ok ho.1 hr.2 values hc hn, ?_⟩
        rw [Node.between, Node.bare_mk, Shape.map, hb]
        rfl
      · intro hk
        have hk := Nat.le_of_succ_le_succ hk
        have drop : (opens ++ one :: (closes ++ [r])).drop k =
            (opens ++ one :: closes).drop k ++ [r] := by
          rw [← List.cons_append, ← List.append_assoc, List.drop_append_of_le_length]
          rw [List.length_append]
          exact Nat.le_add_right_of_le hk
        rw [operand_parens_error ho.1 values (outside hk), List.cons_append, List.drop_succ_cons,
          drop, Cursor.before_append]

end Grammar

end CPretty
