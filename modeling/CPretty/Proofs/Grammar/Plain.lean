import CPretty.Proofs.Syntax.Within

namespace CPretty

open Lookahead

def Kind.operandStarts : List Kind :=
  [.ident, .constant, .stringLiteral, .lParen, .plusPlus, .minusMinus, .kwSizeof, .amp, .star,
    .plus, .minus, .tilde, .bang]

def Kind.suffixStarts : List Kind := [.lBracket, .lParen, .dot, .arrow, .plusPlus, .minusMinus]

/-- The form is neither a cast nor the size of a type. -/
def Shape.TakesNoType : Shape Node → Prop
  | .cast .. | .unary _ _ true => False
  | _ => True

/-- The phrases that are expressions, and lists of them. -/
def Phrase.isExpression : Phrase → Bool
  | .primary | .postfixed | .unary | .operand | .binary _ | .conditional | .assignment
  | .expression => true
  | .commas p => p.isExpression
  | _ => false

/-- Behind its leading stars the list goes on, and not with a closing parenthesis. -/
def Stands (xs : List Token) : Prop := ∃ t ts, xs.dropWhile isStar = t :: ts ∧ t.kind ≠ .rParen

namespace Stands

variable {t : Token} {xs : List Token}

theorem append (h : Stands xs) (ys : List Token) : Stands (xs ++ ys) := by
  obtain ⟨t, ts, hx, ht⟩ := h
  exact ⟨t, ts ++ ys, by simp [List.dropWhile_append, hx], ht⟩

theorem cons (ht : t.kind ≠ .rParen) (h : t.kind = .star → Stands xs) : Stands (t :: xs) := by
  by_cases hs : t.kind = .star
  · obtain ⟨u, us, hx, hu⟩ := h hs
    exact ⟨u, us, by simpa [isStar, hs] using hx, hu⟩
  · exact ⟨t, xs, by simp [isStar, hs], ht⟩

end Stands

theorem startsTypeName_of_cast {xs : List Token} (h : startsTypeName true xs = false) :
    startsTypeName false xs = false := by
  cases xs with
  | nil => rfl
  | cons t ts =>
    rw [startsTypeName] at h ⊢
    generalize ts.dropWhile isStar = us at h
    cases us <;> simp_all

/-- Tokens that are not taken for a type name: after an opening parenthesis they do not start one,
and a parenthesis that they start with does not open one, as long as no operand follows them. -/
structure Plain (xs : List Token) : Prop where
  head : ∃ t ts, xs = t :: ts ∧ t.kind ∈ Kind.operandStarts
  stands : Stands xs
  name : ∀ t ts, xs = t :: ts → t.kind = .ident → ts = [] ∨ Stands ts
  paren : ∀ t ts, xs = t :: ts → t.kind = .lParen → ∀ rest : List Token,
    (∀ u ∈ rest.head?, u.kind ∉ castOperands) → startsTypeName true (ts ++ rest) = false

namespace Plain

variable {t l r : Token} {k : Kind} {xs ys zs : List Token}

theorem cons (ht : t.kind ∈ Kind.operandStarts) (hi : t.kind ≠ .ident) (hp : t.kind ≠ .lParen)
    (h : t.kind = .star → Stands xs) : Plain (t :: xs) where
  head := ⟨t, xs, rfl, ht⟩
  stands := .cons (fun he => by rw [he] at ht; revert ht; decide) h
  name := by
    rintro _ _ ⟨⟩ hn
    exact absurd hn hi
  paren := by
    rintro _ _ ⟨⟩ hl
    exact absurd hl hp

theorem ident (ht : t.kind = .ident) : Plain [t] where
  head := ⟨t, [], rfl, by rw [ht]; decide⟩
  stands := .cons (by rw [ht]; decide) fun hs => by rw [ht] at hs; cases hs
  name := by
    rintro _ _ ⟨⟩ -
    exact .inl rfl
  paren := by
    rintro _ _ ⟨⟩ hl
    rw [ht] at hl
    cases hl

/-- An expression with something after it that is no operand. -/
theorem append (h : Plain xs) (hz : Stands zs) (hc : ∀ u ∈ zs.head?, u.kind ∉ castOperands) :
    Plain (xs ++ zs) := by
  obtain ⟨t, ts, rfl, ht⟩ := h.head
  refine ⟨⟨t, ts ++ zs, rfl, ht⟩, h.stands.append zs, ?_, ?_⟩
  · rintro _ _ ⟨⟩ hn
    obtain rfl | hs := h.name t ts rfl hn
    · exact .inr hz
    · exact .inr (hs.append zs)
  · rintro _ _ ⟨⟩ hl rest hr
    rw [List.append_eq, List.append_assoc]
    refine h.paren t ts rfl hl (zs ++ rest) fun u hu => ?_
    cases zs with
    | nil =>
      obtain ⟨_, _, hz, -⟩ := hz
      cases hz
    | cons z zs => exact hc u hu

/-- An opening parenthesis before an expression and a closing one is not one of a cast. -/
theorem startsTypeName_eq (h : Plain xs) (hr : r.kind = .rParen) {rest : List Token}
    (hc : ∀ u ∈ rest.head?, u.kind ∉ castOperands) :
    startsTypeName true (xs ++ r :: rest) = false := by
  obtain ⟨t, ts, rfl, ht⟩ := h.head
  have types : ∀ k ∈ Kind.operandStarts, startsType k = false := by decide
  rw [List.cons_append, startsTypeName, types _ ht, Bool.false_or, Bool.and_eq_false_imp]
  intro hn
  obtain rfl | ⟨u, us, hs, hu⟩ := h.name t ts rfl (eq_of_beq hn)
  · have star : isStar r = false := by rw [isStar, hr]; rfl
    have operand : (rest.head?.any fun u => castOperands.contains u.kind) = false := by
      rw [Option.any_eq_false]
      exact fun u hu => by simpa using hc u hu
    simp [star, operand, -List.contains_eq_mem]
  · have close : (u.kind == .rParen) = false := by simpa using hu
    simp [List.dropWhile_append, hs, close]

theorem parens (hl : l.kind = .lParen) (h : Plain xs) (hr : r.kind = .rParen) :
    Plain (l :: xs ++ [r]) where
  head := ⟨l, xs ++ [r], rfl, by rw [hl]; decide⟩
  stands := .cons (by rw [hl]; decide) fun hs => by rw [hl] at hs; cases hs
  name := by
    rintro _ _ ⟨⟩ hn
    rw [hl] at hn
    cases hn
  paren := by
    rintro _ _ ⟨⟩ - rest hc
    rw [List.append_eq, List.append_assoc]
    exact h.startsTypeName_eq hr hc

theorem startsSizeofType_eq (h : Plain xs) {rest : List Token}
    (hc : ∀ u ∈ rest.head?, u.kind ∉ castOperands) :
    Grammar.startsSizeofType (t :: (xs ++ rest)) = false := by
  obtain ⟨u, us, rfl, -⟩ := h.head
  rw [List.cons_append, Grammar.startsSizeofType]
  cases hu : u.kind == .lParen with
  | false => simp
  | true =>
    rw [startsTypeName_of_cast (h.paren u us rfl (eq_of_beq hu) rest hc), Bool.and_false]

theorem operator (h : Plain xs) (ht : t.kind ≠ .rParen ∧ t.kind ∉ castOperands) (h' : Plain ys) :
    Plain (xs ++ t :: ys) := by
  refine h.append (.cons ht.1 fun _ => h'.stands) ?_
  rintro _ ⟨⟩
  exact ht.2

theorem suffix (h : Plain xs) (ht : t.kind ∈ Kind.suffixStarts) : Plain (xs ++ t :: ys) := by
  have starts : ∀ k ∈ Kind.suffixStarts, k ≠ .rParen ∧ k ≠ .star ∧ k ∉ castOperands := by decide
  obtain ⟨hp, hs, hc⟩ := starts _ ht
  refine h.append (.cons hp fun he => absurd he hs) ?_
  rintro _ ⟨⟩
  exact hc

end Plain

theorem Grammar.ladder_kinds {l : Expected} {k : Kind} (hl : l ∈ ladder) (h : l.accepts k = true) :
    k ≠ .rParen ∧ k ∉ castOperands := by
  have operands : ∀ l ∈ ladder, ∀ k ∈ Kind.rParen :: castOperands, l.accepts k = false := by decide
  constructor
  · rintro rfl
    rw [operands l hl _ List.mem_cons_self] at h
    cases h
  · intro hk
    rw [operands l hl _ (List.mem_cons_of_mem _ hk)] at h
    cases h

/-- The tokens of an expression that takes no type name are not taken for one. -/
theorem Derives.plain {p : Phrase} {xs : List Token} {ns : List Node} (h : Derives p xs ns)
    (hp : p.isExpression = true) (ht : ∀ n ∈ ns, n.Every Shape.TakesNoType) : Plain xs := by
  induction h with
  | one _ ih => exact ih hp ht
  | @more _ _ _ t _ _ _ hc _ ih ihs =>
    rw [List.forall_mem_cons] at ht
    have kind : t.kind ≠ .rParen ∧ t.kind ∉ castOperands := hc ▸ by decide
    exact (ih hp (List.forall_mem_singleton.mpr ht.1)).operator kind (ihs hp ht.2)
  | ident hi => exact .ident hi
  | constant hi => exact .cons (hi ▸ by decide) (by simp [hi]) (by simp [hi]) (by simp [hi])
  | strings hs =>
    have hi := hs _ List.mem_cons_self
    exact .cons (hi ▸ by decide) (by simp [hi]) (by simp [hi]) (by simp [hi])
  | parens hl _ hr ih =>
    exact .parens hl (ih rfl ((Node.Every.of_singleton ht).2 _ List.mem_cons_self)) hr
  | index _ hl _ _ ih _ =>
    have he := (Node.Every.of_singleton ht).2 _ List.mem_cons_self
    rw [List.append_assoc]
    exact (ih rfl he).suffix (hl ▸ by decide)
  | call _ hl _ _ ih _ =>
    have he := (Node.Every.of_singleton ht).2 _ List.mem_cons_self
    rw [List.append_assoc]
    exact (ih rfl he).suffix (hl ▸ by decide)
  | field _ hop _ ih =>
    have he := (Node.Every.of_singleton ht).2 _ List.mem_cons_self
    exact (ih rfl he).suffix (by obtain h | h := hop <;> exact h ▸ by decide)
  | postUnary _ hop ih =>
    have he := (Node.Every.of_singleton ht).2 _ List.mem_cons_self
    exact (ih rfl he).suffix (Kind.of_is hop (by decide))
  | @prefixed op _ _ _ hop _ _ =>
    have kind : op.kind ∈ [Kind.plusPlus, .minusMinus, .kwSizeof] := by
      obtain h | h := hop
      · exact Kind.of_is h (by decide)
      · simp [h]
    have starts : ∀ k ∈ [Kind.plusPlus, .minusMinus, .kwSizeof], k ∈ Kind.operandStarts ∧
        k ≠ .ident ∧ k ≠ .lParen ∧ k ≠ .star := by decide
    obtain ⟨hk, hi, hl, hs⟩ := starts _ kind
    exact .cons hk hi hl fun h => absurd h hs
  | sizeofType | cast => exact (Node.Every.of_singleton ht).1.elim
  | operator hop _ ih =>
    have starts : ∀ k ∈ Category.members .unary, k ∈ Kind.operandStarts ∧ k ≠ .ident ∧
        k ≠ .lParen := by decide
    obtain ⟨hk, hi, hl⟩ := Kind.of_is hop starts
    have he := (Node.Every.of_singleton ht).2 _ List.mem_cons_self
    exact .cons hk hi hl fun _ => (ih rfl he).stands
  | binary hl _ hop _ ih ih' =>
    have hc := (Node.Every.of_singleton ht).2
    exact (ih rfl (hc _ (by simp [Shape.children]))).operator (Grammar.ladder_kinds hl hop)
      (ih' rfl (hc _ (by simp [Shape.children])))
  | ternary _ hq _ hs _ ih ih' ih'' =>
    have hc := (Node.Every.of_singleton ht).2
    exact ((ih rfl (hc _ (by simp [Shape.children]))).operator (hq ▸ by decide)
      (ih' rfl (hc _ (by simp [Shape.children])))).operator (hs ▸ by decide)
      (ih'' rfl (hc _ (by simp [Shape.children])))
  | assign _ _ hop _ ih ih' =>
    have hc := (Node.Every.of_singleton ht).2
    have kinds : ∀ k ∈ Category.members .assignment, k ≠ .rParen ∧ k ∉ castOperands := by decide
    exact (ih rfl (hc _ (by simp [Shape.children]))).operator (Kind.of_is hop kinds)
      (ih' rfl (hc _ (by simp [Shape.children])))
  | expression _ ih =>
    exact ih rfl (Node.Every.of_collect (List.forall_mem_singleton.mp ht) rfl)
  | ofPrimary _ ih | ofPostfixed _ ih | ofUnary _ ih | ofOperand _ ih | tighter _ ih
  | ofBinary _ ih | ofConditional _ ih => exact ih rfl ht
  | _ => cases hp

end CPretty
