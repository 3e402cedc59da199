import CPretty.Grammar.SourceFile
import CPretty.Proofs.Parse.Alike

namespace CPretty

theorem Kind.not_mem_brackets {k : Kind} {g : Category} (h : k.is g = true) :
    k ∉ Kind.brackets := by
  have none : ∀ k ∈ Kind.brackets, k.is g = false := by cases g <;> decide
  intro hb
  rw [none k hb] at h
  cases h

namespace Likeness

open Parse

variable {L : Likeness} {c c' : Cursor} {ts ts' : List Token} {t t' : Token} {n n' m m' : Node}

open Lookahead

theorem isStar_eq (h : L.token t t') : isStar t = isStar t' := by
  rw [isStar, isStar, L.kind_eq h]

theorem getElem?_any (h : List.Forall₂ L.token ts ts') (p : Kind → Bool) (i : Nat) :
    ts[i]?.any (fun t => p t.kind) = ts'[i]?.any (fun t => p t.kind) := by
  induction h generalizing i with
  | nil => rfl
  | cons h _ ih =>
    cases i with
    | zero => simp [L.kind_eq h]
    | succ i => simpa using ih i

theorem head?_any (h : List.Forall₂ L.token ts ts') (p : Kind → Bool) :
    ts.head?.any (fun t => p t.kind) = ts'.head?.any (fun t => p t.kind) := by
  rw [List.head?_eq_getElem?, List.head?_eq_getElem?]
  exact getElem?_any h p 0

theorem dropStars (h : List.Forall₂ L.token ts ts') :
    List.Forall₂ L.token (ts.dropWhile isStar) (ts'.dropWhile isStar) := by
  induction h with
  | nil => exact .nil
  | cons h hts ih =>
    rw [List.dropWhile_cons, List.dropWhile_cons, isStar_eq h]
    split
    · exact ih
    · exact .cons h hts

theorem startsTypeName_eq (h : List.Forall₂ L.token ts ts') (inCast : Bool) :
    startsTypeName inCast ts = startsTypeName inCast ts' := by
  cases h with
  | nil => rfl
  | @cons t t' ts ts' h hts =>
    have hd := dropStars hts
    have hs : ts.head?.any isStar = ts'.head?.any isStar := head?_any hts (· == .star)
    rw [startsTypeName, startsTypeName, L.kind_eq h, hs]
    generalize ts.dropWhile isStar = us, ts'.dropWhile isStar = us' at hd
    cases hd with
    | nil => rfl
    | cons h hus => simp only [L.kind_eq h, head?_any hus castOperands.contains]

theorem startsDeclaration_eq (h : List.Forall₂ L.token ts ts') :
    startsDeclaration ts = startsDeclaration ts' := by
  cases h with
  | nil => rfl
  | cons h hts =>
    rw [startsDeclaration, startsDeclaration, L.kind_eq h,
      head?_any (dropStars hts) (· == .ident)]

theorem isIdentifierList_eq (h : List.Forall₂ L.token ts ts') :
    isIdentifierList ts = isIdentifierList ts' := by
  fun_induction isIdentifierList ts generalizing ts' with
  | case1 a b ts ih =>
    obtain _ | ⟨ha, _ | ⟨hb, hts⟩⟩ := h
    rw [isIdentifierList, L.kind_eq ha, L.kind_eq hb, ih hts]
  | case2 ts hne =>
    obtain _ | ⟨ha, _ | ⟨hb, hts⟩⟩ := h
    · rfl
    · rfl
    · exact absurd rfl (hne _ _ _)

theorem startsNestedAbstract_eq (h : List.Forall₂ L.token ts ts') :
    startsNestedAbstract ts = startsNestedAbstract ts' := by
  obtain _ | ⟨ha, _ | ⟨hb, hts⟩⟩ := h
  · rfl
  · rfl
  · rw [startsNestedAbstract, startsNestedAbstract, L.kind_eq ha, L.kind_eq hb]

theorem startsSizeofType_eq (h : List.Forall₂ L.token ts ts') :
    Grammar.startsSizeofType ts = Grammar.startsSizeofType ts' := by
  obtain _ | ⟨ha, _ | ⟨hb, hts⟩⟩ := h
  · rfl
  · rfl
  · rw [Grammar.startsSizeofType, Grammar.startsSizeofType, L.kind_eq ha, L.kind_eq hb,
      startsTypeName_eq hts]

/-- Nesting productions that do the same on corresponding tokens. A `struct` specifier is read only
at its keyword. -/
structure Nesteds (L : Likeness) (deep deep' : Nested) : Prop where
  operand : L.Alike L.Nodes deep.operand deep'.operand
  expression : L.Alike L.Nodes deep.expression deep'.expression
  conditional : L.Alike L.Nodes deep.conditional deep'.conditional
  struct : ∀ ⦃c c'⦄, L.Cursors c c' → c.peek.kind.is .structOrUnion = true →
    L.Outcome L.Nodes (deep.struct c) (deep'.struct c')
  initializer : L.Alike L.Nodes deep.initializer deep'.initializer
  declarator : L.Alike L.Nodes deep.declarator deep'.declarator
  abstractDeclarator : L.Alike L.Nodes deep.abstractDeclarator deep'.abstractDeclarator
  statement : L.Alike L.Nodes deep.statement deep'.statement

variable {deep deep' : Nested}

open Grammar

theorem binary_node (hn : L.Nodes n n') (ht : L.token t t') (hk : t.kind ∉ Kind.brackets)
    (hm : L.Nodes m m') : L.Nodes (.binary n t m) (.binary n' t' m') :=
  .between hn.span hm.span (by simp [Shape.map, L.text_eq ht hk, hn, hm])

theorem ladder_brackets : ∀ l ∈ ladder, ∀ k ∈ Kind.brackets, l.accepts k = false := by decide

theorem binary_alike {p p' : Parse Node} (h : L.Alike L.Nodes p p') (levels : List Expected)
    (hl : ∀ l ∈ levels, ∀ k ∈ Kind.brackets, l.accepts k = false) :
    L.Alike L.Nodes (binary p levels) (binary p' levels) := by
  induction levels with
  | nil => exact h
  | cons level tighter ih =>
    have hi := ih fun l hm => hl l (List.mem_cons_of_mem level hm)
    intro c c' hc
    refine .bind (hi hc) fun hn hd => Alike.iterate (fun {n n'} hn c c' hc => ?_) hn hd
    refine .peekKind hc fun k hk => ?_
    split
    · refine .advance hc fun ht hk' hd => .bind (hi hd) fun hm hd => .pure (.some ?_) hd
      refine binary_node hn ht (fun hb => ?_) hm
      have := hl level List.mem_cons_self _ hb
      simp_all
    · exact .pure .none hc

theorem conditional_alike (h : L.Nesteds deep deep') :
    L.Alike L.Nodes (conditional deep) (conditional deep') := by
  intro c c' hc
  refine .bind (binary_alike h.operand ladder ladder_brackets hc) fun hn hd => ?_
  refine .eat hd (fun hd => ?_) (.pure hn hd)
  refine .bind (h.expression hd) fun hy hd => .expect hd fun _ _ hd => ?_
  refine .bind (h.conditional hd) fun hz hd => .pure ?_ hd
  exact .between hn.span hz.span (by simp [Shape.map, hn, hy, hz])

theorem isTarget_eq (h : L.Nodes n n') : isTarget n = isTarget n' := by
  have same (f : Span → Span) (n : Node) : isTarget (n.respan f) = isTarget n := by
    rw [isTarget, isTarget, Node.shape_respan]
    cases n.shape <;> rfl
  rw [← same L.left n, h, same]

theorem assignment_alike (h : L.Nesteds deep deep') :
    L.Alike L.Nodes (assignment deep) (assignment deep') := by
  have loop (n : Nat) : L.Alike L.Nodes (assignmentUpTo deep n) (assignmentUpTo deep' n) := by
    induction n with
    | zero => exact conditional_alike h
    | succ n ih =>
      intro c c' hc
      refine .bind (conditional_alike h hc) fun hn hd => .peekKind hd fun k hk => ?_
      split
      · rw [isTarget_eq hn]
        split
        · refine .advance hd fun ht hk' hd => .bind (ih hd) fun hm hd => .pure ?_ hd
          refine .between hn.span hm.span ?_
          have ht := L.text_eq ht (hk'.trans hk ▸ Kind.not_mem_brackets ‹_›)
          simp [Shape.map, ht, hn, hm]
        · exact .fail hd _
      · exact .pure hn hd
  intro c c' hc
  refine .ahead ?_
  rw [← hc.length]
  exact loop _ hc

theorem expression_alike (h : L.Nesteds deep deep') :
    L.Alike L.Nodes (expression deep) (expression deep') := by
  intro c c' hc
  refine .bind (Alike.commaList (assignment_alike h) hc) fun hns hd => .pure ?_ hd
  exact .collect hns.1 hns.2 fun f ns => rfl

theorem condition_alike (h : L.Nesteds deep deep') :
    L.Alike L.Nodes (condition deep) (condition deep') := by
  intro c c' hc
  refine .expect hc fun _ _ hd => .bind (expression_alike h hd) fun hn hd => ?_
  exact .expect hd fun _ _ hd => .pure hn hd

end Likeness

end CPretty
