import CPretty.Proofs.Grammar.Blind.Expression

namespace CPretty

open Place Linked

variable {e : Ending} {P Q R : Place → Prop} {p q r : Place} {s : List Bracket} {o : Opening}
  {k : Kind} {t : Token} {xs ys ts : List Token} {ns : List Node}

/-- The tokens lead from one place to another, and none of them ends the part. -/
inductive Runs (e : Ending) : Place → List Token → Place → Prop
  | nil {p : Place} : Runs e p [] p
  | cons {p q r : Place} {t : Token} {ts : List Token} : ¬ e.At p.within t.kind →
      p.after? t.kind = some q → Runs e q ts r →
      Runs e p (t :: ts) r

theorem Runs.append (h : Runs e p xs q) (k : Runs e q ys r) : Runs e p (xs ++ ys) r := by
  induction h with
  | nil => exact k
  | cons hn hq _ ih => exact .cons hn hq (ih k)

/-- From each of the places `P` the tokens lead to one of the places `Q`. -/
def Walks (e : Ending) (P : Place → Prop) (xs : List Token) (Q : Place → Prop) : Prop :=
  ∀ p, P p → ∃ q, Q q ∧ Runs e p xs q

namespace Walks

theorem nil : Walks e P [] P := fun p hp => ⟨p, hp, .nil⟩

theorem append (h : Walks e P xs Q) (k : Walks e Q ys R) : Walks e P (xs ++ ys) R := by
  intro p hp
  obtain ⟨q, hq, h₁⟩ := h p hp
  obtain ⟨r, hr, h₂⟩ := k q hq
  exact ⟨r, hr, h₁.append h₂⟩

theorem cons (hl : Leads e P k Q) (ht : t.kind = k) (h : Walks e Q ts R) :
    Walks e P (t :: ts) R := by
  cases ht
  intro p hp
  obtain ⟨q, hq, hq'⟩ := hl.after p hp
  obtain ⟨r, hr, h⟩ := h q hq'
  exact ⟨r, hr, .cons (hl.not_at p hp) hq h⟩

theorem single (hl : Leads e P k Q) (ht : t.kind = k) : Walks e P [t] Q := .cons hl ht .nil

theorem restrict (h : Walks e Q xs R) (hP : ∀ p, P p → Q p) : Walks e P xs R :=
  fun p hp => h p (hP p hp)

theorem into (h : Walks e P xs Q) (hQ : ∀ p, Q p → R p) : Walks e P xs R := by
  intro p hp
  obtain ⟨q, hq, h⟩ := h p hp
  exact ⟨q, hQ q hq, h⟩

theorem toFree (h : Walks e P xs (At s .block)) : Walks e P xs (Free s) :=
  h.into fun _ hq => hq.free (by decide)

theorem ofFree (h : Walks e (Free s) xs R) : Walks e (At s .block) xs R :=
  h.restrict fun _ hq => hq.free (by decide)

theorem ofFree_list (h : Walks e (Free s) xs R) : Walks e (At s .list) xs R :=
  h.restrict fun _ hq => hq.free (by decide)

end Walks

namespace Phrase

/-- Where a phrase ends that stands within the brackets `s`. -/
def finish (s : List Bracket) : Phrase → Place → Prop
  | .enumeration | .record | .specifier | .declSpecs | .specQuals | .typeName | .abstractDirect
  | .pointed | .abstractDeclarator | .params | .paramList | .param | .paramDeclarator
  | .memberDeclarator | .braced _ | .optional _ => Free s
  | .commas p | .sequence p => p.finish s
  | _ => At s .block

/-- Where a phrase may start that stands within the brackets `s`. -/
def start (s : List Bracket) : Phrase → Place → Prop
  | .initializer | .braced _ => At s .list
  | .member | .compound | .statement | .blockItem | .forInit | .external => At s .block
  | .commas p => p.start s
  | .sequence p => p.finish s
  | _ => Free s

/-- The brackets that a phrase may stand within. -/
def Fits (e : Ending) (s : List Bracket) : Phrase → Prop
  | .expression | .params | .paramList => s.head? ≠ some .list
  | .memberDeclarator => e.PlainColon s
  | .member => s.head? ≠ some .list ∧ e.PlainColon s ∧ ¬ e.At s .semicolon
  | .declaration | .exprStatement => s.head? ≠ some .list ∧ ¬ e.At s .semicolon
  | .compound => ¬ e.At (.block :: s) .rBrace
  | .statement | .blockItem => s.head? = some .block
  | .forInit => s.head? = some .paren
  | .external => e.part = .source ∧ s = []
  | .commas p => p.Fits e s ∧ s.head? ≠ some .list ∧ ∀ q, At s .list q → p.start s q
  | .braced p => p.Fits e s ∧ (∀ q, At s .list q → p.start s q) ∧
      ∀ q, p.finish s q → At s .block q
  | .sequence p => p.Fits e s ∧ ∀ q, p.finish s q → p.start s q
  | .optional p => p.Fits e s ∧ ∀ q, Free s q → p.start s q
  | _ => True

theorem free_of_finish (ph : Phrase) (h : ph.finish s p) : Free s p := by
  induction ph with
  | commas _ ih => exact ih h
  | sequence _ ih => exact ih h
  | _ => first | exact h | exact At.free h (by decide)

end Phrase

theorem isInner_of_isSpecifierWord (h : t.isSpecifierWord = true) : t.kind.isInner = true := by
  simp only [Token.isSpecifierWord, Bool.or_eq_true] at h
  obtain ((h | h) | h) | h := h <;> exact isInner_of_is (by decide) h

namespace Walks

variable {l : Token}

theorem inner (h : ∀ u ∈ t :: ts, u.kind.isInner = true) :
    Walks e (Free s) (t :: ts) (At s .block) := by
  induction ts generalizing t with
  | nil => exact .single (.inner (h t List.mem_cons_self)) rfl
  | cons u us ih =>
    have hus := ih fun v hv => h v (List.mem_cons_of_mem t hv)
    exact .cons (.inner (h t List.mem_cons_self)) rfl hus.ofFree

theorem parens {r : Token} (hl : l.kind = .lParen)
    (h : Walks e (Free (.paren :: s)) xs (Free (.paren :: s))) (hr : r.kind = .rParen) :
    Walks e (Free s) (l :: xs ++ [r]) (At s .block) :=
  .cons .paren hl (h.ofFree.append (.single .closeParen hr))

theorem append_parens {r : Token} (h : Walks e P xs (Free s)) (hl : l.kind = .lParen)
    (h' : Walks e (Free (.paren :: s)) ys (Free (.paren :: s))) (hr : r.kind = .rParen) :
    Walks e P (xs ++ l :: ys ++ [r]) (At s .block) := by
  rw [List.append_assoc]
  exact h.append (.parens hl h' hr)

theorem append_squares {r : Token} (h : Walks e P xs (Free s)) (hl : l.kind = .lBracket)
    (h' : Walks e (Free (.square :: s)) ys (Free (.square :: s))) (hr : r.kind = .rBracket) :
    Walks e P (xs ++ l :: ys ++ [r]) (At s .block) := by
  rw [List.append_assoc]
  exact h.append (.cons .square hl (h'.ofFree.append (.single .closeSquare hr)))

theorem comma (ht : t.kind = .comma) (h : Walks e (At s .list) ts R) :
    Walks e (At s .block) (t :: ts) R := by
  rintro _ rfl
  obtain ⟨r, hr, h⟩ := h _ rfl
  refine ⟨r, hr, .cons ?_ ?_ h⟩
  · exact Ending.not_at (by rw [ht]; decide)
  · rw [ht, after?, if_neg (by simp)]

theorem block {r : Token} (hl : l.kind = .lBrace)
    (h : Walks e (At (.block :: s) .block) xs (At (.block :: s) .block)) (hr : r.kind = .rBrace)
    (hs : ¬ e.At (.block :: s) .rBrace) : Walks e (At s .block) (l :: xs ++ [r]) (At s .block) :=
  .cons .block hl (h.append (.single (.closeBlock hs) hr))

theorem header {kw r : Token} (hk : kw.kind.isInner = true) (hl : l.kind = .lParen)
    (h : Walks e (At (.paren :: s) .block) xs (Free (.paren :: s))) (hr : r.kind = .rParen)
    (h' : Walks e (At s .block) ys R) : Walks e (At s .block) (kw :: l :: xs ++ r :: ys) R :=
  .ofFree (.cons (.inner hk) rfl (.ofFree (.cons .paren hl (h.append (.cons .closeParen hr h')))))

theorem list {r : Token} (ho : o = .list ∨ o = .enumName) (hl : l.kind = .lBrace)
    (h : Walks e (At (.list :: s) .list) xs (Free (.list :: s))) (hr : r.kind = .rBrace) :
    Walks e (At s o) (l :: xs ++ [r]) (At s .block) :=
  .cons (.list ho) hl (h.append (.single .closeList hr))

theorem body {r : Token} (ho : o = .body ∨ o = .structName) (hl : l.kind = .lBrace)
    (h : Walks e (At (.body :: s) .block) xs (At (.body :: s) .block)) (hr : r.kind = .rBrace) :
    Walks e (At s o) (l :: xs ++ [r]) (At s .block) :=
  .cons (.body ho) hl (h.append (.single .closeBody hr))

end Walks

theorem head_of_head? {α : Type} {l : List α} {a : α} (h : l.head? = some a) :
    ∃ r, l = a :: r := by
  cases l with
  | nil => cases h
  | cons b r => cases h; exact ⟨r, rfl⟩

/-- The tokens of a phrase lead from where it may start to where it ends. -/
theorem Derives.walks {ph : Phrase} (h : Derives ph xs ns) :
    ∀ {s}, ph.Fits e s → Walks e (ph.start s) xs (ph.finish s) := by
  induction h with
  -- Lists
  | one _ ih => exact fun hf => ih hf.1
  | @more p _ _ _ _ _ _ ht _ ih₁ ih₂ =>
    intro s hf
    have comma := (Leads.comma (e := e) hf.2.1).into hf.2.2
    exact ((ih₁ hf.1).into fun _ => Phrase.free_of_finish p).append (.cons comma ht (ih₂ hf))
  | bracedNil => exact fun _ => Walks.nil.ofFree_list
  | bracedLast _ ih => exact fun hf => (((ih hf.1).restrict hf.2.1).into hf.2.2).toFree
  | bracedMore _ ht _ ih₁ ih₂ =>
    exact fun hf => (((ih₁ hf.1).restrict hf.2.1).into hf.2.2).append (.comma ht (ih₂ hf))
  | sequenceNil => exact fun _ => .nil
  | sequenceMore _ _ ih₁ ih₂ => exact fun hf => ((ih₁ hf.1).restrict hf.2).append (ih₂ hf)
  | absent => exact fun _ => .nil
  | @present p _ _ _ ih =>
    exact fun hf => ((ih hf.1).restrict hf.2).into fun _ => Phrase.free_of_finish p
  -- Expressions
  | ident ht => exact fun _ => .single (.inner rfl) ht
  | constant ht => exact fun _ => .single (.inner rfl) ht
  | strings hs => exact fun _ => .inner fun t ht => by rw [hs t ht]; rfl
  | parens hl _ hr ih => exact fun _ => .parens hl (ih (by simp [Phrase.Fits])).toFree hr
  | ofPrimary _ ih => exact ih
  | index _ hl _ hr ih₁ ih₂ =>
    exact fun _ => (ih₁ trivial).toFree.append_squares hl (ih₂ (by simp [Phrase.Fits])).toFree hr
  | call _ hl _ hr ih₁ ih₂ =>
    intro s _
    refine (ih₁ trivial).toFree.append_parens hl (ih₂ ⟨⟨trivial, by simp, ?_⟩, ?_⟩) hr
    · exact fun _ h => h.free (by decide)
    · exact fun _ h => h
  | field _ hop ht ih =>
    intro s _
    have hi : ∀ {t : Token}, Token.Of .dot t ∨ Token.Of .arrow t → t.kind.isInner = true := by
      rintro t (h | h) <;> (rw [h]; rfl)
    refine (ih trivial).toFree.append (.inner fun t hm => ?_)
    simp only [List.mem_cons, List.not_mem_nil, or_false] at hm
    obtain rfl | rfl := hm
    · exact hi hop
    · rw [ht]; rfl
  | postUnary _ hop ih =>
    exact fun _ => (ih trivial).toFree.append
      (.single (.inner (isInner_of_is (by decide) hop)) rfl)
  | ofPostfixed _ ih => exact ih
  | prefixed hop _ ih =>
    intro s _
    have hi : ∀ {t : Token}, Token.In .count t ∨ Token.Of .kwSizeof t → t.kind.isInner = true := by
      rintro t (h | h)
      · exact isInner_of_is (by decide) h
      · rw [h]; rfl
    exact .cons (.inner (hi hop)) rfl (ih trivial).ofFree
  | sizeofType hop hl _ hr ih =>
    exact fun _ => .cons (.inner rfl) hop (Walks.parens hl (ih trivial) hr).ofFree
  | operator hop _ ih =>
    exact fun _ => .cons (.inner (isInner_of_is (by decide) hop)) rfl (ih trivial).ofFree
  | ofUnary _ ih => exact ih
  | cast hl _ hr _ ih₁ ih₂ =>
    exact fun _ => .cons .paren hl ((ih₁ trivial).ofFree.append
      (.cons .closeParen hr (ih₂ trivial).ofFree))
  | ofOperand _ ih => exact ih
  | tighter _ ih => exact ih
  | binary hl _ ha _ ih₁ ih₂ =>
    exact fun _ => (ih₁ trivial).toFree.append
      (.cons (.inner (isInner_of_accepts hl ha)) rfl (ih₂ trivial).ofFree)
  | ofBinary _ ih => exact ih
  | ternary _ hq _ ht _ ih₁ ih₂ ih₃ =>
    intro s _
    have middle := (ih₂ (s := .choice :: s) (by simp [Phrase.Fits])).toFree.append
      (.cons .closeChoice ht (ih₃ trivial).ofFree)
    rw [List.append_assoc, List.cons_append]
    exact (ih₁ trivial).toFree.append (.cons .choice hq middle.ofFree)
  | ofConditional _ ih => exact ih
  | assign _ _ hop _ ih₁ ih₂ =>
    exact fun _ => (ih₁ trivial).toFree.append (.cons (.assignment hop) rfl (ih₂ trivial))
  | expression _ ih => exact fun hf => ih ⟨trivial, hf, fun _ h => h.free (by decide)⟩
  -- Types
  | name ht => exact fun _ => .single (.inner rfl) ht
  | qualifier ht => exact fun _ => .single (.inner (isInner_of_is (by decide) ht)) rfl
  | enumerator ht => exact fun _ => .single (.inner rfl) ht
  | enumeratorValue ht hq _ ih =>
    exact fun _ => .cons (.inner rfl) ht (.ofFree (.cons .eq hq (ih trivial).ofFree_list))
  | enumName hk ht =>
    exact fun _ => .cons .enumWord hk
      ((Walks.single .enumName ht).into fun _ h => h.free (by decide))
  | @enumBody _ _ _ _ _ _ name hk hn hl _ hr ih =>
    intro s _
    have items := ih (s := .list :: s) ⟨trivial, fun _ h => h.free (by decide), fun _ h => h⟩
    cases name with
    | none => exact .cons .enumWord hk (Walks.list (.inr rfl) hl items hr).toFree
    | some t =>
      exact .cons .enumWord hk
        (.cons .enumName (hn t rfl) (Walks.list (.inl rfl) hl items hr).toFree)
  | structName hk ht =>
    exact fun _ => .cons (.structWord hk) rfl
      ((Walks.single .structName ht).into fun _ h => h.free (by decide))
  | @structBody _ _ _ _ _ _ name hk hn hl _ hr ih =>
    intro s _
    have members := ih (s := .body :: s)
      ⟨⟨by simp, Ending.plainColon (by decide), Ending.not_at_semicolon⟩, fun _ h => h⟩
    cases name with
    | none => exact .cons (.structWord hk) rfl (Walks.body (.inr rfl) hl members hr).toFree
    | some t =>
      exact .cons (.structWord hk) rfl
        (.cons .structName (hn t rfl) (Walks.body (.inl rfl) hl members hr).toFree)
  | word ht => exact fun _ => (Walks.single (.inner (isInner_of_isSpecifierWord ht)) rfl).toFree
  | typedefName ht => exact fun _ => (Walks.single (.inner rfl) ht).toFree
  | atomic hk hl _ hr ih =>
    exact fun _ => .cons (.inner rfl) hk (Walks.parens hl (ih trivial) hr).ofFree.toFree
  | ofRecord _ ih => exact ih
  | ofEnumeration _ ih => exact ih
  | declSpecs _ _ ih => exact fun _ => ih ⟨trivial, fun _ h => h⟩
  | specQuals _ _ ih => exact fun _ => ih ⟨trivial, fun _ h => h⟩
  | ofSpecQuals _ ih => exact ih
  | typeName _ _ ih₁ ih₂ => exact fun _ => (ih₁ trivial).append (ih₂ trivial)
  -- Declarators
  | directName ht => exact fun _ => .single (.inner rfl) ht
  | directNested hl _ hr ih => exact fun _ => .parens hl (ih trivial).toFree hr
  | array _ hl _ hr ih₁ ih₂ =>
    exact fun _ => (ih₁ trivial).toFree.append_squares hl (ih₂ ⟨trivial, fun _ h => h⟩) hr
  | function _ hl _ hr ih₁ ih₂ =>
    exact fun _ => (ih₁ trivial).toFree.append_parens hl
      (ih₂ ⟨by simp [Phrase.Fits], fun _ h => h⟩) hr
  | ofDirect _ ih => exact ih
  | pointer ht _ _ ih₁ ih₂ =>
    exact fun _ => .cons (.inner rfl) ht
      ((ih₁ ⟨trivial, fun _ h => h.free (by decide)⟩).append (ih₂ trivial).ofFree)
  | abstractNone => exact fun _ => .nil
  | abstractNested hl _ hr ih => exact fun _ => (Walks.parens hl (ih trivial) hr).toFree
  | abstractArray _ hl _ hr ih₁ ih₂ =>
    exact fun _ => ((ih₁ trivial).append_squares hl (ih₂ ⟨trivial, fun _ h => h⟩) hr).toFree
  | abstractFunction _ hl _ hr ih₁ ih₂ =>
    exact fun _ => ((ih₁ trivial).append_parens hl
      (ih₂ ⟨by simp [Phrase.Fits], fun _ h => h⟩) hr).toFree
  | ofAbstractDirect _ ih => exact ih
  | abstractPointer ht _ _ ih₁ ih₂ =>
    exact fun _ => .cons (.inner rfl) ht
      ((ih₁ ⟨trivial, fun _ h => h.free (by decide)⟩).append (ih₂ trivial).ofFree)
  | abstractDeclarator _ ih => exact ih
  | names _ ih => exact fun hf => (ih ⟨trivial, hf, fun _ h => h.free (by decide)⟩).toFree
  | typedParams _ ih => exact ih
  | lastParam _ ih => exact fun _ => ih trivial
  | ellipsis _ ht hd ih =>
    exact fun hf => (ih trivial).append
      (.cons (.comma hf) ht (Walks.single (.inner rfl) hd).toFree.ofFree_list)
  | moreParams _ ht _ ih₁ ih₂ =>
    exact fun hf => (ih₁ trivial).append (.cons (.comma hf) ht (ih₂ hf).ofFree_list)
  | param _ _ ih₁ ih₂ => exact fun _ => (ih₁ trivial).append (ih₂ ⟨trivial, fun _ h => h⟩)
  | paramNamed _ ih => exact fun _ => (ih trivial).toFree
  | paramUnnamed _ ih => exact ih
  -- Declarations
  | plainMember _ ih => exact fun _ => (ih trivial).toFree
  | bitfield _ ht _ ih₁ ih₂ =>
    exact fun hf => (ih₁ ⟨trivial, fun _ h => h⟩).append
      (.cons (.colon hf) ht (ih₂ trivial).ofFree.toFree)
  | member _ _ ht ih₁ ih₂ =>
    intro s hf
    have members := ih₂ (s := s) ⟨⟨hf.2.1, hf.1, fun _ h => h.free (by decide)⟩, fun _ h => h⟩
    exact ((ih₁ trivial).ofFree.append members).append (.single (.semicolon hf.2.2) ht)
  | ofAssignment _ ih => exact fun _ => (ih trivial).ofFree_list
  | initList hl _ hr ih =>
    exact fun _ => .list (.inl rfl) hl (ih ⟨trivial, fun _ h => h, fun _ h => h⟩) hr
  | plainInit _ ih => exact ih
  | initValue _ hq _ ih₁ ih₂ =>
    exact fun _ => (ih₁ trivial).toFree.append (.cons .eq hq (ih₂ trivial))
  | declaration _ _ ht ih₁ ih₂ =>
    intro s hf
    have inits := ih₂ (s := s) ⟨⟨trivial, hf.1, fun _ h => h.free (by decide)⟩, fun _ h => h⟩
    exact ((ih₁ trivial).append inits).append (.single (.semicolon hf.2) ht)
  | staticAssert hk hl _ ht hs hr hsemi ih =>
    intro s hf
    have texts := (Walks.inner (e := e) (s := .paren :: s) fun t ht => by rw [hs t ht]; rfl).toFree
    have inside := (ih (s := .paren :: s) trivial).toFree.append
      (.cons (.comma (by simp)) ht texts.ofFree_list)
    have closed := (inside.ofFree).append (.cons .closeParen hr
      (Walks.single (.semicolon hf.2) hsemi).ofFree)
    exact .cons (.inner rfl) hk (.ofFree (.cons .paren hl closed))
  -- Statements
  | exprStatement _ ht ih =>
    exact fun hf => (ih ⟨hf.1, fun _ h => h⟩).append (.single (.semicolon hf.2) ht)
  | compound hl _ hr ih =>
    exact fun hf => .block hl (ih ⟨rfl, fun _ h => h⟩) hr hf
  | itemDeclaration _ ih =>
    intro s hf
    obtain ⟨r, rfl⟩ := head_of_head? hf
    exact (ih ⟨by simp, Ending.not_at_semicolon⟩).ofFree
  | itemStatement _ ih => exact ih
  | ofExprStatement _ ih =>
    intro s hf
    obtain ⟨r, rfl⟩ := head_of_head? hf
    exact (ih ⟨by simp, Ending.not_at_semicolon⟩).ofFree
  | ofCompound _ ih =>
    intro s hf
    obtain ⟨r, rfl⟩ := head_of_head? hf
    exact ih (Ending.not_at_inner_brace (List.cons_ne_nil _ _))
  | label ht hq _ ih =>
    intro s hf
    obtain ⟨r, rfl⟩ := head_of_head? hf
    have hc : e.PlainColon (.block :: r) := Ending.plainColon (by decide)
    exact Walks.ofFree (.cons (.inner rfl) ht (.ofFree (.cons (.colon hc) hq (ih hf))))
  | caseStmt hk _ hq _ ih₁ ih₂ =>
    intro s hf
    obtain ⟨r, rfl⟩ := head_of_head? hf
    have hc : e.PlainColon (.block :: r) := Ending.plainColon (by decide)
    exact Walks.ofFree (.cons (.inner rfl) hk
      ((ih₁ trivial).ofFree.toFree.append (.cons (.colon hc) hq (ih₂ hf))))
  | defaultStmt hk hq _ ih =>
    intro s hf
    obtain ⟨r, rfl⟩ := head_of_head? hf
    have hc : e.PlainColon (.block :: r) := Ending.plainColon (by decide)
    exact Walks.ofFree (.cons (.inner rfl) hk (.ofFree (.cons (.colon hc) hq (ih hf))))
  | ifStmt hk hl _ hr _ ih₁ ih₂ =>
    exact fun hf => .header (by rw [hk]; rfl) hl (ih₁ (by simp [Phrase.Fits])).ofFree.toFree hr
      (ih₂ hf)
  | ifElse hk hl _ hr _ ht _ ih₁ ih₂ ih₃ =>
    exact fun hf => (Walks.header (by rw [hk]; rfl) hl (ih₁ (by simp [Phrase.Fits])).ofFree.toFree
      hr (ih₂ hf)).append (.ofFree (.cons (.inner rfl) ht (ih₃ hf)))
  | switchStmt hk hl _ hr _ ih₁ ih₂ =>
    exact fun hf => .header (by rw [hk]; rfl) hl (ih₁ (by simp [Phrase.Fits])).ofFree.toFree hr
      (ih₂ hf)
  | whileStmt hk hl _ hr _ ih₁ ih₂ =>
    exact fun hf => .header (by rw [hk]; rfl) hl (ih₁ (by simp [Phrase.Fits])).ofFree.toFree hr
      (ih₂ hf)
  | doStmt hk _ hw hl _ hr ht ih₁ ih₂ =>
    intro s hf
    obtain ⟨b, rfl⟩ := head_of_head? hf
    have cond := ih₂ (s := .paren :: .block :: b) (by simp [Phrase.Fits])
    have tail : Walks e (At (.block :: b) .block) _ (At (.block :: b) .block) :=
      .header (by rw [hw]; rfl) hl cond.ofFree.toFree hr
        (Walks.single (.semicolon Ending.not_at_semicolon) ht).ofFree
    rw [List.append_assoc]
    exact Walks.ofFree (.cons (.inner rfl) hk ((ih₁ hf).append tail))
  | forStmt hk hl _ _ _ hr _ ih₁ ih₂ ih₃ ih₄ =>
    intro s hf
    have cond := ih₂ (s := .paren :: s) ⟨by simp, Ending.not_at_semicolon⟩
    have step := ih₃ (s := .paren :: s) ⟨by simp [Phrase.Fits], fun _ h => h⟩
    have init := ih₁ (s := .paren :: s) rfl
    exact .header (by rw [hk]; rfl) hl ((init.append cond.ofFree).append step.ofFree) hr (ih₄ hf)
  | initDeclaration _ ih =>
    intro s hf
    obtain ⟨r, rfl⟩ := head_of_head? hf
    exact (ih ⟨by simp, Ending.not_at_semicolon⟩).ofFree
  | initStatement _ ih =>
    intro s hf
    obtain ⟨r, rfl⟩ := head_of_head? hf
    exact (ih ⟨by simp, Ending.not_at_semicolon⟩).ofFree
  | gotoStmt hk ht hs =>
    intro s hf
    obtain ⟨r, rfl⟩ := head_of_head? hf
    exact .ofFree (.cons (.inner rfl) hk (.ofFree (.cons (.inner rfl) ht
      (Walks.single (.semicolon Ending.not_at_semicolon) hs).ofFree)))
  | continueStmt hk hs =>
    intro s hf
    obtain ⟨r, rfl⟩ := head_of_head? hf
    exact .ofFree (.cons (.inner rfl) hk
      (Walks.single (.semicolon Ending.not_at_semicolon) hs).ofFree)
  | breakStmt hk hs =>
    intro s hf
    obtain ⟨r, rfl⟩ := head_of_head? hf
    exact .ofFree (.cons (.inner rfl) hk
      (Walks.single (.semicolon Ending.not_at_semicolon) hs).ofFree)
  | returnStmt hk _ hs ih =>
    intro s hf
    obtain ⟨r, rfl⟩ := head_of_head? hf
    have value := ih (s := .block :: r) ⟨by simp [Phrase.Fits], fun _ h => h⟩
    exact .ofFree (.cons (.inner rfl) hk
      (value.ofFree.append (.single (.semicolon Ending.not_at_semicolon) hs)))
  -- Whole sources
  | definition _ _ _ _ _ ih₁ ih₂ ih₃ ih₄ =>
    rintro s ⟨he, rfl⟩
    have apart := Ending.not_at_semicolon_of (s := []) (e := e) (by rw [he]; decide)
    have params := ih₃ (s := []) ⟨⟨by simp, apart⟩, fun _ h => h.free (by decide)⟩
    have body := ih₄ (s := []) (Ending.not_at_brace_of (by rw [he]; decide))
    exact (((ih₁ ⟨trivial, fun _ h => h⟩).ofFree.append (ih₂ trivial)).append params).append body
  | ofDeclaration _ ih =>
    rintro s ⟨he, rfl⟩
    exact (ih ⟨by simp, Ending.not_at_semicolon_of (by rw [he]; decide)⟩).ofFree

end CPretty
