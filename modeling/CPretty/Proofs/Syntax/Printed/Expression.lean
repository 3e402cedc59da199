import CPretty.Proofs.Syntax.Marks

namespace CPretty

open Doc (Marked text)
open Node (innerDoc innerDocs innerDoc? innerDocs?)

variable {v v' w : Bool} {a b c z : Kind} {k : Kind} {ms ms' : List Mark}
  {t l r q : Token} {xs ys zs : List Token} {n n' m e : Node} {ns : List Node} {d : Doc} {sp : Span}

def AllLexed (xs : List Token) : Prop := ∀ t ∈ xs, t.Lexed

@[simp] theorem allLexed_nil : AllLexed [] := by simp [AllLexed]

@[simp] theorem allLexed_cons : AllLexed (t :: xs) ↔ t.Lexed ∧ AllLexed xs := by simp [AllLexed]

@[simp] theorem allLexed_append : AllLexed (xs ++ ys) ↔ AllLexed xs ∧ AllLexed ys := by
  simp [AllLexed, or_imp, forall_and]

/-- The tokens `xs`, whatever follows them, are the tokens of the marks. -/
def Covers (xs : List Token) (ms : List Mark) : Prop :=
  ∀ rest, canonicalKeys (xs ++ rest) = words ms ++ canonicalKeys rest

/-- Tokens and the marks they are printed with, from a token of one kind to one of another. -/
structure Part (xs : List Token) (ms : List Mark) (a z : Kind) : Prop where
  run : Run a ms z
  covers : Covers xs ms
  ne_dot : a ≠ .dot

namespace Covers

theorem nil : Covers [] [] := fun _ => rfl

theorem append (h : Covers xs ms) (h' : Covers ys ms') : Covers (xs ++ ys) (ms ++ ms') := by
  intro rest
  rw [List.append_assoc, h, h', words_append, List.append_assoc]

end Covers

theorem Token.canonicalKey_kind (t : Token) : t.canonicalKey.kind = t.kind := by
  rw [Token.canonicalKey]
  split <;> rfl

theorem Token.Lexed.canonicalKey_eq (h : t.Lexed) (hk : t.kind = k)
    (hs : k.spelling.isSome = true) :
    t.canonicalKey = .of k := by
  have hkind : t.canonicalKey.kind = k := t.canonicalKey_kind.trans hk
  have := h.canonical.eq_of (by rwa [hkind])
  rwa [hkind] at this

namespace Part

theorem join (h : Part xs ms a b) (h' : Part ys ms' c z) (hb : b.abuts c = true) :
    Part (xs ++ ys) (ms ++ ms') a z :=
  ⟨h.run.join h'.run hb, h.covers.append h'.covers, h.ne_dot⟩

theorem gap (h : Part xs ms a b) (h' : Part ys ms' c z) :
    Part (xs ++ ys) (ms ++ .gap :: ms') a z := by
  refine ⟨h.run.gap h'.run h'.ne_dot, fun rest => ?_, h.ne_dot⟩
  rw [List.append_assoc, h.covers, h'.covers]
  simp

theorem token (hk : t.kind = k) (hc : k ∉ [Kind.comma, .dot]) :
    Part [t] [.word t.canonicalKey] k k := by
  have hkind : t.canonicalKey.kind = k := t.canonicalKey_kind.trans hk
  have hne : t.kind ≠ .comma := by
    intro he
    exact hc (by simp [← hk, he])
  have run := Run.word t.canonicalKey
  rw [hkind] at run
  exact ⟨run, canonicalKeys_cons hne, fun he => hc (by simp [he])⟩

theorem spelled (h : t.Lexed) (hk : t.kind = k) (hc : k ∉ [Kind.comma, .dot])
    (hs : k.spelling.isSome = true) : Part [t] [.of k] k k := by
  have ht := token hk hc
  rwa [h.canonicalKey_eq hk hs] at ht

theorem quiet (h : Part xs ms a b) (ht : t.Lexed) (hk : t.kind = k) (hq : k.isQuiet = true)
    (hc : k ≠ .comma) : Part (xs ++ [t]) (ms ++ [.of k]) a k := by
  have kinds : ∀ k ∈ [Kind.lParen, .rParen, .lBracket, .rBracket, .lBrace, .rBrace, .semicolon,
      .comma], k ≠ .comma → k ∉ [Kind.comma, .dot] ∧ k.spelling.isSome = true := by decide
  obtain ⟨hd, hs⟩ := kinds k (List.contains_iff_mem.mp hq) hc
  exact h.join (spelled ht hk hd hs) (Kind.abuts_quiet b hq)

theorem whole (h : Part xs ms a b) (ht : t.Lexed) (hk : t.kind = k) (hw : k.isWhole = true)
    (hc : k ≠ .comma) : Part (t :: xs) (.of k :: ms) k b := by
  have kinds : ∀ k ∈ [Kind.lParen, .rParen, .lBracket, .rBracket, .lBrace, .rBrace, .semicolon,
      .comma, .plusPlus, .minusMinus, .arrow, .ellipsis], k ≠ .comma →
      k ∉ [Kind.comma, .dot] ∧ k.spelling.isSome = true := by decide
  obtain ⟨hd, hs⟩ := kinds k (List.contains_iff_mem.mp hw) hc
  exact (spelled ht hk hd hs).join h (Kind.abuts_of_isWhole hw a)

theorem parens (h : Part xs ms a b) (hl : l.Lexed) (hlk : l.kind = .lParen) (hr : r.Lexed)
    (hrk : r.kind = .rParen) :
    Part (l :: xs ++ [r]) (.of .lParen :: ms ++ [.of .rParen]) .lParen .rParen :=
  (h.whole hl hlk rfl (by decide)).quiet hr hrk rfl (by decide)

theorem comma (h : Part xs ms a b) (ht : t.Lexed) (hk : t.kind = .comma) (h' : Part ys ms' c z)
    (hy : Led ys) : Part (xs ++ t :: ys) (ms ++ commaGap ++ ms') a z := by
  refine ⟨?_, fun rest => ?_, h.ne_dot⟩
  · simpa [commaGap] using (h.run.quiet (k := .comma) rfl).gap h'.run h'.ne_dot
  · obtain ⟨u, us, rfl, hu⟩ := hy
    have hne : u.kind ≠ .rBrace := by
      intro he
      rw [he] at hu
      cases hu
    rw [List.append_assoc, h.covers, List.cons_append, canonicalKeys_comma (by simpa using hne),
      h'.covers, ht.canonicalKey_eq hk rfl]
    simp [commaGap]

theorem first (h : Part (t :: xs) ms a z) (ht : t.kind ≠ .comma) : a = t.kind := by
  obtain ⟨k, hk, rfl⟩ := h.run.head
  have hc := h.covers []
  rw [List.append_nil, canonicalKeys_cons ht] at hc
  cases hw : words ms with
  | nil =>
    rw [hw] at hk
    cases hk
  | cons k' ws =>
    rw [hw] at hk hc
    cases hk
    rw [List.cons_append, List.cons.injEq] at hc
    rw [← hc.1, t.canonicalKey_kind]

end Part

def Prints (v : Bool) (xs : List Token) (n : Node) : Prop :=
  ∃ d ms a z, n.innerDoc = .ok d ∧ d.Marked ms ∧ Part xs ms a z ∧ a.leads = true ∧
    (v = true → z.ends = true)

/-- Several nodes print the tokens `xs`, with some marks between each two of them. -/
def PrintsList (v : Bool) (between : List Mark) (xs : List Token) (ns : List Node) : Prop :=
  ∃ items, Items v items ∧ innerDocs ns = .ok (items.map Item.doc) ∧
    Covers xs (joined between items)

theorem Prints.weaken (h : Prints v xs n) : Prints false xs n := by
  obtain ⟨d, ms, a, z, hd, hm, p, ha, -⟩ := h
  exact ⟨d, ms, a, z, hd, hm, p, ha, nofun⟩

theorem Token.marked (h : t.kind ∉ Kind.brackets) :
    Marked (.text t.text) [.word t.canonicalKey] := by
  rw [Token.canonicalKey, if_neg h]
  exact .text _ _ (by simp [Mark.chars, Token.key])

theorem Prints.leaf (hd : n.innerDoc = .ok (text t.text)) (hk : t.kind = k)
    (hb : k ∉ Kind.brackets) (hc : k ∉ [Kind.comma, .dot]) (ha : k.leads = true)
    (hv : v = true → k.ends = true) : Prints v [t] n :=
  ⟨_, _, k, k, hd, Token.marked (hk ▸ hb), .token hk hc, ha, hv⟩

theorem Prints.ident (hk : t.kind = .ident) : Prints v [t] ⟨sp, .ident t.text⟩ :=
  .leaf rfl hk (by decide) (by decide) rfl fun _ => rfl

theorem Prints.const (hk : t.kind = .constant) : Prints v [t] ⟨sp, .const t.text⟩ :=
  .leaf rfl hk (by decide) (by decide) rfl fun _ => rfl

def stringMarks (ts : List Token) : List Mark :=
  (ts.map fun t => [Mark.word t.canonicalKey]).intersperse [.gap] |>.flatten

theorem marked_texts (h : ∀ s ∈ t :: xs, s.kind = .stringLiteral) :
    Marked (text (Token.texts (t :: xs))) (stringMarks (t :: xs)) := by
  refine .text _ _ ?_
  induction xs generalizing t with
  | nil =>
    have ht := h t (by simp)
    simp [Token.texts, stringMarks, Token.canonicalKey, ht, Mark.chars, Token.key, Kind.brackets]
  | cons u us ih =>
    have ht := h t (by simp)
    have ih := ih (t := u) fun s hs => h s (by simp [hs])
    have space : " ".toList = [' '] := rfl
    simp only [Token.texts, List.map_cons, String.intercalate_cons_cons,
      String.toList_append] at ih ⊢
    rw [ih]
    simp [stringMarks, Token.canonicalKey, ht, Mark.chars, Token.key, Kind.brackets, space]

theorem part_strings (h : ∀ s ∈ t :: xs, s.kind = .stringLiteral) :
    Part (t :: xs) (stringMarks (t :: xs)) .stringLiteral .stringLiteral := by
  induction xs generalizing t with
  | nil => exact .token (h t (by simp)) (by decide)
  | cons u us ih =>
    have ht : Part [t] _ _ _ := .token (h t (by simp)) (by decide)
    simpa [stringMarks] using ht.gap (ih fun s hs => h s (by simp [hs]))

theorem Prints.strings (h : ∀ s ∈ t :: xs, s.kind = .stringLiteral) :
    Prints v (t :: xs) ⟨sp, .const (Token.texts (t :: xs))⟩ :=
  ⟨_, _, _, _, rfl, marked_texts h, part_strings h, rfl, fun _ => rfl⟩

theorem Prints.parens (hl : l.Lexed) (hlk : l.kind = .lParen) (h : Prints v xs e) (hr : r.Lexed)
    (hrk : r.kind = .rParen) : Prints w (l :: xs ++ [r]) ⟨sp, .parens e⟩ := by
  obtain ⟨d, ms, a, z, hd, hm, p, -, -⟩ := h
  have hm₁ : Marked (.concat [text "(", d, text ")"]) _ :=
    .cons (.text _ [.of .lParen] rfl) (.cons hm (.cons (.text _ [.of .rParen] rfl) .nil))
  exact ⟨_, _, .lParen, .rParen, by rw [innerDoc, hd]; rfl, hm₁,
    by simpa using p.parens hl hlk hr hrk, rfl, fun _ => rfl⟩

theorem Prints.index (h : Prints v xs e) (hl : l.Lexed) (hlk : l.kind = .lBracket)
    (h' : Prints v' ys n) (hr : r.Lexed) (hrk : r.kind = .rBracket) :
    Prints w (xs ++ l :: ys ++ [r]) ⟨sp, .index e n⟩ := by
  obtain ⟨d, ms, a, z, hd, hm, p, ha, -⟩ := h
  obtain ⟨d', ms', a', z', hd', hm', p', -, -⟩ := h'
  have hm₁ : Marked (.concat [d, text "[", d', text "]"]) _ :=
    .cons hm (.cons (.text _ [.of .lBracket] rfl) (.cons hm' (.cons (.text _ [.of .rBracket] rfl)
      .nil)))
  have inside := (p'.whole hl hlk rfl (by decide)).quiet hr hrk rfl (by decide)
  exact ⟨_, _, a, .rBracket, by rw [innerDoc, hd, hd']; rfl, hm₁,
    by simpa using p.join inside (Kind.abuts_quiet z rfl), ha, fun _ => rfl⟩

/-- There are documents exactly where there are nodes. -/
theorem innerDocs_cases {items : List Item} (h : innerDocs ns = .ok (items.map Item.doc)) :
    (ns = [] ∧ items = []) ∨
      (ns ≠ [] ∧ items ≠ [] ∧
        innerDocs? (Node.nonempty? ns) = .ok (some (items.map Item.doc))) := by
  cases ns with
  | nil =>
    rw [innerDocs] at h
    cases items with
    | nil => exact .inl ⟨rfl, rfl⟩
    | cons i items => cases h
  | cons n ns =>
    refine .inr ⟨by simp, ?_, ?_⟩
    · rintro rfl
      rw [innerDocs] at h
      cases hn : n.innerDoc with
      | error e =>
        rw [hn] at h
        cases h
      | ok d =>
        rw [hn] at h
        cases hns : innerDocs ns with
        | error e =>
          rw [hns] at h
          cases h
        | ok ds =>
          rw [hns] at h
          cases h
    · rw [Node.nonempty?, List.isEmpty_cons, if_neg (by decide), innerDocs?, h]
      rfl

theorem Part.list {items : List Item} (h : Items v items) (hk : Covers xs (joined commaGap items))
    (hl : l.Lexed) (hlk : l.kind = .lParen) (hr : r.Lexed) (hrk : r.kind = .rParen) :
    Part (l :: xs ++ [r]) (parentheses items) .lParen .rParen := by
  refine ⟨.parentheses h, fun rest => ?_, nofun⟩
  have opening := (Part.spelled hl hlk (by decide) rfl).covers
  have closing := (Part.spelled hr hrk (by decide) rfl).covers
  have := ((opening.append hk).append closing) rest
  simpa using this

theorem Prints.call (h : Prints v xs e) (hl : l.Lexed) (hlk : l.kind = .lParen)
    (h' : PrintsList v' commaGap ys ns) (hr : r.Lexed) (hrk : r.kind = .rParen) :
    Prints w (xs ++ l :: ys ++ [r]) ⟨sp, .call e (Node.nonempty? ns)⟩ := by
  obtain ⟨d, ms, a, z, hd, hm, p, ha, -⟩ := h
  obtain ⟨items, hi, hds, hk⟩ := h'
  have args := p.join (.list hi hk hl hlk hr hrk) (Kind.abuts_quiet z rfl)
  rw [← List.append_assoc] at args
  obtain ⟨rfl, rfl⟩ | ⟨hne, hne', hds'⟩ := innerDocs_cases hds
  · have hm₁ : Marked (.concat [d, text "()"]) _ :=
      .cons hm (.cons (.text _ [.of .lParen, .of .rParen] rfl) .nil)
    exact ⟨_, _, a, .rParen, by rw [innerDoc, hd]; rfl, hm₁,
      by simpa [parentheses] using args, ha, fun _ => rfl⟩
  · have hm₁ : Marked
        (.group (.concat (d :: Doc.enclosed "(" ")" .softLine (items.map Item.doc)))) _ :=
      .group (.cons hm (hi.enclosed [.of .lParen] [.of .rParen] rfl rfl .softLine))
    cases items with
    | nil => exact absurd rfl hne'
    | cons i items =>
      exact ⟨_, _, a, .rParen, by rw [innerDoc, hd, hds']; rfl, hm₁,
        by simpa [parentheses] using args, ha, fun _ => rfl⟩

theorem Prints.field (h : Prints true xs e) (hq : q.kind = .dot ∨ q.kind = .arrow)
    (ht : t.kind = .ident) : Prints w (xs ++ [q, t]) ⟨sp, .field e q.text t.text⟩ := by
  obtain ⟨d, ms, a, z, hd, hm, p, ha, hz⟩ := h
  have kinds : ∀ k : Kind, k = .dot ∨ k = .arrow → k ∉ Kind.brackets ∧
      k ≠ .comma ∧ k.isAccess = true ∧ k.abuts .ident = true := by
    rintro k (rfl | rfl) <;> decide
  obtain ⟨hb, hc, hk, hn⟩ := kinds _ hq
  have hm₁ : Marked (.concat [d, text q.text, text t.text]) _ :=
    .cons hm (.cons (Token.marked hb) (.cons (Token.marked (by rw [ht]; decide)) .nil))
  have run : Run a (ms ++ [.word q.canonicalKey] ++ [.word t.canonicalKey]) .ident := by
    have hq := Run.word q.canonicalKey
    have ht' := Run.word t.canonicalKey
    rw [Token.canonicalKey_kind] at hq ht'
    rw [ht] at ht'
    exact (p.run.join hq (Kind.abuts_access (hz rfl) hk)).join ht' hn
  have covers : Covers ([q] ++ [t]) [.word q.canonicalKey, .word t.canonicalKey] := by
    intro rest
    rw [List.append_assoc, List.cons_append, List.nil_append, canonicalKeys_cons hc,
      List.cons_append, List.nil_append, canonicalKeys_cons (by rw [ht]; decide)]
    rfl
  exact ⟨_, _, a, .ident, by rw [innerDoc, hd]; rfl, hm₁,
    ⟨by simpa using run, by simpa using p.covers.append covers, p.ne_dot⟩, ha, fun _ => rfl⟩

theorem Prints.postUnary (h : Prints true xs e) (hq : q.kind.is .count = true) :
    Prints w (xs ++ [q]) ⟨sp, .postUnary e q.text⟩ := by
  obtain ⟨d, ms, a, z, hd, hm, p, ha, hz⟩ := h
  have kinds : ∀ k ∈ Category.members .count, k ∉ Kind.brackets ∧
      k ∉ [Kind.comma, .dot] ∧ k.isAccess = true ∧ k.ends = true := by decide
  obtain ⟨hb, hc, hk, he⟩ := kinds _ (List.contains_iff_mem.mp hq)
  have hm₁ : Marked (.concat [d, text q.text]) _ := .cons hm (.cons (Token.marked hb) .nil)
  exact ⟨_, _, a, q.kind, by rw [innerDoc, hd]; rfl, hm₁,
    by simpa using p.join (.token rfl hc) (Kind.abuts_access (hz rfl) hk), ha, fun _ => he⟩

theorem Token.Lexed.text_eq (h : t.Lexed) (hb : t.kind ∉ Kind.brackets)
    (hs : t.kind.spelling.isSome = true) : t.text = t.kind.spelling.getD "" := by
  have hk := h.canonicalKey_eq rfl hs
  rw [Token.canonicalKey, if_neg hb] at hk
  exact congrArg Key.text hk

def prefixOperators : List Kind :=
  [.plusPlus, .minusMinus, .kwSizeof, .amp, .star, .plus, .minus, .tilde, .bang]

/-- An operator before an operand. It stands directly before one in parentheses, which then has to
start with the parenthesis. -/
theorem Prints.prefixed (hl : q.Lexed) (hq : q.kind ∈ prefixOperators) (h : Prints v xs e)
    (hp : ∀ e', e.shape = .parens e' → ∃ t ts, xs = t :: ts ∧ t.kind = .lParen) :
    Prints v (q :: xs) ⟨sp, .unary q.text e false⟩ := by
  obtain ⟨d, ms, a, z, hd, hm, p, ha, hz⟩ := h
  have kinds : ∀ k ∈ prefixOperators, k ∉ Kind.brackets ∧
      k ∉ [Kind.comma, .dot] ∧ k.leads = true ∧ k.spelling.isSome = true ∧
      (k.spelling.getD "" ∈ ["++", "--", "*"] → k.isWhole = true ∨ k = .star) := by decide
  obtain ⟨hb, hc, hk, hs, htight⟩ := kinds _ hq
  have op : Part [q] _ _ _ := .token rfl hc
  cases ht : Node.isTight q.text e with
  | true =>
    have hab : q.kind.abuts a = true := by
      simp only [Node.isTight, hl.text_eq hb hs, Bool.or_eq_true, beq_iff_eq] at ht
      obtain ht | ht := ht
      · obtain hw | hw := htight (by simpa [or_assoc] using ht)
        · exact Kind.abuts_of_isWhole hw a
        · rw [hw]
          exact Kind.abuts_star ha
      · cases hsh : e.shape with
        | parens e' =>
          obtain ⟨t, ts, rfl, htk⟩ := hp e' hsh
          rw [p.first (by simp [htk]), htk]
          exact Kind.abuts_quiet _ rfl
        | _ =>
          rw [hsh] at ht
          cases ht
    have hm₁ : Marked (.concat [text q.text, text "", d]) _ :=
      .cons (Token.marked hb) (.cons (.text _ [] rfl) (.cons hm .nil))
    exact ⟨_, _, q.kind, z, by rw [innerDoc, hd, ht]; rfl,
      hm₁, by simpa using op.join p hab, hk, hz⟩
  | false =>
    have hm₁ : Marked (.concat [text q.text, text " ", d]) _ :=
      .cons (Token.marked hb) (.cons (.text _ [.gap] rfl) (.cons hm .nil))
    exact ⟨_, _, q.kind, z, by rw [innerDoc, hd, ht]; rfl, hm₁, by simpa using op.gap p, hk, hz⟩

theorem Prints.sizeofType (hqk : q.kind = .kwSizeof) (hl : l.Lexed)
    (hlk : l.kind = .lParen) (h : Prints v xs e) (hr : r.Lexed) (hrk : r.kind = .rParen) :
    Prints w (q :: l :: xs ++ [r]) ⟨sp, .unary q.text e true⟩ := by
  obtain ⟨d, ms, a, z, hd, hm, p, -, -⟩ := h
  have hm₁ : Marked (.concat [text q.text, text "(", d, text ")"]) _ :=
    .cons (Token.marked (by rw [hqk]; decide)) (.cons (.text _ [.of .lParen] rfl)
      (.cons hm (.cons (.text _ [.of .rParen] rfl) .nil)))
  have op : Part [q] _ _ _ := .token hqk (by decide)
  exact ⟨_, _, .kwSizeof, .rParen, by rw [innerDoc, hd]; rfl, hm₁,
    by simpa using op.join (p.parens hl hlk hr hrk) rfl, rfl, fun _ => rfl⟩

theorem Prints.cast (hl : l.Lexed) (hlk : l.kind = .lParen) (h : Prints v xs n) (hr : r.Lexed)
    (hrk : r.kind = .rParen) (h' : Prints w ys e) :
    Prints w (l :: xs ++ r :: ys) ⟨sp, .cast n e⟩ := by
  obtain ⟨d, ms, a, z, hd, hm, p, -, -⟩ := h
  obtain ⟨d', ms', a', z', hd', hm', p', -, hz⟩ := h'
  have hm₁ : Marked (.concat [text "(", d, text ") ", d']) _ :=
    .cons (.text _ [.of .lParen] rfl) (.cons hm (.cons (.text _ [.of .rParen, .gap] rfl)
      (.cons hm' .nil)))
  exact ⟨_, _, .lParen, z', by rw [innerDoc, hd, hd']; rfl, hm₁,
    by simpa using (p.parens hl hlk hr hrk).gap p', rfl, hz⟩

theorem Prints.binary (h : Prints v xs e) (hq : q.kind ∉ Kind.brackets)
    (hc : q.kind ∉ [Kind.comma, .dot]) (h' : Prints w ys n) :
    Prints w (xs ++ q :: ys) ⟨sp, .binary e q.text n⟩ := by
  obtain ⟨d, ms, a, z, hd, hm, p, ha, -⟩ := h
  obtain ⟨d', ms', a', z', hd', hm', p', -, hz⟩ := h'
  have hm₁ : Marked (.group (.concat [d, text " ", text q.text,
      .indent (.concat [.line, d'])])) _ :=
    .group (.cons hm (.cons (.text _ [.gap] rfl) (.cons (Token.marked hq)
      (.cons (.indent (.cons .line (.cons hm' .nil))) .nil))))
  exact ⟨_, _, a, z', by rw [innerDoc, hd, hd']; rfl, hm₁,
    by simpa using p.gap ((Part.token rfl hc).gap p'), ha, hz⟩

theorem Prints.assign (h : Prints v xs e) (hq : q.kind ∉ Kind.brackets)
    (hc : q.kind ∉ [Kind.comma, .dot]) (h' : Prints w ys n) :
    Prints w (xs ++ q :: ys) ⟨sp, .assign e q.text n⟩ := by
  obtain ⟨d, ms, a, z, hd, hm, p, ha, -⟩ := h
  obtain ⟨d', ms', a', z', hd', hm', p', -, hz⟩ := h'
  have hm₁ : Marked (.group (.concat [d, text " ", text q.text,
      .group (.indent (.concat [.line, d']))])) _ :=
    .group (.cons hm (.cons (.text _ [.gap] rfl) (.cons (Token.marked hq)
      (.cons (.group (.indent (.cons .line (.cons hm' .nil)))) .nil))))
  exact ⟨_, _, a, z', by rw [innerDoc, hd, hd']; rfl, hm₁,
    by simpa using p.gap ((Part.token rfl hc).gap p'), ha, hz⟩

theorem Prints.ternary (h : Prints v xs e) (hq : q.Lexed) (hqk : q.kind = .question)
    (h' : Prints v' ys n) (ht : t.Lexed) (htk : t.kind = .colon) (h'' : Prints w zs m) :
    Prints w (xs ++ q :: ys ++ t :: zs) ⟨sp, .ternary e n m⟩ := by
  obtain ⟨d, ms, a, z, hd, hm, p, ha, -⟩ := h
  obtain ⟨d', ms', a', z', hd', hm', p', -, -⟩ := h'
  obtain ⟨d'', ms'', a'', z'', hd'', hm'', p'', -, hz⟩ := h''
  have hm₁ : Marked (.group (.concat [d, .indent (.concat [.line, text "? ", d', .line, text ": ",
      d''])])) _ :=
    .group (.cons hm (.cons (.indent (.cons .line (.cons (.text _ [.of .question, .gap] rfl)
      (.cons hm' (.cons .line (.cons (.text _ [.of .colon, .gap] rfl) (.cons hm'' .nil)))))))
      .nil))
  have question := Part.spelled hq hqk (by decide) rfl
  have colon := Part.spelled ht htk (by decide) rfl
  exact ⟨_, _, a, z'', by rw [innerDoc, hd, hd', hd'']; rfl, hm₁,
    by simpa using p.gap (question.gap (p'.gap (colon.gap p''))), ha, hz⟩

namespace PrintsList

variable {between : List Mark}

theorem nil : PrintsList v between [] [] :=
  ⟨[], ⟨by simp, by simp⟩, rfl, .nil⟩

theorem singleton (h : Prints v xs n) : PrintsList v between xs [n] := by
  obtain ⟨d, ms, a, z, hd, hm, p, ha, hz⟩ := h
  refine ⟨[⟨d, ms⟩], ⟨by simpa using hm, ?_⟩, ?_, by simpa using p.covers⟩
  · simpa using ⟨a, z, p.run, ha, hz⟩
  · rw [innerDocs, hd]
    rfl

theorem prints (h : PrintsList v between xs [n]) : Prints v xs n := by
  obtain ⟨items, hi, hds, hk⟩ := h
  rw [innerDocs] at hds
  cases hn : n.innerDoc with
  | error e =>
    rw [hn] at hds
    cases hds
  | ok d =>
    rw [hn] at hds
    match items with
    | [] => cases hds
    | i :: j :: items => cases hds
    | [i] =>
      cases hds
      obtain ⟨a, z, r, ha, hz⟩ := hi.neat i (by simp)
      exact ⟨_, i.marks, a, z, hn, hi.marked i (by simp),
        ⟨r, by simpa using hk, Kind.ne_dot ha⟩, ha, hz⟩

theorem cons_items {items : List Item} (hd : n.innerDoc = .ok d) (hm : d.Marked ms)
    (hn : Neat v ms) (hi : Items v items) (hds : innerDocs ns = .ok (items.map Item.doc)) :
    Items v (⟨d, ms⟩ :: items) ∧ innerDocs (n :: ns) = .ok ((⟨d, ms⟩ :: items).map Item.doc) := by
  refine ⟨⟨?_, ?_⟩, ?_⟩
  · simpa using ⟨hm, hi.marked⟩
  · simpa using ⟨hn, hi.neat⟩
  · rw [innerDocs, hd, hds]
    rfl

/-- A further node before others, with a comma in between. -/
theorem comma (h : Prints v xs n) (ht : t.Lexed) (hk : t.kind = .comma) (hy : Led ys)
    (h' : PrintsList v commaGap ys ns) (hne : ns ≠ []) :
    PrintsList v commaGap (xs ++ t :: ys) (n :: ns) := by
  obtain ⟨d, ms, a, z, hd, hm, p, ha, hz⟩ := h
  obtain ⟨items, hi, hds, hc⟩ := h'
  obtain ⟨hi', hds'⟩ := cons_items hd hm ⟨a, z, p.run, ha, hz⟩ hi hds
  refine ⟨_, hi', hds', ?_⟩
  obtain ⟨hn, -⟩ | ⟨-, hne', -⟩ := innerDocs_cases hds
  · exact absurd hn hne
  · obtain ⟨a', z', r, ha', -⟩ := hi.neat_joined hne' (.inr rfl)
    have := (p.comma ht hk ⟨r, hc, Kind.ne_dot ha'⟩ hy).covers
    cases items with
    | nil => exact absurd rfl hne'
    | cons i items => simpa using this

theorem gap (h : Prints v xs n) (h' : PrintsList v [.gap] ys ns) :
    PrintsList v [.gap] (xs ++ ys) (n :: ns) := by
  obtain ⟨d, ms, a, z, hd, hm, p, ha, hz⟩ := h
  obtain ⟨items, hi, hds, hc⟩ := h'
  obtain ⟨hi', hds'⟩ := cons_items hd hm ⟨a, z, p.run, ha, hz⟩ hi hds
  refine ⟨_, hi', hds', ?_⟩
  cases items with
  | nil => simpa using p.covers.append hc
  | cons i items =>
    intro rest
    rw [p.covers.append hc]
    simp

end PrintsList

/-- Several nodes under one, unless there is only one. -/
theorem PrintsList.collect {wrap : List Node → Shape Node} {between : List Mark}
    (h : PrintsList v between xs ns) (sep : String) (hne : ns ≠ [])
    (hb : between = [.gap] ∨ between = commaGap)
    (hs : sep.toList = between.flatMap Mark.chars)
    (hw : ∀ sp ds, innerDocs ns = .ok ds →
      innerDoc ⟨sp, wrap ns⟩ = .ok (Doc.join (text sep) ds)) :
    Prints v xs (Node.collect wrap ns) := by
  obtain ⟨items, hi, hds, hk⟩ := h
  obtain ⟨hn, -⟩ | ⟨-, hne', -⟩ := innerDocs_cases hds
  · exact absurd hn hne
  obtain ⟨a, z, r, ha, hz⟩ := hi.neat_joined hne' hb
  match ns, hne with
  | [n], _ => exact PrintsList.prints ⟨items, hi, hds, hk⟩
  | n :: m :: ns, _ =>
    exact ⟨_, _, a, z, hw _ _ hds, (Marked.text sep between hs).join hi.marked,
      ⟨r, hk, Kind.ne_dot ha⟩, ha, hz⟩

theorem Prints.exprs (h : PrintsList v commaGap xs ns) (hne : ns ≠ []) :
    Prints v xs (Node.collect .exprs ns) := by
  refine h.collect ", " hne (.inr rfl) rfl fun sp ds hds => ?_
  rw [innerDoc, hds]
  rfl

theorem Prints.declSpecs (h : PrintsList v [.gap] xs ns) (hne : ns ≠ []) :
    Prints v xs (Node.collect .declSpecs ns) := by
  refine h.collect " " hne (.inl rfl) rfl fun sp ds hds => ?_
  rw [innerDoc, hds]
  rfl

theorem Prints.specQuals (h : PrintsList v [.gap] xs ns) (hne : ns ≠ []) :
    Prints v xs (Node.collect .specQuals ns) := by
  refine h.collect " " hne (.inl rfl) rfl fun sp ds hds => ?_
  rw [innerDoc, hds]
  rfl

end CPretty
