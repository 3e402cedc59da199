import CPretty.Proofs.Format.Tokens
import CPretty.Proofs.Syntax.Within

namespace CPretty

open Grammar

/-- The rung of a binary operator on the ladder of precedence, the loosest first. -/
def operatorLevel? (op : String) : Option Nat :=
  (Kind.ofPunctuator? op).bind fun k => ladder.findIdx? (·.accepts k)

namespace Node

def isPostfix (n : Node) : Bool :=
  n.tag ∈ ["ident", "const", "parens", "call", "index", "field", "postUnary"]

def isUnary (n : Node) : Bool := n.isPostfix || n.tag == "unary"

def isCast (n : Node) : Bool := n.isUnary || n.tag == "cast"

/-- The node is no looser than a binary expression of level `l`. -/
def Tight (l : Nat) (n : Node) : Prop :=
  n.tag ∉ ["ternary", "assign", "exprs"] ∧
    ∀ lhs op rhs, n.shape = .binary lhs op rhs → ∃ l' ∈ operatorLevel? op, l ≤ l'

end Node

/-- The operands of the form are as tight as its operator needs them. -/
def Shape.Normal : Shape Node → Prop
  | .binary lhs op rhs => ∃ l ∈ operatorLevel? op, lhs.Tight l ∧ rhs.Tight (l + 1)
  | .call e _ | .index e _ | .field e _ _ | .postUnary e _ => e.isPostfix
  | .unary op e false =>
    op ∈ ["++", "--", "sizeof"] ∧ e.isUnary ∨ op ∈ ["&", "*", "+", "-", "~", "!"] ∧ e.isCast
  | .cast _ e => e.isCast
  | .ternary cond _ no =>
    cond.tag ∉ ["ternary", "assign", "exprs"] ∧ no.tag ∉ ["assign", "exprs"]
  | .assign target _ value =>
    target.tag ∉ ["cast", "binary", "ternary", "assign", "exprs"] ∧ value.tag ≠ "exprs"
  | .exprs items => 2 ≤ items.length ∧ ∀ n ∈ items, n.tag ≠ "exprs"
  | _ => True

namespace Node

variable {n : Node}

theorem isUnary_of_isPostfix (h : n.isPostfix = true) : n.isUnary = true := by
  rw [isUnary, h, Bool.true_or]

theorem isCast_of_isUnary (h : n.isUnary = true) : n.isCast = true := by
  rw [isCast, h, Bool.true_or]

theorem tag_of_isCast (h : n.isCast = true) : n.tag ∈ ["ident", "const", "parens", "call", "index",
    "field", "postUnary", "unary", "cast"] := by
  simpa [isCast, isUnary, isPostfix, or_assoc] using h

theorem tight_of_isCast (h : n.isCast = true) (l : Nat) : n.Tight l := by
  have tag := tag_of_isCast h
  refine ⟨fun hm => ?_, fun lhs op rhs hs => ?_⟩
  · have apart : ∀ t ∈ ["ternary", "assign", "exprs"], t ∉ ["ident", "const", "parens", "call",
      "index", "field", "postUnary", "unary", "cast"] := by decide
    exact apart _ hm tag
  · rw [Node.tag, hs] at tag
    revert tag
    simp [Shape.tag]

theorem Tight.mono {l l' : Nat} (h : n.Tight l') (hl : l ≤ l') : n.Tight l :=
  ⟨h.1, fun lhs op rhs hs => (h.2 lhs op rhs hs).imp fun _ h => ⟨h.1, Nat.le_trans hl h.2⟩⟩

theorem lenient_normal : Lenient Shape.Normal :=
  ⟨fun _ _ => trivial, fun _ _ => trivial, fun _ _ => trivial, fun _ => trivial⟩

end Node

/-- The operators of a binary phrase are those of the ladder from some rung on. -/
def Phrase.OnLadder : Phrase → Prop
  | .binary levels => levels <:+ ladder
  | .commas p | .braced p | .sequence p | .optional p => p.OnLadder
  | _ => True

/-- How tight a node is that a phrase is read as. -/
def Phrase.Reads : Phrase → Node → Prop
  | .primary, n | .postfixed, n => n.isPostfix
  | .unary, n => n.isUnary
  | .operand, n => n.isCast
  | .binary levels, n => n.Tight (ladder.length - levels.length)
  | .conditional, n => n.tag ∉ ["assign", "exprs"]
  | .assignment, n => n.tag ≠ "exprs"
  | .commas p, n | .braced p, n | .sequence p, n | .optional p, n => p.Reads n
  | _, _ => True

def Expected.kinds : Expected → List Kind
  | .token k => [k]
  | .category g => g.members
  | .production _ => []

theorem Expected.mem_kinds {l : Expected} {k : Kind} (h : l.accepts k = true) : k ∈ l.kinds := by
  cases l with
  | token k' => exact List.mem_singleton.mpr (eq_of_beq h)
  | category g => exact List.contains_iff_mem.mp h
  | production => cases h

/-- An operator that a rung of the ladder accepts is of the level that the rung has on it. -/
theorem operatorLevel?_of_accepts {l : Expected} {ls : List Expected} {op : Token} (hop : op.Lexed)
    (hs : l :: ls <:+ ladder) (h : l.accepts op.kind = true) :
    operatorLevel? op.text = some (ladder.length - (l :: ls).length) := by
  have levels : ((List.range ladder.length).all fun i => ladder[i]?.all fun l =>
      l.kinds.all fun k => !Kind.brackets.contains k && k.spelling.isSome &&
        operatorLevel? (k.spelling.getD "") == some i) = true := by decide
  obtain ⟨i, hi⟩ : ∃ i, i = ladder.length - (l :: ls).length := ⟨_, rfl⟩
  have rung : ladder[i]? = some l := by
    rw [← List.head?_drop, hi, ← List.suffix_iff_eq_drop.mp hs, List.head?_cons]
  have bound : i < ladder.length := (List.getElem?_eq_some_iff.mp rung).1
  have kind := List.all_eq_true.mp levels i (List.mem_range.mpr bound)
  rw [rung, Option.all_some] at kind
  have kind := List.all_eq_true.mp kind _ (Expected.mem_kinds h)
  simp only [Bool.and_eq_true, Bool.not_eq_true', List.contains_eq_mem, decide_eq_false_iff_not,
    beq_iff_eq] at kind
  rw [hop.text_eq kind.1.1 kind.1.2, kind.2, hi]

/-- The nodes that lexed tokens are read as are in normal form, and tight enough for the phrase. -/
def Phrase.Sound (p : Phrase) (xs : List Token) (ns : List Node) : Prop :=
  p.OnLadder → (∀ t ∈ xs, t.Lexed) → ∀ n ∈ ns, n.Every Shape.Normal ∧ p.Reads n

namespace Phrase.Sound

variable {p : Phrase} {xs ys : List Token} {n : Node} {ns : List Node} {sp : Span} {s : Shape Node}

theorem node (h : p.Sound xs [n]) (hp : p.OnLadder) (hy : ∀ t ∈ ys, t.Lexed) (hs : xs ⊆ ys) :
    n.Every Shape.Normal ∧ p.Reads n :=
  h hp (fun t ht => hy t (hs ht)) n List.mem_cons_self

theorem nodes (h : p.Sound xs ns) (hp : p.OnLadder) (hy : ∀ t ∈ ys, t.Lexed) (hs : xs ⊆ ys) :
    ∀ n ∈ ns, n.Every Shape.Normal ∧ p.Reads n :=
  h hp fun t ht => hy t (hs ht)

theorem mk (h : p.OnLadder → (∀ t ∈ xs, t.Lexed) →
    s.Normal ∧ p.Reads ⟨sp, s⟩ ∧ ∀ c ∈ s.children, c.Every Shape.Normal) :
    p.Sound xs [⟨sp, s⟩] := by
  intro hp hx
  obtain ⟨hs, hr, hc⟩ := h hp hx
  exact List.forall_mem_singleton.mpr ⟨.mk hs hc, hr⟩

theorem imp {q : Phrase} (h : p.Sound xs [n]) (hp : q.OnLadder → p.OnLadder)
    (hr : p.Reads n → q.Reads n) : q.Sound xs [n] := by
  intro hq hx
  obtain ⟨hn, hn'⟩ := h.node (hp hq) hx (List.Subset.refl xs)
  exact List.forall_mem_singleton.mpr ⟨hn, hr hn'⟩

end Phrase.Sound

theorem Node.tag_of_isTarget {n : Node} (h : isTarget n = true) :
    n.tag ∉ ["cast", "binary", "ternary"] := by
  obtain ⟨sp, s⟩ := n
  cases s with
  | binary | ternary | cast => cases h
  | _ => simp [Node.tag, Node.shape, Shape.tag]

theorem Token.Lexed.text_mem {t : Token} (h : t.Lexed) {ks : List Kind} (hk : t.kind ∈ ks)
    {texts : List String} (hks : (ks.all fun k => !Kind.brackets.contains k && k.spelling.isSome &&
      texts.contains (k.spelling.getD "")) = true) : t.text ∈ texts := by
  have kind := List.all_eq_true.mp hks _ hk
  simp only [Bool.and_eq_true, Bool.not_eq_true', List.contains_eq_mem, decide_eq_false_iff_not,
    decide_eq_true_eq] at kind
  rw [h.text_eq kind.1.1 kind.1.2]
  exact kind.2

theorem Derives.sound {p : Phrase} {xs : List Token} {ns : List Node} (h : Derives p xs ns) :
    p.Sound xs ns := by
  induction h with
  | ident | constant | strings => exact .mk fun _ _ => ⟨trivial, rfl, List.forall_mem_nil _⟩
  | parens _ _ _ ih =>
    refine .mk fun _ hx => ⟨trivial, rfl, ?_⟩
    obtain ⟨he, -⟩ := ih.node trivial hx (by simp)
    simpa [Shape.children] using he
  | ofPrimary _ ih => exact ih.imp id id
  | index _ _ _ _ ih₁ ih₂ =>
    refine .mk fun _ hx => ?_
    obtain ⟨he, hr⟩ := ih₁.node trivial hx (by simp)
    obtain ⟨hi, -⟩ := ih₂.node trivial hx (by grind)
    exact ⟨hr, rfl, by simp [Shape.children, he, hi]⟩
  | call _ _ _ _ ih₁ ih₂ =>
    refine .mk fun _ hx => ?_
    obtain ⟨he, hr⟩ := ih₁.node trivial hx (by simp)
    have args := ih₂.nodes trivial hx (by grind)
    rw [Shape.children, Node.getD_nonempty?]
    exact ⟨hr, rfl, List.forall_mem_cons.mpr ⟨he, fun c hc => (args c hc).1⟩⟩
  | field _ _ _ ih =>
    refine .mk fun _ hx => ?_
    obtain ⟨he, hr⟩ := ih.node trivial hx (by simp)
    exact ⟨hr, rfl, by simpa [Shape.children] using he⟩
  | postUnary _ _ ih =>
    refine .mk fun _ hx => ?_
    obtain ⟨he, hr⟩ := ih.node trivial hx (by simp)
    exact ⟨hr, rfl, by simpa [Shape.children] using he⟩
  | ofPostfixed _ ih => exact ih.imp id Node.isUnary_of_isPostfix
  | @prefixed op _ _ _ hop _ ih =>
    refine .mk fun _ hx => ?_
    obtain ⟨he, hr⟩ := ih.node trivial hx (by simp)
    have kind : op.kind ∈ [Kind.plusPlus, .minusMinus, .kwSizeof] := by
      obtain h | h := hop
      · exact Kind.of_is h (by decide)
      · simp [h]
    have text : op.text ∈ ["++", "--", "sizeof"] :=
      (hx op List.mem_cons_self).text_mem kind (by decide)
    exact ⟨.inl ⟨text, hr⟩, rfl, by simpa [Shape.children] using he⟩
  | sizeofType _ _ _ _ ih =>
    refine .mk fun _ hx => ⟨trivial, rfl, ?_⟩
    obtain ⟨he, -⟩ := ih.node trivial hx (by grind)
    simpa [Shape.children] using he
  | @operator op _ _ _ hop _ ih =>
    refine .mk fun _ hx => ?_
    obtain ⟨he, hr⟩ := ih.node trivial hx (by simp)
    have text : op.text ∈ ["&", "*", "+", "-", "~", "!"] :=
      (hx op List.mem_cons_self).text_mem (List.contains_iff_mem.mp hop) (by decide)
    exact ⟨.inr ⟨text, hr⟩, rfl, by simpa [Shape.children] using he⟩
  | ofUnary _ ih => exact ih.imp id Node.isCast_of_isUnary
  | cast _ _ _ _ ih₁ ih₂ =>
    refine .mk fun _ hx => ?_
    obtain ⟨ht, -⟩ := ih₁.node trivial hx (by grind)
    obtain ⟨he, hr⟩ := ih₂.node trivial hx (by grind)
    exact ⟨hr, rfl, by simp [Shape.children, ht, he]⟩
  | ofOperand _ ih => exact ih.imp (fun _ => trivial) fun hr => Node.tight_of_isCast hr _
  | tighter _ ih =>
    exact ih.imp (List.suffix_cons _ _).trans fun hr =>
      hr.mono (Nat.sub_le_sub_left (Nat.le_succ _) _)
  | binary _ _ hop _ ih₁ ih₂ =>
    refine .mk fun hp hx => ?_
    obtain ⟨he, hr⟩ := ih₁.node hp hx (by simp)
    obtain ⟨he', hr'⟩ := ih₂.node ((List.suffix_cons _ _).trans hp) hx (by grind)
    have level := operatorLevel?_of_accepts (hx _ (by simp)) hp hop
    have length := hp.length_le
    rw [List.length_cons] at level length
    refine ⟨⟨_, level, hr, hr'.mono (by omega)⟩, ⟨by simp [Node.tag, Node.shape, Shape.tag], ?_⟩,
      by simp [Shape.children, he, he']⟩
    intro lhs op rhs hs
    cases hs
    exact ⟨_, level, Nat.le_refl _⟩
  | ofBinary _ ih =>
    exact ih.imp (fun _ => List.suffix_refl _) fun hr hm => hr.1 (List.mem_cons_of_mem _ hm)
  | ternary _ _ _ _ _ ih₁ ih₂ ih₃ =>
    refine .mk fun hp hx => ?_
    obtain ⟨hc, hr⟩ := ih₁.node (List.suffix_refl _) hx (by simp)
    obtain ⟨hy, -⟩ := ih₂.node trivial hx (by grind)
    obtain ⟨hn, hr'⟩ := ih₃.node trivial hx (by grind)
    exact ⟨⟨hr.1, hr'⟩, by simp [Phrase.Reads, Node.tag, Node.shape, Shape.tag],
      by simp [Shape.children, hc, hy, hn]⟩
  | ofConditional _ ih => exact ih.imp id fun hr hm => hr (by simp [hm])
  | assign _ ht _ _ ih₁ ih₂ =>
    refine .mk fun hp hx => ?_
    obtain ⟨he, hr⟩ := ih₁.node trivial hx (by simp)
    obtain ⟨he', hr'⟩ := ih₂.node trivial hx (by grind)
    have target := Node.tag_of_isTarget ht
    refine ⟨⟨fun hm => ?_, hr'⟩, by simp [Phrase.Reads, Node.tag, Node.shape, Shape.tag],
      by simp [Shape.children, he, he']⟩
    have split : _ ∈ ["cast", "binary", "ternary"] ++ ["assign", "exprs"] := hm
    exact (List.mem_append.mp split).elim target hr
  | expression h ih =>
    intro _ hx
    have items := ih.nodes trivial hx (List.Subset.refl _)
    exact List.forall_mem_singleton.mpr ⟨.collect (fun n hn => (items n hn).1) h.commas_ne_nil
      (fun hl => ⟨hl, fun n hn => (items n hn).2⟩) rfl, trivial⟩
  | declSpecs _ hne ih =>
    intro _ hx
    have specs := ih.nodes trivial hx (List.Subset.refl _)
    exact List.forall_mem_singleton.mpr
      ⟨.collect (fun n hn => (specs n hn).1) hne (fun _ => trivial) rfl, trivial⟩
  | specQuals _ hne ih =>
    intro _ hx
    have specs := ih.nodes trivial hx (List.Subset.refl _)
    exact List.forall_mem_singleton.mpr
      ⟨.collect (fun n hn => (specs n hn).1) hne (fun _ => trivial) rfl, trivial⟩
  | ellipsis _ _ _ ih =>
    intro _ hx
    obtain ⟨hn, -⟩ := ih.node trivial hx (by simp)
    exact List.forall_mem_cons.mpr
      ⟨⟨hn, trivial⟩, List.forall_mem_singleton.mpr ⟨.mk trivial (List.forall_mem_nil _), trivial⟩⟩
  | definition _ _ _ _ _ ih₁ ih₂ ih₃ ih₄ =>
    refine .mk fun _ hx => ⟨trivial, trivial, fun c hc => ?_⟩
    have specs := ih₁.nodes trivial hx (by grind)
    obtain ⟨name, params⟩ :=
      (Node.every_header_iff Node.lenient_normal).mpr (ih₂.node trivial hx (by grind)).1
    have decls := ih₃.nodes trivial hx (by grind)
    obtain ⟨body, -⟩ := ih₄.node trivial hx (by grind)
    simp only [Shape.children, List.mem_append, Option.mem_toList, List.mem_singleton] at hc
    obtain (((hc | rfl) | hc) | hc) | rfl := hc
    · exact (specs c (List.mem_of_mem_head? hc)).1
    · exact name
    · exact params c hc
    · exact (decls c hc).1
    · exact body
  | name | qualifier | enumerator | enumName | structName | word | typedefName | directName
  | gotoStmt | continueStmt | breakStmt =>
    exact .mk fun _ _ => ⟨trivial, trivial, List.forall_mem_nil _⟩
  | _ =>
    -- The other phrases are lists, or a phrase as it stands, or one node over some phrases.
    first
      | grind [Phrase.Sound, Phrase.OnLadder, Phrase.Reads]
      | refine .mk fun _ hx => ⟨trivial, trivial, fun c hc => ?_⟩
        simp only [Shape.children, Node.getD_nonempty?, List.mem_append, List.mem_cons,
          List.not_mem_nil, or_false, Option.mem_toList, Option.getD_some, reduceCtorEq,
          Option.some.injEq, List.head?_eq_some_iff] at hc
        grind [Phrase.Sound, Phrase.OnLadder]

/-- In the tree of a source that parses, every operand is as tight as its operator needs it. -/
theorem parse_normal {source : String} {o : Options} {parsed : Parsed}
    (h : parse source o = .ok parsed) : ∀ n, Node.Within n parsed.tree → n.shape.Normal := by
  obtain ⟨stream, hs, ht, -⟩ := parse_cases h
  obtain ⟨sp, ns, hroot, hd⟩ := TokenStream.derives_of_parse ht
  have nodes := hd.sound trivial (lexed_of_tokenize hs)
  rw [hroot]
  exact Node.Every.mk trivial fun n hn => (nodes n hn).1

/-- Assignments, a choice, a cast and operators of four levels, none of them in parentheses. -/
theorem parse_normal_operators :
    ∃ parsed, parse "int x = a ? b = -(int)c++ * d + e << 1, f : !*g[0] - h - i == j;" {} =
      .ok parsed ∧ ∀ n, Node.Within n parsed.tree → n.shape.Normal := by
  let source := "int x = a ? b = -(int)c++ * d + e << 1, f : !*g[0] - h - i == j;"
  obtain ⟨parsed, h, -⟩ := exists_ok_of_any (x := parse source {}) (p := fun _ => true)
    (by decide +kernel)
  exact ⟨parsed, h, parse_normal h⟩

end CPretty
