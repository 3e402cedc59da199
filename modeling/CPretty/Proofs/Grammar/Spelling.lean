import CPretty.Proofs.Grammar.Dots
import CPretty.Proofs.Grammar.Plain
import CPretty.Proofs.Grammar.Precedence
import CPretty.Proofs.Syntax.Bare

namespace CPretty

open Grammar

variable {t l r op : Token} {k : Kind} {text : String} {xs ys zs : List Token} {n e e' i : Node}
  {ns : List Node} {sp : Span}

/-- The forms of expression trees without type names: names are identifiers and no keywords,
constants have the text of a constant or the texts of string literals with a space between each
two, and a dot stands after no constant of digits alone. -/
def Shape.IsExpression : Shape Node → Prop
  | .ident name => Lexical .ident name.toList
  | .const text => Lexical .constant text.toList ∨ ∃ s ss,
      (∀ x ∈ s :: ss, Lexical .stringLiteral x.toList) ∧ text = " ".intercalate (s :: ss)
  | .call _ args => args ≠ some [] ∧ ∀ n ∈ args.getD [], n.tag ≠ "exprs"
  | .field object op name =>
    (op = "->" ∨ op = "." ∧ object.isDigits = false) ∧ Lexical .ident name.toList
  | .postUnary _ op => op ∈ ["++", "--"]
  | .unary _ _ inParens => inParens = false
  | .assign _ op _ =>
    op ∈ ["=", "+=", "-=", "*=", "/=", "%=", "&=", "|=", "^=", "<<=", ">>="]
  | .parens _ | .index .. | .binary .. | .ternary .. | .exprs _ => True
  | _ => False

/-- A tree of expressions in precedence normal form. -/
def Node.IsExpression (n : Node) : Prop :=
  n.Every fun s => s.IsExpression ∧ s.Normal

/-- The token is as the lexer reads it, in the canonical spelling, and closes no block. -/
structure Token.Written (t : Token) : Prop where
  canonical : t.key.Canonical
  ne_rBrace : t.kind ≠ .rBrace

def Token.of (k : Kind) : Token := ⟨k, k.spelling.getD "", default⟩

def AllWritten (xs : List Token) : Prop := ∀ t ∈ xs, t.Written

@[simp] theorem allWritten_nil : AllWritten [] := by simp [AllWritten]

@[simp] theorem allWritten_cons : AllWritten (t :: xs) ↔ t.Written ∧ AllWritten xs := by
  simp [AllWritten]

@[simp] theorem allWritten_append : AllWritten (xs ++ ys) ↔ AllWritten xs ∧ AllWritten ys := by
  simp [AllWritten, or_imp, forall_and]

/-- The canonical spelling of a kind is read as the kind. -/
theorem Key.canonical_of (h : k.spelling.isSome = true) : (Key.of k).Canonical := by
  have listed : k ∈ Kind.keywords ∨ k ∈ Kind.punctuators := by
    revert h
    cases k <;> decide
  have words : ∀ k ∈ Kind.keywords, (Kind.ofWord (k.spelling.getD "") = k) ∧
      ((k.spelling.getD "").toList.head?.any Scan.isWordStart &&
        (k.spelling.getD "").toList.all Scan.isWordChar) = true := by decide
  have marks : ∀ k ∈ Kind.punctuators, Kind.ofPunctuator? (k.spelling.getD "") = some k := by decide
  refine ⟨?_, fun s hs => by rw [Option.mem_def, Key.of_kind] at hs; rw [Key.of, hs]; rfl⟩
  obtain hk | hk := listed
  · obtain ⟨hk, hw⟩ := words k hk
    rw [Key.of_kind, Key.of]
    generalize k.spelling.getD "" = text at hk hw
    rw [Bool.and_eq_true] at hw
    cases hc : text.toList with
    | nil => simp [hc] at hw
    | cons c cs =>
      simp only [hc, List.head?_cons, Option.any_some, List.all_cons, Bool.and_eq_true,
        List.all_eq_true] at hw
      have word := Lexical.word hw.1 hw.2.2
      rwa [← hc, String.ofList_toList, hk, hc] at word
  · exact .punctuator (by rw [String.ofList_toList]; exact marks k hk)

namespace Token.Written

theorem of (h : k.spelling.isSome = true ∧ k ≠ .rBrace) : Written (.of k) :=
  ⟨Key.canonical_of h.1, h.2⟩

theorem mk' (h : Lexical k text.toList) (hk : k.spelling = none) : Written ⟨k, text, default⟩ where
  canonical := ⟨h, fun s hs => by rw [show Token.key _ = ⟨k, text⟩ from rfl, hk] at hs; cases hs⟩
  ne_rBrace := by
    rintro rfl
    cases hk

theorem operator (h : k.spelling = some text) (hne : k ≠ .rBrace) : Written ⟨k, text, default⟩ := by
  have := of (k := k) ⟨by rw [h]; rfl, hne⟩
  rwa [Token.of, h] at this

end Token.Written

namespace Node

theorem isPostfix_bare (n : Node) : n.bare.isPostfix = n.isPostfix := by
  rw [isPostfix, isPostfix, tag_bare]

theorem isUnary_bare (n : Node) : n.bare.isUnary = n.isUnary := by
  rw [isUnary, isUnary, tag_bare, isPostfix_bare]

theorem isDigits_bare (n : Node) : n.bare.isDigits = n.isDigits := by
  obtain ⟨sp, s⟩ := n
  rw [bare_mk]
  cases s <;> rfl

theorem Tight.bare {l : Nat} (h : n.Tight l) : n.bare.Tight l := by
  refine ⟨by rw [tag_bare]; exact h.1, fun lhs op rhs hs => ?_⟩
  obtain ⟨sp, s⟩ := n
  rw [bare_mk] at hs
  cases s with
  | binary e o e' =>
    cases hs
    exact h.2 e op e' rfl
  | _ => cases hs

theorem IsExpression.tight (h : n.IsExpression) (ht : n.tag ∉ ["ternary", "assign", "exprs"]) :
    n.Tight 0 := by
  refine ⟨ht, fun lhs op rhs hs => ?_⟩
  have normal := h.shape.2
  rw [hs] at normal
  obtain ⟨l, hl, -⟩ := normal
  exact ⟨l, hl, Nat.zero_le l⟩

theorem IsExpression.isUnary (h : n.IsExpression) (hc : n.isCast = true) : n.isUnary = true := by
  obtain hu | ht := Bool.or_eq_true_iff.mp hc
  · exact hu
  · obtain ⟨sp, s⟩ := n
    have form := h.shape.1
    cases s with
    | cast => exact form.elim
    | _ => simp [tag, shape, Shape.tag] at ht

theorem isTarget_bare (h : n.tag ∉ ["cast", "binary", "ternary"]) : isTarget n.bare = true := by
  obtain ⟨sp, s⟩ := n
  rw [bare_mk]
  cases s with
  | cast | binary | ternary => simp [tag, shape, Shape.tag] at h
  | _ => rfl

end Node

/-- Some tokens are those of an expression tree. -/
structure Spells (xs : List Token) (n : Node) : Prop where
  written : AllWritten xs
  postfixed : n.isPostfix = true → Derives .postfixed xs [n]
  unary : n.isUnary = true → Derives .unary xs [n]
  binary : ∀ l, n.Tight l → Derives (.binary (ladder.drop l)) xs [n]
  conditional : n.tag ∉ ["assign", "exprs"] → Derives .conditional xs [n]
  assignment : n.tag ≠ "exprs" → Derives .assignment xs [n]
  expression : Derives .expression xs [n]

theorem Derives.binary_of_drop {l l' : Nat} (h : Derives (.binary (ladder.drop l')) xs [n])
    (hl : l ≤ l') : Derives (.binary (ladder.drop l)) xs [n] := by
  induction hl with
  | refl => exact h
  | @step m hm ih =>
    refine ih ?_
    cases hd : ladder.drop m with
    | nil => rwa [← List.tail_drop, hd, List.tail_nil] at h
    | cons rung ls =>
      rw [← List.tail_drop, hd, List.tail_cons] at h
      exact h.tighter

namespace Spells

theorem ofAssign {lhs rhs : Node} {o : String} (hx : AllWritten xs)
    (h : Derives .assignment xs [⟨sp, .assign lhs o rhs⟩]) : Spells xs ⟨sp, .assign lhs o rhs⟩ :=
  ⟨hx, nofun, nofun, fun _ hl => absurd (by decide : "assign" ∈ _) hl.1,
    fun hn => absurd (by decide : "assign" ∈ _) hn, fun _ => h, .expression (.one h)⟩

theorem ofTernary {cond yes no : Node} (hx : AllWritten xs)
    (h : Derives .conditional xs [⟨sp, .ternary cond yes no⟩]) :
    Spells xs ⟨sp, .ternary cond yes no⟩ :=
  ⟨hx, nofun, nofun, fun _ hl => absurd (by decide : "ternary" ∈ _) hl.1, fun _ => h,
    fun _ => .ofConditional h, .expression (.one (.ofConditional h))⟩

theorem ofExpression {items : List Node} (hx : AllWritten xs)
    (h : Derives .expression xs [⟨sp, .exprs items⟩]) : Spells xs ⟨sp, .exprs items⟩ :=
  ⟨hx, nofun, nofun, fun _ hl => absurd (by decide : "exprs" ∈ _) hl.1,
    fun hn => absurd (by decide : "exprs" ∈ _) hn, fun hn => absurd rfl hn, h⟩

theorem ofBinary {lhs rhs : Node} {o : String} {l : Nat} (hx : AllWritten xs)
    (h : Derives (.binary (ladder.drop l)) xs [⟨sp, .binary lhs o rhs⟩])
    (hl : operatorLevel? o = some l) : Spells xs ⟨sp, .binary lhs o rhs⟩ := by
  have whole : Derives .conditional xs [⟨sp, .binary lhs o rhs⟩] :=
    .ofBinary (h.binary_of_drop (Nat.zero_le l))
  refine ⟨hx, nofun, nofun, fun l' ht => ?_, fun _ => whole, fun _ => .ofConditional whole,
    .expression (.one (.ofConditional whole))⟩
  obtain ⟨_, hm, hle⟩ := ht.2 lhs o rhs rfl
  rw [hl] at hm
  cases hm
  exact h.binary_of_drop hle

theorem ofUnary (hx : AllWritten xs) (h : Derives .unary xs [n])
    (hp : n.isPostfix = true → Derives .postfixed xs [n]) : Spells xs n := by
  have binary (l : Nat) : Derives (.binary (ladder.drop l)) xs [n] := by
    have tightest : Derives (.binary (ladder.drop (max l ladder.length))) xs [n] := by
      rw [List.drop_of_length_le (Nat.le_max_right l _)]
      exact .ofOperand (.ofUnary h)
    exact tightest.binary_of_drop (Nat.le_max_left l _)
  have whole : Derives .assignment xs [n] := .ofConditional (.ofBinary (binary 0))
  exact ⟨hx, hp, fun _ => h, fun l _ => binary l, fun _ => .ofBinary (binary 0), fun _ => whole,
    .expression (.one whole)⟩

theorem ofPostfixed (hx : AllWritten xs) (h : Derives .postfixed xs [n]) : Spells xs n :=
  ofUnary hx (.ofPostfixed h) fun _ => h

theorem exists_commas (hne : ns ≠ []) (h : ∀ n ∈ ns, n.tag ≠ "exprs" ∧ ∃ xs, Spells xs n.bare) :
    ∃ xs, (AllWritten xs) ∧ Derives (.commas .assignment) xs (ns.map Node.bare) := by
  induction ns with
  | nil => exact absurd rfl hne
  | cons n ns ih =>
    obtain ⟨⟨hn, xs, hx⟩, hns⟩ := List.forall_mem_cons.mp h
    have item := hx.assignment (by rwa [Node.tag_bare])
    cases ns with
    | nil => exact ⟨xs, hx.written, .one item⟩
    | cons m ns =>
      obtain ⟨ys, hy, items⟩ := ih (List.cons_ne_nil _ _) hns
      refine ⟨xs ++ .of .comma :: ys, ?_, .more item rfl items⟩
      simp (disch := decide) [hx.written, hy, Token.Written.of]

/-- A binary operator is the spelling of a kind that its rung of the ladder accepts. -/
theorem exists_of_operatorLevel? {o : String} {l : Nat} (h : operatorLevel? o = some l) :
    ∃ k rung, k.spelling = some o ∧ k ≠ .rBrace ∧ rung ∈ ladder ∧ rung.accepts k = true ∧
      ladder.drop l = rung :: ladder.drop (l + 1) := by
  obtain ⟨k, hk, hl⟩ := Option.bind_eq_some_iff.mp h
  obtain ⟨hlt, ha, -⟩ := List.findIdx?_eq_some_iff_getElem.mp hl
  have rungs : ∀ rung ∈ ladder, ∀ k ∈ Kind.brackets, rung.accepts k = false := by decide
  have spelled : ∀ p ∈ Kind.punctuatorSpellings, p.2 ∈ Kind.brackets ∨ p.2.spelling = some p.1 := by
    decide
  have hb : k ∉ Kind.brackets := by
    intro hb
    rw [rungs _ (List.getElem_mem hlt) k hb] at ha
    cases ha
  have listed : (o, k) ∈ Kind.punctuatorSpellings := by
    have named : Kind.ofPunctuator? (String.ofList o.toList) = some k := by
      rwa [String.ofList_toList]
    have := mem_punctuatorSpellings named
    rwa [String.ofList_toList] at this
  refine ⟨k, ladder[l], (spelled _ listed).resolve_left hb, ?_,
    List.getElem_mem hlt, ha, List.drop_eq_getElem_cons hlt⟩
  rintro rfl
  exact hb (by decide)

/-- The tokens of every expression tree. -/
theorem exists_of_isExpression (h : n.IsExpression) : ∃ xs, Spells xs n.bare := by
  induction n using Node.induction with
  | mk sp s ih =>
    have ih : ∀ c ∈ s.children, ∃ xs, Spells xs c.bare := fun c hc => ih c hc (h.child hc)
    obtain ⟨hs, hn⟩ := h.shape
    rw [Node.bare_mk]
    cases s with
    | ident name =>
      refine ⟨[⟨.ident, name, default⟩], ofPostfixed ?_ (.ofPrimary (.ident rfl))⟩
      exact List.forall_mem_singleton.mpr (.mk' hs rfl)
    | const text =>
      obtain hs | ⟨s, ss, hs, rfl⟩ := hs
      · refine ⟨[⟨.constant, text, default⟩], ofPostfixed ?_ (.ofPrimary (.constant rfl))⟩
        exact List.forall_mem_singleton.mpr (.mk' hs rfl)
      · have texts : Token.texts ((s :: ss).map fun s => ⟨.stringLiteral, s, default⟩) =
            " ".intercalate (s :: ss) := by
          simp [Token.texts, Function.comp_def]
        rw [List.map_cons] at texts
        have literals : Derives .primary (_ :: ss.map fun s => ⟨.stringLiteral, s, default⟩)
            [⟨default, .const _⟩] := .strings (t := ⟨.stringLiteral, s, default⟩) (by simp)
        rw [texts] at literals
        refine ⟨_, ofPostfixed (fun t ht => ?_) (.ofPrimary literals)⟩
        rw [← List.map_cons (f := fun s => (⟨.stringLiteral, s, default⟩ : Token))] at ht
        obtain ⟨x, hx, rfl⟩ := List.mem_map.mp ht
        exact .mk' (hs x hx) rfl
    | parens e =>
      obtain ⟨xs, hx⟩ := ih e List.mem_cons_self
      refine ⟨.of .lParen :: xs ++ [.of .rParen], ofPostfixed ?_
        (.ofPrimary (.parens rfl hx.expression rfl))⟩
      simp (disch := decide) [hx.written, Token.Written.of]
    | index e i =>
      obtain ⟨xs, hx⟩ := ih e List.mem_cons_self
      obtain ⟨ys, hy⟩ := ih i (List.mem_cons_of_mem _ List.mem_cons_self)
      have object := hx.postfixed ((Node.isPostfix_bare e).trans hn)
      refine ⟨xs ++ .of .lBracket :: ys ++ [.of .rBracket], ofPostfixed ?_
        (.index object rfl hy.expression rfl)⟩
      simp (disch := decide) [hx.written, hy.written, Token.Written.of]
    | call e args =>
      obtain ⟨xs, hx⟩ := ih e List.mem_cons_self
      have callee := hx.postfixed ((Node.isPostfix_bare e).trans hn)
      obtain ⟨hne, hargs⟩ := hs
      cases args with
      | none =>
        refine ⟨xs ++ .of .lParen :: [] ++ [.of .rParen], ofPostfixed ?_
          (.call callee rfl .absent rfl)⟩
        simp (disch := decide) [hx.written, Token.Written.of]
      | some args =>
        have filled : args ≠ [] := fun he => hne (he ▸ rfl)
        obtain ⟨ys, hy, items⟩ := exists_commas filled fun n hm =>
          ⟨hargs n hm, ih n (List.mem_cons_of_mem _ hm)⟩
        obtain ⟨a, as, rfl⟩ := List.exists_cons_of_ne_nil filled
        refine ⟨xs ++ .of .lParen :: ys ++ [.of .rParen], ofPostfixed ?_
          (.call callee rfl (.present items) rfl)⟩
        simp (disch := decide) [hx.written, hy, Token.Written.of]
    | field e op name =>
      obtain ⟨xs, hx⟩ := ih e List.mem_cons_self
      have object := hx.postfixed ((Node.isPostfix_bare e).trans hn)
      obtain ⟨hop, hname⟩ := hs
      have name : Token.Written ⟨.ident, name, default⟩ := .mk' hname rfl
      obtain rfl | ⟨rfl, -⟩ := hop
      · refine ⟨xs ++ [.of .arrow, ⟨.ident, _, default⟩], ofPostfixed ?_
          (.field object (.inr rfl) rfl)⟩
        simp (disch := decide) [hx.written, Token.Written.of, name]
      · refine ⟨xs ++ [.of .dot, ⟨.ident, _, default⟩], ofPostfixed ?_
          (.field object (.inl rfl) rfl)⟩
        simp (disch := decide) [hx.written, Token.Written.of, name]
    | postUnary e op =>
      obtain ⟨xs, hx⟩ := ih e List.mem_cons_self
      have object := hx.postfixed ((Node.isPostfix_bare e).trans hn)
      have kinds : ∀ op ∈ ["++", "--"], ∃ k ∈ Category.members .count, k.spelling = some op ∧
          k ≠ .rBrace := by decide
      obtain ⟨k, hk, hop, hne⟩ := kinds op hs
      refine ⟨xs ++ [⟨k, op, default⟩], ofPostfixed ?_
        (.postUnary object (List.contains_iff_mem.mpr hk))⟩
      simp [hx.written, Token.Written.operator hop hne]
    | unary op e inParens =>
      obtain rfl : inParens = false := hs
      obtain ⟨xs, hx⟩ := ih e List.mem_cons_self
      have operand : e.IsExpression := h.child List.mem_cons_self
      have unary : e.isUnary = true :=
        operand.isUnary (hn.elim (fun hn => Node.isCast_of_isUnary hn.2) And.right)
      obtain ⟨hop, -⟩ | ⟨hop, -⟩ := hn
      · have kinds : ∀ op ∈ ["++", "--", "sizeof"], ∃ k : Kind,
            (k.is .count = true ∨ k = .kwSizeof) ∧ k.spelling = some op ∧ k ≠ .rBrace := by
          intro op hop
          simp only [List.mem_cons, List.not_mem_nil, or_false] at hop
          obtain rfl | rfl | rfl := hop
          · exact ⟨.plusPlus, by decide⟩
          · exact ⟨.minusMinus, by decide⟩
          · exact ⟨.kwSizeof, by decide⟩
        obtain ⟨k, hk, hop, hne⟩ := kinds op hop
        refine ⟨⟨k, op, default⟩ :: xs, ofUnary ?_ (.prefixed hk (hx.unary ?_))
          fun hp => by cases hp⟩
        · simp [hx.written, Token.Written.operator hop hne]
        · rwa [Node.isUnary_bare]
      · have kinds : ∀ op ∈ ["&", "*", "+", "-", "~", "!"], ∃ k ∈ Category.members .unary,
            k.spelling = some op ∧ k ≠ .rBrace := by decide
        obtain ⟨k, hk, hop, hne⟩ := kinds op hop
        refine ⟨⟨k, op, default⟩ :: xs, ofUnary ?_ (.operator (List.contains_iff_mem.mpr hk)
          (.ofUnary (hx.unary ?_))) fun hp => by cases hp⟩
        · simp [hx.written, Token.Written.operator hop hne]
        · rwa [Node.isUnary_bare]
    | binary lhs op rhs =>
      obtain ⟨xs, hx⟩ := ih lhs List.mem_cons_self
      obtain ⟨ys, hy⟩ := ih rhs (List.mem_cons_of_mem _ List.mem_cons_self)
      obtain ⟨l, hl, hlhs, hrhs⟩ := hn
      obtain ⟨k, rung, hop, hne, hrung, ha, hd⟩ := exists_of_operatorLevel? hl
      have left := hx.binary l hlhs.bare
      rw [hd] at left
      have whole : Derives (.binary (rung :: ladder.drop (l + 1))) (xs ++ ⟨k, op, default⟩ :: ys)
          [⟨default, .binary lhs.bare op rhs.bare⟩] :=
        .binary hrung left ha (hy.binary (l + 1) hrhs.bare)
      rw [← hd] at whole
      refine ⟨_, ofBinary ?_ whole hl⟩
      simp [hx.written, hy.written, Token.Written.operator hop hne]
    | ternary cond yes no =>
      obtain ⟨xs, hx⟩ := ih cond List.mem_cons_self
      obtain ⟨ys, hy⟩ := ih yes (by simp [Shape.children])
      obtain ⟨zs, hz⟩ := ih no (by simp [Shape.children])
      obtain ⟨hcond, hno⟩ := hn
      have choice : cond.IsExpression := h.child List.mem_cons_self
      refine ⟨xs ++ .of .question :: ys ++ .of .colon :: zs, ofTernary ?_ (.ternary
        (hx.binary 0 (choice.tight hcond).bare) rfl hy.expression rfl
        (hz.conditional (by rwa [Node.tag_bare])))⟩
      simp (disch := decide) [hx.written, hy.written, hz.written, Token.Written.of]
    | assign lhs op rhs =>
      obtain ⟨xs, hx⟩ := ih lhs List.mem_cons_self
      obtain ⟨ys, hy⟩ := ih rhs (List.mem_cons_of_mem _ List.mem_cons_self)
      obtain ⟨hlhs, hrhs⟩ := hn
      have kinds : ∀ op ∈ ["=", "+=", "-=", "*=", "/=", "%=", "&=", "|=", "^=", "<<=", ">>="],
          ∃ k ∈ Category.members .assignment, k.spelling = some op ∧ k ≠ .rBrace := by decide
      obtain ⟨k, hk, hop, hne⟩ := kinds op hs
      have target : isTarget lhs.bare = true :=
        Node.isTarget_bare fun hm => hlhs (List.mem_append_left ["assign", "exprs"] hm)
      refine ⟨xs ++ ⟨k, op, default⟩ :: ys, ofAssign ?_ (.assign (hx.conditional ?_) target
        (List.contains_iff_mem.mpr hk) (hy.assignment (by rwa [Node.tag_bare])))⟩
      · simp [hx.written, hy.written, Token.Written.operator hop hne]
      · rw [Node.tag_bare]
        exact fun hm => hlhs (List.mem_append_right ["cast", "binary", "ternary"] hm)
    | exprs items =>
      obtain ⟨hlen, hitems⟩ := hn
      have filled : items ≠ [] := by
        rintro rfl
        simp at hlen
      obtain ⟨xs, hx, items⟩ := exists_commas filled fun n hm => ⟨hitems n hm, ih n hm⟩
      refine ⟨xs, ofExpression hx ?_⟩
      rw [← Node.collect_bare hlen]
      exact .expression items
    | _ => cases hs

end Spells

end CPretty
