import CPretty.Proofs.Syntax.Printed.Statement

namespace CPretty

open Doc (Marked text)
open Node (innerDoc innerDocs innerDoc? innerDocs?)

namespace Phrase

/-- The phrases that are one node, which may stand anywhere in a tree. -/
def isNode : Phrase → Bool
  | .commas _ | .braced _ | .sequence _ | .optional _ | .params | .paramList | .abstractDirect
  | .pointed | .external => false
  | _ => true

def isValue : Phrase → Bool
  | .primary | .postfixed | .unary | .operand | .binary _ | .conditional | .assignment
  | .expression => true
  | .commas p | .optional p => p.isValue
  | _ => false

def between : Phrase → List Mark
  | .commas _ | .params | .paramList => commaGap
  | .optional p => p.between
  | _ => [.gap]

/-- The phrases that are no function definitions, and lists of such. -/
def isInner : Phrase → Bool
  | .external => false
  | .commas p | .braced p | .sequence p => p.isNode
  | .optional p => p.isNode || (p matches .commas _ | .params) && p.isInner
  | _ => true

def Printed (p : Phrase) (xs : List Token) (ns : List Node) : Prop :=
  match p with
  | .braced _ => PrintsBraced false xs ns
  | p => PrintsList p.isValue p.between xs ns

end Phrase

variable {p : Phrase} {xs : List Token} {ns : List Node} {n : Node}

theorem Phrase.Printed.node (h : p.Printed xs [n]) (hp : p.isNode = true) :
    Prints p.isValue xs n := by
  cases p <;> first | exact PrintsList.prints h | cases hp

theorem Phrase.Printed.of_node (hp : p.isNode = true) (h : Prints p.isValue xs n) :
    p.Printed xs [n] := by
  cases p <;> first | exact PrintsList.singleton h | cases hp

namespace Derives

theorem single (h : Derives p xs ns) (hp : p.isNode = true) : ∃ n, ns = [n] := by
  cases h <;> first | exact ⟨_, rfl⟩ | cases hp

theorem abstractDirect_cases (h : Derives .abstractDirect xs ns) : ns = [] ∨ ∃ n, ns = [n] := by
  cases h with
  | abstractNone => exact .inl rfl
  | _ => exact .inr ⟨_, rfl⟩

theorem pointed_cases (h : Derives .pointed xs ns) : ns = [] ∨ ∃ n, ns = [n] := by
  cases h with
  | ofAbstractDirect h => exact h.abstractDirect_cases
  | abstractPointer _ _ _ => exact .inr ⟨_, rfl⟩

theorem optional_cases (h : Derives (.optional p) xs ns) (hp : p.isNode = true) :
    ns = [] ∨ ∃ n, ns = [n] := by
  cases h with
  | absent => exact .inl rfl
  | present h => exact .inr (h.single hp)

theorem operand_starts_paren {sp : Span} {e : Node}
    (h : Derives .operand xs [⟨sp, .parens e⟩] ∨ Derives .unary xs [⟨sp, .parens e⟩]) :
    ∃ t ts, xs = t :: ts ∧ t.kind = .lParen := by
  have h : Derives .unary xs [⟨sp, .parens e⟩] := by
    obtain h | h := h
    · cases h
      assumption
    · exact h
  cases h with
  | ofPostfixed h =>
    cases h with
    | ofPrimary h =>
      cases h with
      | parens hl _ _ => exact ⟨_, _, rfl, hl⟩

theorem paramList_ne_nil (h : Derives .paramList xs ns) : ns ≠ [] := by
  cases h <;> exact List.cons_ne_nil _ _

/-- A declarator with nothing before its first suffix starts with the bracket of the suffix. -/
theorem starts_suffix (h : Derives .declarator xs [n] ∨ Derives .abstractDeclarator xs [n])
    (hg : n.declaratorGap = text "") :
    ∃ t ts, xs = t :: ts ∧ t.kind.isQuiet = true ∧ t.kind ≠ .comma := by
  have gap {n : Node} (hg : n.declaratorGap = text "") :
      (∃ o, n.shape = .array none o) ∨ ∃ o, n.shape = .function none o := by
    rw [Node.declaratorGap] at hg
    split at hg
    · exact .inl ⟨_, ‹_›⟩
    · exact .inr ⟨_, ‹_›⟩
    · simp at hg
  have hn := gap hg
  obtain h | h := h
  · -- A name stands before the suffixes.
    cases h with
    | pointer _ _ _ => obtain ⟨_, ho⟩ | ⟨_, ho⟩ := hn <;> cases ho
    | ofDirect h => cases h <;> obtain ⟨_, ho⟩ | ⟨_, ho⟩ := hn <;> cases ho
  · cases h with
    | abstractDeclarator h =>
      cases h with
      | abstractPointer _ _ _ => obtain ⟨_, ho⟩ | ⟨_, ho⟩ := hn <;> cases ho
      | ofAbstractDirect h =>
        cases h with
        | abstractNested _ _ _ => obtain ⟨_, ho⟩ | ⟨_, ho⟩ := hn <;> cases ho
        | @abstractArray xs ds l ys _ _ _ hds hl _ _ =>
          obtain ⟨o, ho⟩ | ⟨o, ho⟩ := hn
          · obtain ⟨rfl, -⟩ | ⟨-, hne⟩ := hds.lead
            · exact ⟨l, _, rfl, by rw [hl]; rfl, by rw [hl]; decide⟩
            · cases ds with
              | nil => exact absurd rfl hne
              | cons d ds => cases ho
          · cases ho
        | @abstractFunction xs ds l ys _ _ _ hds hl _ _ =>
          obtain ⟨o, ho⟩ | ⟨o, ho⟩ := hn
          · cases ho
          · obtain ⟨rfl, -⟩ | ⟨-, hne⟩ := hds.lead
            · exact ⟨l, _, rfl, by rw [hl]; rfl, by rw [hl]; decide⟩
            · cases ds with
              | nil => exact absurd rfl hne
              | cons d ds => cases ho

theorem starts_semicolon (h : Derives .exprStatement xs [n]) (hn : n.hasExpression = false) :
    ∃ t ts, xs = t :: ts ∧ t.kind = .semicolon := by
  cases h with
  | @exprStatement ys es t _ he ht =>
    obtain ⟨rfl, -⟩ | ⟨-, hne⟩ := he.lead
    · exact ⟨t, [], rfl, ht⟩
    · cases es with
      | nil => exact absurd rfl hne
      | cons e es => cases hn

end Derives

theorem PrintsList.option {v : Bool} {between : List Mark} (h : PrintsList v between xs ns)
    (hx : (xs = [] ∧ ns = []) ∨ (Led xs ∧ ns ≠ [])) (hn : ns = [] ∨ ∃ n, ns = [n]) :
    PrintsOption v xs ns.head? := by
  obtain rfl | ⟨n, rfl⟩ := hn
  · exact .inl ⟨(hx.resolve_right fun h => h.2 rfl).1, rfl⟩
  · exact .inr ⟨n, rfl, h.prints⟩

/-- An item, a comma and further items before a closing brace. Where no item follows, the comma is
left out. -/
theorem PrintsBraced.more {v : Bool} {t : Token} {ys : List Token} (h : Prints v xs n)
    (ht : t.Lexed)
    (hk : t.kind = .comma) (hy : (ys = [] ∧ ns = []) ∨ (Led ys ∧ ns ≠ []))
    (h' : PrintsBraced false ys ns) : PrintsBraced false (xs ++ t :: ys) (n :: ns) := by
  obtain ⟨d, ms, a, z, hd, hm, p, ha, -⟩ := h
  obtain ⟨items, hi, hds, hc⟩ := h'
  have hn : Neat false ms := ⟨a, z, p.run, ha, nofun⟩
  obtain ⟨hi', hds'⟩ := PrintsList.cons_items hd hm hn hi hds
  refine ⟨_, hi', hds', fun r rest hr => ?_⟩
  obtain ⟨rfl, rfl⟩ | ⟨⟨u, us, rfl, hu⟩, hne⟩ := hy
  · obtain ⟨-, rfl⟩ | ⟨hne, -, -⟩ := innerDocs_cases hds
    · rw [List.append_assoc, p.covers, List.cons_append, List.nil_append,
        canonicalKeys_trailing hk hr, joined_singleton]
    · exact absurd rfl hne
  · obtain ⟨rfl, -⟩ | ⟨-, hne', -⟩ := innerDocs_cases hds
    · exact absurd rfl hne
    · have hu : u.kind ≠ .rBrace := by
        intro he
        rw [he] at hu
        cases hu
      rw [List.append_assoc, p.covers, List.cons_append, canonicalKeys_comma (by simpa using hu),
        hc r rest hr, ht.canonicalKey_eq hk rfl]
      cases items with
      | nil => exact absurd rfl hne'
      | cons i items => simp [commaGap]

theorem PrintsBraced.last {v : Bool} (h : Prints v xs n) : PrintsBraced false xs [n] := by
  have list : PrintsList false commaGap xs [n] := .singleton h.weaken
  obtain ⟨items, hi, hds, hc⟩ := list
  exact ⟨items, hi, hds, fun r rest _ => hc _⟩

theorem Phrase.isInner_of_isNode (h : p.isNode = true) : p.isInner = true := by
  cases p <;> first | rfl | cases h

theorem Phrase.Printed.optional (h : p.isInner = true → p.Printed xs ns)
    (hp : (Phrase.optional p).isInner = true) : (Phrase.optional p).Printed xs ns := by
  have hi : p.isInner = true := by
    simp only [Phrase.isInner, Bool.or_eq_true, Bool.and_eq_true] at hp
    exact hp.elim Phrase.isInner_of_isNode And.right
  cases p with
  | braced q => simp [Phrase.isInner, Phrase.isNode] at hp
  | _ => exact h hi

theorem Token.prefixOperators_cases {op : Token}
    (h : (Token.In .count op ∨ Token.Of .kwSizeof op) ∨ Token.In .unary op) :
    op.kind ∈ prefixOperators := by
  have groups : ∀ g ∈ [Category.count, .unary], ∀ k ∈ g.members, k ∈ prefixOperators := by decide
  obtain (h | h) | h := h
  · exact groups _ (by simp) _ (List.contains_iff_mem.mp h)
  · rw [h]
    decide
  · exact groups _ (by simp) _ (List.contains_iff_mem.mp h)

/-- Binary operators are neither brackets nor commas. -/
theorem Token.operator_ne {op : Token} {l : Expected} (h : l ∈ Grammar.ladder)
    (ha : l.accepts op.kind = true) : op.kind ∉ Kind.brackets ∧ op.kind ∉ [Kind.comma, .dot] := by
  have tokens : ∀ k, .token k ∈ Grammar.ladder → k ∉ Kind.brackets ∧ k ∉ [Kind.comma, .dot] := by
    intro k hk
    simp [Grammar.ladder] at hk
    obtain rfl | rfl | rfl | rfl | rfl := hk <;> decide
  have groups : ∀ g, .category g ∈ Grammar.ladder →
      ∀ k ∈ g.members, k ∉ Kind.brackets ∧ k ∉ [Kind.comma, .dot] := by
    intro g hg
    simp [Grammar.ladder] at hg
    obtain rfl | rfl | rfl | rfl | rfl := hg <;> decide
  cases l with
  | token k =>
    have hk : op.kind = k := by simpa [Expected.accepts] using ha
    rw [hk]
    exact tokens k h
  | category g => exact groups g h _ (List.contains_iff_mem.mp ha)
  | production p => cases ha

/-- The tokens of a derivation are printed by its nodes. -/
theorem Derives.printed (h : Derives p xs ns) (hx : AllLexed xs) (hp : p.isInner = true) :
    p.Printed xs ns := by
  induction h with
  | one h ih => exact .singleton ((ih hx (Phrase.isInner_of_isNode hp)).node hp)
  | more h ht hs ih ihs =>
    simp at hx
    exact .comma ((ih hx.1 (Phrase.isInner_of_isNode hp)).node hp) hx.2.1 ht
      (hs.led hs.commas_ne_nil) (ihs hx.2.2 hp) hs.commas_ne_nil
  | bracedNil => exact ⟨[], ⟨by simp, by simp⟩, rfl, fun _ _ _ => rfl⟩
  | bracedLast h ih => exact .last ((ih hx (Phrase.isInner_of_isNode hp)).node hp)
  | bracedMore h ht hs ih ihs =>
    simp at hx
    exact .more ((ih hx.1 (Phrase.isInner_of_isNode hp)).node hp) hx.2.1 ht hs.lead
      (ihs hx.2.2 hp)
  | sequenceNil => exact PrintsList.nil
  | sequenceMore h hs ih ihs =>
    simp at hx
    exact .gap ((ih hx.1 (Phrase.isInner_of_isNode hp)).node hp).weaken (ihs hx.2 hp)
  | absent => exact PrintsList.nil
  | present h ih => exact .optional (ih hx) hp
  -- Expressions
  | ident ht => exact .of_node rfl (.ident ht)
  | constant ht => exact .of_node rfl (.const ht)
  | strings hs => exact .of_node rfl (.strings hs)
  | parens hl _ hr ih =>
    simp at hx
    exact .of_node rfl (.parens hx.1 hl ((ih hx.2.1 rfl).node rfl) hx.2.2 hr)
  | ofPrimary _ ih => exact ih hx rfl
  | index _ hl _ hr ih ih' =>
    simp at hx
    exact .of_node rfl (.index ((ih hx.1 rfl).node rfl) hx.2.1 hl ((ih' hx.2.2.1 rfl).node rfl)
      hx.2.2.2 hr)
  | call _ hl _ hr ih ih' =>
    simp at hx
    exact .of_node rfl (.call ((ih hx.1 rfl).node rfl) hx.2.1 hl (ih' hx.2.2.1 rfl) hx.2.2.2 hr)
  | field _ hop ht ih =>
    simp at hx
    exact .of_node rfl (.field ((ih hx.1 rfl).node rfl) hop ht)
  | postUnary _ hop ih =>
    simp at hx
    exact .of_node rfl (.postUnary ((ih hx.1 rfl).node rfl) hop)
  | ofPostfixed _ ih => exact ih hx rfl
  | @prefixed op xs e sp hop h ih =>
    simp at hx
    refine .of_node rfl (.prefixed hx.1 (Token.prefixOperators_cases (.inl hop))
      ((ih hx.2 rfl).node rfl) fun e' he => ?_)
    obtain ⟨sp', sh⟩ := e
    cases he
    exact operand_starts_paren (.inr h)
  | sizeofType hop hl _ hr ih =>
    simp at hx
    exact .of_node rfl (.sizeofType hop hx.2.1 hl ((ih hx.2.2.1 rfl).node rfl) hx.2.2.2 hr)
  | @operator op xs e sp hop h ih =>
    simp at hx
    refine .of_node rfl (.prefixed hx.1 (Token.prefixOperators_cases (.inr hop))
      ((ih hx.2 rfl).node rfl) fun e' he => ?_)
    obtain ⟨sp', sh⟩ := e
    cases he
    exact operand_starts_paren (.inl h)
  | ofUnary _ ih => exact ih hx rfl
  | cast hl _ hr _ ih ih' =>
    simp at hx
    exact .of_node rfl (.cast hx.1 hl ((ih hx.2.1 rfl).node rfl) hx.2.2.1 hr
      ((ih' hx.2.2.2 rfl).node rfl))
  | ofOperand _ ih => exact ih hx rfl
  | tighter _ ih => exact ih hx rfl
  | binary hl _ hop _ ih ih' =>
    simp at hx
    obtain ⟨hb, hc⟩ := Token.operator_ne hl hop
    exact .of_node rfl (.binary ((ih hx.1 rfl).node rfl) hb hc ((ih' hx.2.2 rfl).node rfl))
  | ofBinary _ ih => exact ih hx rfl
  | ternary _ hq _ ht _ ih ih' ih'' =>
    simp at hx
    exact .of_node rfl (.ternary ((ih hx.1 rfl).node rfl) hx.2.1 hq ((ih' hx.2.2.1 rfl).node rfl)
      hx.2.2.2.1 ht ((ih'' hx.2.2.2.2 rfl).node rfl))
  | ofConditional _ ih => exact ih hx rfl
  | assign _ _ hop _ ih ih' =>
    simp at hx
    have kinds : ∀ k ∈ Category.members .assignment, k ∉ Kind.brackets ∧
      k ∉ [Kind.comma, .dot] := by decide
    obtain ⟨hb, hc⟩ := kinds _ (List.contains_iff_mem.mp hop)
    exact .of_node rfl (.assign ((ih hx.1 rfl).node rfl) hb hc ((ih' hx.2.2 rfl).node rfl))
  | expression h ih => exact .of_node rfl (.exprs (ih hx rfl) h.commas_ne_nil)
  -- Types
  | name ht => exact .of_node rfl (.ident ht)
  | qualifier ht => exact .of_node rfl (.keyword (by simp [Token.isSpecifierWord, ht]))
  | enumerator ht => exact .of_node rfl (.enumerator ht)
  | enumeratorValue ht hq _ ih =>
    simp at hx
    exact .of_node rfl (.enumeratorValue ht hx.2.1 hq ((ih hx.2.2 rfl).node rfl))
  | enumName hk ht =>
    simp at hx
    exact .of_node rfl (.enumName hx.1 hk ht)
  | enumBody hk hn hl _ hr ih =>
    simp at hx
    exact .of_node rfl (.enumBody hx.1 hk hn hx.2.2.1 hl (ih hx.2.2.2.1 rfl) hx.2.2.2.2 hr)
  | structName hk ht => exact .of_node rfl (.structName hk ht)
  | structBody hk hn hl _ hr ih =>
    simp at hx
    exact .of_node rfl (.structBody hk hn hx.2.2.1 hl (ih hx.2.2.2.1 rfl) hx.2.2.2.2 hr)
  | word ht => exact .of_node rfl (.keyword ht)
  | typedefName ht => exact .of_node rfl (.ident ht)
  | atomic hk hl _ hr ih =>
    simp at hx
    exact .of_node rfl (.atomic hx.1 hk hx.2.1 hl ((ih hx.2.2.1 rfl).node rfl) hx.2.2.2 hr)
  | ofRecord _ ih => exact ih hx rfl
  | ofEnumeration _ ih => exact ih hx rfl
  | declSpecs h hne ih => exact .of_node rfl (.declSpecs (ih hx rfl) hne)
  | specQuals h hne ih => exact .of_node rfl (.specQuals (ih hx rfl) hne)
  | ofSpecQuals _ ih => exact ih hx rfl
  | typeName _ h ih ih' =>
    simp at hx
    exact .of_node rfl (.typeName ((ih hx.1 rfl).node rfl) ((ih' hx.2 rfl).node rfl)
      (starts_suffix (.inr h)))
  -- Declarators
  | directName ht => exact .of_node rfl (.ident ht)
  | directNested hl _ hr ih =>
    simp at hx
    exact .of_node rfl (.nested hx.1 hl ((ih hx.2.1 rfl).node rfl) hx.2.2 hr)
  | array _ hl hs hr ih ih' =>
    simp at hx
    exact .of_node rfl (.array (.inr ⟨_, rfl, (ih hx.1 rfl).node rfl⟩) hx.2.1 hl
      (PrintsList.option (ih' hx.2.2.1 rfl) hs.lead (hs.optional_cases rfl)) hx.2.2.2 hr)
  | function _ hl _ hr ih ih' =>
    simp at hx
    exact .of_node rfl (.function (.inr ⟨_, rfl, (ih hx.1 rfl).node rfl⟩) hx.2.1 hl
      (ih' hx.2.2.1 rfl) hx.2.2.2 hr)
  | ofDirect _ ih => exact ih hx rfl
  | pointer ht _ _ ih ih' =>
    simp at hx
    exact .of_node rfl (.pointer hx.1 ht (ih hx.2.1 rfl)
      (.inr ⟨_, rfl, (ih' hx.2.2 rfl).node rfl⟩))
  | abstractNone => exact PrintsList.nil
  | abstractNested hl _ hr ih =>
    simp at hx
    exact .singleton (.nested hx.1 hl ((ih hx.2.1 rfl).node rfl) hx.2.2 hr)
  | abstractArray h hl hs hr ih ih' =>
    simp at hx
    exact .singleton (.array (PrintsList.option (ih hx.1 rfl) h.lead
      h.abstractDirect_cases) hx.2.1 hl
      (PrintsList.option (ih' hx.2.2.1 rfl) hs.lead (hs.optional_cases rfl)) hx.2.2.2 hr)
  | abstractFunction h hl _ hr ih ih' =>
    simp at hx
    exact .singleton (.function (PrintsList.option (ih hx.1 rfl) h.lead
      h.abstractDirect_cases) hx.2.1
      hl (ih' hx.2.2.1 rfl) hx.2.2.2 hr)
  | ofAbstractDirect _ ih => exact ih hx rfl
  | abstractPointer ht _ h ih ih' =>
    simp at hx
    exact .singleton (.pointer hx.1 ht (ih hx.2.1 rfl)
      (PrintsList.option (ih' hx.2.2 rfl) h.lead h.pointed_cases))
  | abstractDeclarator _ ih => exact ih hx rfl
  | names _ ih => exact ih hx rfl
  | typedParams _ ih => exact ih hx rfl
  | lastParam _ ih => exact .singleton ((ih hx rfl).node rfl)
  | ellipsis _ ht hd ih =>
    simp at hx
    exact .comma ((ih hx.1 rfl).node rfl) hx.2.1 ht (.of_kind hd rfl [])
      (.singleton (.ellipsis hx.2.2 hd))
      (by simp)
  | moreParams _ ht hs ih ihs =>
    simp at hx
    exact .comma ((ih hx.1 rfl).node rfl) hx.2.1 ht (hs.led hs.paramList_ne_nil) (ihs hx.2.2 rfl)
      hs.paramList_ne_nil
  | param _ h ih ih' =>
    simp at hx
    obtain rfl | ⟨d, rfl⟩ := h.optional_cases rfl
    · obtain ⟨rfl, -⟩ := h.lead.resolve_right fun hne => hne.2 rfl
      rw [List.append_nil]
      exact .of_node rfl (.paramAlone ((ih hx.1 rfl).node rfl))
    · refine .of_node rfl (.param ((ih hx.1 rfl).node rfl) (PrintsList.prints (ih' hx.2 rfl))
        (starts_suffix ?_))
      cases h with
      | present h =>
        cases h with
        | paramNamed h => exact .inl h
        | paramUnnamed h => exact .inr h
  | paramNamed _ ih => exact ih hx rfl
  | paramUnnamed _ ih => exact ih hx rfl
  -- Declarations
  | plainMember _ ih => exact ih hx rfl
  | bitfield h ht _ ih ih' =>
    simp at hx
    exact .of_node rfl (.bitfield (PrintsList.option (ih hx.1 rfl) h.lead (h.optional_cases rfl))
      hx.2.1 ht ((ih' hx.2.2 rfl).node rfl))
  | member _ _ ht ih ih' =>
    simp at hx
    exact .of_node rfl (.member ((ih hx.1 rfl).node rfl) (ih' hx.2.1 rfl) hx.2.2 ht)
  | ofAssignment _ ih => exact .of_node rfl ((ih hx rfl).node rfl).weaken
  | initList hl _ hr ih =>
    simp at hx
    exact .of_node rfl (.initList hx.1 hl (ih hx.2.1 rfl) hx.2.2 hr)
  | plainInit _ ih => exact .of_node rfl (.initAlone ((ih hx rfl).node rfl))
  | initValue _ hq _ ih ih' =>
    simp at hx
    exact .of_node rfl (.initValue ((ih hx.1 rfl).node rfl) hx.2.1 hq ((ih' hx.2.2 rfl).node rfl))
  | declaration _ _ ht ih ih' =>
    simp at hx
    exact .of_node rfl (.decl ((ih hx.1 rfl).node rfl) (ih' hx.2.1 rfl) hx.2.2 ht)
  | staticAssert hk hl _ ht hs hr hm ih =>
    simp at hx
    exact .of_node rfl (.staticAssert hx.1 hk hx.2.1 hl ((ih hx.2.2.1 rfl).node rfl)
      hx.2.2.2.1 ht hs
      hx.2.2.2.2.2.2.1 hr hx.2.2.2.2.2.2.2 hm)
  -- Statements
  | exprStatement h ht ih =>
    simp at hx
    exact .of_node rfl (.exprStmt (PrintsList.option (ih hx.1 rfl) h.lead (h.optional_cases rfl))
      hx.2 ht)
  | compound hl _ hr ih =>
    simp at hx
    exact .of_node rfl (.compound hx.1 hl (ih hx.2.1 rfl) hx.2.2 hr)
  | itemDeclaration _ ih => exact ih hx rfl
  | itemStatement _ ih => exact ih hx rfl
  | ofExprStatement _ ih => exact ih hx rfl
  | ofCompound _ ih => exact ih hx rfl
  | label ht hq _ ih =>
    simp at hx
    exact .of_node rfl (.labelStmt ht hx.2.1 hq ((ih hx.2.2 rfl).node rfl))
  | caseStmt hk _ hq _ ih ih' =>
    simp at hx
    exact .of_node rfl (.caseStmt hx.1 hk ((ih hx.2.1 rfl).node rfl) hx.2.2.1 hq
      ((ih' hx.2.2.2 rfl).node rfl))
  | defaultStmt hk hq _ ih =>
    simp at hx
    exact .of_node rfl (.defaultStmt hx.1 hk hx.2.1 hq ((ih hx.2.2 rfl).node rfl))
  | ifStmt hk hl _ hr _ ih ih' =>
    simp at hx
    exact .of_node rfl (.ifStmt hx.1 hk hx.2.1 hl ((ih hx.2.2.1 rfl).node rfl) hx.2.2.2.1 hr
      ((ih' hx.2.2.2.2 rfl).node rfl))
  | ifElse hk hl _ hr _ ht _ ih ih' ihe =>
    simp at hx
    obtain ⟨hx₁, hx₂, hx₃, hx₄, hx₅, hx₆, hx₇⟩ := hx
    exact .of_node rfl (.ifElse hx₁ hk hx₂ hl ((ih hx₃ rfl).node rfl) hx₄ hr
      ((ih' hx₅ rfl).node rfl) hx₆ ht ((ihe hx₇ rfl).node rfl))
  | switchStmt hk hl _ hr _ ih ih' =>
    simp at hx
    exact .of_node rfl (.switchStmt hx.1 hk hx.2.1 hl ((ih hx.2.2.1 rfl).node rfl) hx.2.2.2.1 hr
      ((ih' hx.2.2.2.2 rfl).node rfl))
  | whileStmt hk hl _ hr _ ih ih' =>
    simp at hx
    exact .of_node rfl (.whileStmt hx.1 hk hx.2.1 hl ((ih hx.2.2.1 rfl).node rfl) hx.2.2.2.1 hr
      ((ih' hx.2.2.2.2 rfl).node rfl))
  | doStmt hk _ hw hl _ hr ht ih ih' =>
    simp at hx
    obtain ⟨hx₁, hx₂, hx₃, hx₄, hx₅, hx₆, hx₇⟩ := hx
    exact .of_node rfl (.doStmt hx₁ hk ((ih hx₂ rfl).node rfl) hx₃ hw hx₄ hl
      ((ih' hx₅ rfl).node rfl) hx₆ hr hx₇ ht)
  | forStmt hk hl _ hc hs hr _ ih ihc ihs ihb =>
    simp at hx
    obtain ⟨hx₁, hx₂, hx₃, hx₄, hx₅, hx₆, hx₇⟩ := hx
    exact .of_node rfl (.forStmt hx₁ hk hx₂ hl ((ih hx₃ rfl).node rfl) ((ihc hx₄ rfl).node rfl)
      hc.starts_semicolon (PrintsList.option (ihs hx₅ rfl) hs.lead (hs.optional_cases rfl))
      hx₆ hr ((ihb hx₇ rfl).node rfl))
  | initDeclaration _ ih => exact ih hx rfl
  | initStatement _ ih => exact ih hx rfl
  | gotoStmt hk ht hs =>
    simp at hx
    exact .of_node rfl (.gotoStmt hx.1 hk ht hx.2.2 hs)
  | continueStmt hk hs =>
    simp at hx
    exact .of_node rfl (.jump hx.1 hk (by decide) rfl rfl hx.2 hs rfl rfl)
  | breakStmt hk hs =>
    simp at hx
    exact .of_node rfl (.jump hx.1 hk (by decide) rfl rfl hx.2 hs rfl rfl)
  | returnStmt hk h hs ih =>
    simp at hx
    exact .of_node rfl (.returnStmt hx.1 hk
      (PrintsList.option (ih hx.2.1 rfl) h.lead (h.optional_cases rfl)) hx.2.2 hs)
  -- Whole sources
  | definition => cases hp
  | ofDeclaration => cases hp

end CPretty
