import CPretty.Proofs.Format.Ranges
import CPretty.Proofs.Format.RoundTrip

namespace CPretty

open Parse

def Shape.isIf {α : Type} : Shape α → Bool
  | .ifStmt .. => true
  | _ => false

namespace Node

/-- The statement that a statement ends with, if it does not end with a token of its own. -/
def lastPart? : Node → Option Node
  | ⟨_, .whileStmt _ body⟩ | ⟨_, .forStmt _ _ _ body⟩ | ⟨_, .switchStmt _ body⟩
  | ⟨_, .labelStmt _ body⟩ | ⟨_, .caseStmt _ body⟩ | ⟨_, .defaultStmt body⟩ => some body
  | ⟨_, .ifStmt _ _ no⟩ => no
  | _ => none

/-- A statement ends in itself and in what its last part ends in. -/
inductive EndsIn : Node → Node → Prop
  | refl {n} : EndsIn n n
  | part {n m w} : n.lastPart? = some m → EndsIn m w → EndsIn n w

def isOpenIf : Node → Bool
  | ⟨_, .ifStmt _ _ none⟩ => true
  | _ => false

/-- An `else` behind the statement would belong to an `if` in it. -/
def EndsOpen (n : Node) : Prop := ∃ w, n.EndsIn w ∧ w.isOpenIf = true

/-- An `if` with an `else` has no open `if` at the end of its first part. -/
def Attached : Node → Prop
  | ⟨_, .ifStmt _ yes (some _)⟩ => ¬ yes.EndsOpen
  | _ => True

abbrev IfFree (n : Node) : Prop := n.Every fun s => s.isIf = false

theorem lenient_isIf : Lenient fun s => s.isIf = false :=
  ⟨fun _ _ => rfl, fun _ _ => rfl, fun _ _ => rfl, fun _ => rfl⟩

theorem EndsOpen.of_lastPart? {n m : Node} (h : n.EndsOpen) (hn : n.isOpenIf = false)
    (hm : n.lastPart? = some m) : m.EndsOpen := by
  obtain ⟨w, hw, ho⟩ := h
  cases hw with
  | refl => simp [hn] at ho
  | part hp hw =>
    cases hm.symm.trans hp
    exact ⟨w, hw, ho⟩

theorem not_endsOpen {n : Node} (hn : n.isOpenIf = false) (hm : n.lastPart? = none) :
    ¬ n.EndsOpen := by
  rintro ⟨w, hw, ho⟩
  cases hw with
  | refl => simp [hn] at ho
  | part hp _ => simp [hm] at hp

end Node

def Phrase.holdsStatements : Phrase → Bool
  | .compound | .statement | .blockItem | .external => true
  | .commas p | .braced p | .sequence p | .optional p => p.holdsStatements
  | _ => false

section

variable {ns : List Node} {sp : Span} {s : Shape Node}

theorem Node.ifFree_head? (h : ∀ n ∈ ns, n.IfFree) : ∀ n ∈ ns.head?.toList, n.IfFree :=
  fun n hn => h n (List.mem_of_mem_head? (Option.mem_toList.mp hn))

theorem Node.ifFree_nonempty? (h : ∀ n ∈ ns, n.IfFree) :
    ∀ n ∈ (nonempty? ns).getD [], n.IfFree := by
  rwa [getD_nonempty?]

theorem Node.ifFree_mk (hs : s.isIf = false) (hc : ∀ n ∈ s.children, n.IfFree) :
    ∀ n ∈ [(⟨sp, s⟩ : Node)], n.IfFree := List.forall_mem_singleton.mpr (.mk hs hc)

open Node in
theorem Derives.ifFree {p : Phrase} {xs : List Token} {ns : List Node} (h : Derives p xs ns)
    (hp : p.holdsStatements = false) : ∀ n ∈ ns, n.IfFree := by
  induction h with
  -- Lists
  | one _ ih | bracedLast _ ih | present _ ih => exact ih hp
  | more _ _ _ ih₁ ih₂ | bracedMore _ _ _ ih₁ ih₂ | sequenceMore _ _ ih₁ ih₂ =>
    exact List.forall_mem_append.mpr ⟨ih₁ hp, ih₂ hp⟩
  | bracedNil | sequenceNil | absent | abstractNone => exact nofun
  -- Nodes without parts
  | ident | constant | strings | name | qualifier | enumerator | enumName | structName | word
  | typedefName | directName => exact ifFree_mk rfl nofun
  -- The nodes of another phrase
  | ofPrimary _ ih | ofPostfixed _ ih | ofUnary _ ih | ofOperand _ ih | tighter _ ih
  | ofBinary _ ih | ofConditional _ ih | ofRecord _ ih | ofEnumeration _ ih | ofSpecQuals _ ih
  | ofDirect _ ih | ofAbstractDirect _ ih | abstractDeclarator _ ih | names _ ih
  | typedParams _ ih | lastParam _ ih | paramNamed _ ih | paramUnnamed _ ih | plainMember _ ih
  | ofAssignment _ ih | initDeclaration _ ih | initStatement _ ih => exact ih rfl
  | expression h ih =>
    exact List.forall_mem_singleton.mpr (.collect (ih rfl) h.commas_ne_nil (fun _ => rfl) rfl)
  | declSpecs _ hne ih | specQuals _ hne ih =>
    exact List.forall_mem_singleton.mpr (.collect (ih rfl) hne (fun _ => rfl) rfl)
  | ellipsis _ _ _ ih =>
    exact List.forall_mem_append.mpr ⟨ih rfl, ifFree_mk rfl (List.forall_mem_nil _)⟩
  | moreParams _ _ _ ih₁ ih₂ => exact List.forall_mem_append.mpr ⟨ih₁ rfl, ih₂ rfl⟩
  -- Nodes with the nodes of one phrase
  | parens _ _ _ ih | field _ _ _ ih | postUnary _ _ ih | prefixed _ _ ih
  | sizeofType _ _ _ _ ih | operator _ _ ih | enumeratorValue _ _ _ ih | enumBody _ _ _ _ _ ih
  | structBody _ _ _ _ _ ih | atomic _ _ _ _ ih | directNested _ _ _ ih | abstractNested _ _ _ ih
  | initList _ _ _ ih | plainInit _ ih | staticAssert _ _ _ _ _ _ _ ih =>
    exact ifFree_mk rfl (ih rfl)
  | exprStatement _ _ ih => exact ifFree_mk rfl (ifFree_head? (ih rfl))
  -- Nodes with the nodes of two phrases or more
  | index _ _ _ _ ih₁ ih₂ | cast _ _ _ _ ih₁ ih₂ | binary _ _ _ _ ih₁ ih₂
  | assign _ _ _ _ ih₁ ih₂ | typeName _ _ ih₁ ih₂ | pointer _ _ _ ih₁ ih₂ | member _ _ _ ih₁ ih₂
  | initValue _ _ _ ih₁ ih₂ =>
    have parts := List.forall_mem_append.mpr ⟨ih₁ rfl, ih₂ rfl⟩
    exact ifFree_mk rfl parts
  | ternary _ _ _ _ _ ih₁ ih₂ ih₃ =>
    have parts := List.forall_mem_append.mpr ⟨ih₂ rfl, ih₃ rfl⟩
    exact ifFree_mk rfl (List.forall_mem_cons.mpr ⟨ih₁ rfl _ (List.mem_singleton_self _), parts⟩)
  | array _ _ _ _ ih₁ ih₂ | abstractPointer _ _ _ ih₁ ih₂ | param _ _ ih₁ ih₂ =>
    have parts := List.forall_mem_append.mpr ⟨ih₁ rfl, ifFree_head? (ih₂ rfl)⟩
    exact ifFree_mk rfl parts
  | abstractArray _ _ _ _ ih₁ ih₂ =>
    have parts := List.forall_mem_append.mpr ⟨ifFree_head? (ih₁ rfl), ifFree_head? (ih₂ rfl)⟩
    exact ifFree_mk rfl parts
  | bitfield _ _ _ ih₁ ih₂ =>
    have parts := List.forall_mem_append.mpr ⟨ifFree_head? (ih₁ rfl), ih₂ rfl⟩
    exact ifFree_mk rfl parts
  | call _ _ _ _ ih₁ ih₂ | function _ _ _ _ ih₁ ih₂ | declaration _ _ _ ih₁ ih₂ =>
    have parts := List.forall_mem_append.mpr ⟨ih₁ rfl, ifFree_nonempty? (ih₂ rfl)⟩
    exact ifFree_mk rfl parts
  | abstractFunction _ _ _ _ ih₁ ih₂ =>
    have parts := List.forall_mem_append.mpr ⟨ifFree_head? (ih₁ rfl), ifFree_nonempty? (ih₂ rfl)⟩
    exact ifFree_mk rfl parts
  -- Statements
  | _ => cases hp

end

variable {α β : Type} {ts : List Token} {c d : Cursor} {n m : Node} {ns : List Node} {sp : Span}
  {s : Shape Node} {deep : Nested} {k : Kind} {D : List Token → α → Prop} {a : α}

namespace Node

/-- Where the node ends, the tokens do not go on with an `else`. -/
def Unclaimed (ts : List Token) (n : Node) : Prop :=
  ∃ us vs, ts = us ++ vs ∧ EndsAt us n.span.last ∧ ∀ t ∈ vs.head?, t.kind ≠ .kwElse

/-- Every `if` with an `else` is the nearest one for it, and there is no `else` behind any other. -/
def Settled (ts : List Token) (n : Node) : Prop :=
  ∀ w : Node, w.Within n → w.Attached ∧ (w.isOpenIf = true → w.Unclaimed ts)

theorem Settled.mk (ha : Attached ⟨sp, s⟩) (ho : isOpenIf ⟨sp, s⟩ = true → Unclaimed ts ⟨sp, s⟩)
    (hc : ∀ c ∈ s.children, c.Settled ts) : Settled ts ⟨sp, s⟩ := by
  intro w hw
  cases hw with
  | refl => exact ⟨ha, ho⟩
  | child hm hw => exact hc _ hm w hw

theorem isOpenIf_of_isIf (hs : n.shape.isIf = false) : n.isOpenIf = false := by
  obtain ⟨sp, s⟩ := n
  cases s <;> first | rfl | cases hs

theorem attached_of_isIf (hs : n.shape.isIf = false) : n.Attached := by
  obtain ⟨sp, s⟩ := n
  cases s <;> trivial

theorem Settled.of_isIf (hs : s.isIf = false) (hc : ∀ c ∈ s.children, c.Settled ts) :
    Settled ts ⟨sp, s⟩ :=
  .mk (attached_of_isIf hs) (fun ho => by simp [isOpenIf_of_isIf (n := ⟨sp, s⟩) hs] at ho) hc

theorem mem_children_of_lastPart? (h : n.lastPart? = some m) : m ∈ n.children := by
  obtain ⟨sp, s⟩ := n
  cases s <;> simp_all [lastPart?, children, shape, Shape.children]

theorem EndsIn.within (h : n.EndsIn m) : m.Within n := by
  induction h with
  | refl => exact .refl
  | part hp _ ih => exact .child (mem_children_of_lastPart? hp) ih

theorem IfFree.not_endsOpen (h : n.IfFree) : ¬ n.EndsOpen := by
  rintro ⟨w, hw, ho⟩
  rw [isOpenIf_of_isIf (h w hw.within)] at ho
  cases ho

theorem IfFree.settled (h : n.IfFree) : n.Settled ts :=
  fun w hw => ⟨attached_of_isIf (h w hw), fun ho => by simp [isOpenIf_of_isIf (h w hw)] at ho⟩

end Node

/-- The cursor stands among the tokens. -/
structure Inside (ts : List Token) (c : Cursor) : Prop where
  ended : c.Ended
  suffix : c.ahead <:+ ts

theorem Between.inside (h : Between D c a d) (hc : Inside ts c) : Inside ts d := by
  obtain ⟨-, xs, p, -⟩ := h
  exact ⟨p.ended hc.ended, .trans ⟨xs, p.ahead.symm⟩ hc.suffix⟩

/-- A node that is read up to a cursor: no `else` there belongs to it. -/
structure Finished (ts : List Token) (n : Node) (d : Cursor) : Prop where
  settled : n.Settled ts
  next : d.peek.kind = .kwElse → ¬ n.EndsOpen

namespace Finished

theorem of_isIf (hs : s.isIf = false) (hl : Node.lastPart? ⟨sp, s⟩ = none)
    (hc : ∀ c ∈ s.children, c.Settled ts) : Finished ts ⟨sp, s⟩ d :=
  ⟨.of_isIf hs hc, fun _ => Node.not_endsOpen (Node.isOpenIf_of_isIf hs) hl⟩

theorem around (h : Finished ts m d) (ns : List Node) (hs : s.isIf = false)
    (hl : Node.lastPart? ⟨sp, s⟩ = some m) (hc : s.children = ns ++ [m])
    (hn : ∀ e ∈ ns, e.IfFree) : Finished ts ⟨sp, s⟩ d := by
  refine ⟨.of_isIf hs ?_, fun hd ho => ?_⟩
  · rw [hc]
    exact List.forall_mem_append.mpr
      ⟨fun e he => (hn e he).settled, List.forall_mem_singleton.mpr h.settled⟩
  · exact h.next hd (ho.of_lastPart? (Node.isOpenIf_of_isIf hs) hl)

theorem ifElse {e y : Node} (he : e.IfFree) (hy : y.Settled ts) (ho : ¬ y.EndsOpen)
    (hm : Finished ts m d) : Finished ts ⟨sp, .ifStmt e y (some m)⟩ d := by
  refine ⟨.mk ho nofun ?_, fun hd ho => hm.next hd (ho.of_lastPart? rfl rfl)⟩
  simp only [Shape.children, Option.toList_some, List.cons_append, List.nil_append,
    List.forall_mem_cons]
  exact ⟨he.settled, hy, hm.settled, List.forall_mem_nil _⟩

theorem ifOpen {e y : Node} (he : e.IfFree) (hy : y.Settled ts) (hc : Inside ts c)
    (hs : Spanned c ⟨sp, .ifStmt e y none⟩ d) (hk : d.peek.kind ≠ .kwElse) :
    Finished ts ⟨sp, .ifStmt e y none⟩ d := by
  refine ⟨.mk trivial (fun _ => ?_) ?_, fun hd => absurd hd hk⟩
  · obtain ⟨-, xs, p, hx⟩ := hs
    obtain ⟨us, hu⟩ := hc.suffix
    refine ⟨us ++ xs, d.ahead, ?_, hx.ends.append us, fun t ht => ?_⟩
    · rw [← hu, p.ahead, List.append_assoc]
    · rwa [Cursor.peek, List.headD_eq_head?_getD, Option.mem_def.mp ht] at hk
  · simp only [Shape.children, Option.toList_none, List.append_nil, List.forall_mem_cons]
    exact ⟨he.settled, hy, List.forall_mem_nil _⟩

end Finished

namespace Ensures

variable {E F : α → Cursor → Prop} {P : Cursor → Prop} {Q : α → Prop}

theorem mono {r : Except ParseError (α × Cursor)} (h : Ensures E r)
    (hE : ∀ {a d}, E a d → F a d) : Ensures F r :=
  fun _ _ hr => hE (h hr)

theorem either {p q : Parse α} (hp : Ensures E (p c)) (hq : Ensures E (q c)) :
    Ensures E (either p q c) := by
  intro a d h
  obtain h | h := either_ok h
  · exact hp h
  · exact hq h

/-- What every step of a repetition yields, all of it yields. -/
theorem many {step : Parse (Option α)}
    (hs : ∀ {c}, P c → Ensures (fun o d => P d ∧ ∀ a ∈ o, Q a) (step c)) (h : P c) :
    Ensures (fun as d => P d ∧ ∀ a ∈ as, Q a) (many step c) := by
  have loop (n : Nat) : ∀ {c}, P c →
      Ensures (fun as d => P d ∧ ∀ a ∈ as, Q a) (manyUpTo step n c) := by
    induction n with
    | zero => exact fun h => .pure ⟨h, List.forall_mem_nil _⟩
    | succ n ih =>
      intro c h
      refine .bind (hs h) fun {o d} ho => ?_
      cases o with
      | none => exact .pure ⟨ho.1, List.forall_mem_nil _⟩
      | some a =>
        refine .bind (ih ho.1) fun has => .pure ⟨has.1, ?_⟩
        exact List.forall_mem_cons.mpr ⟨ho.2 a rfl, has.2⟩
  exact .ahead (loop _ h)

theorem manyUntil {item : Parse α} (hi : ∀ {c}, P c → Ensures (fun a d => P d ∧ Q a) (item c))
    (h : P c) : Ensures (fun as d => P d ∧ ∀ a ∈ as, Q a) (manyUntil k item c) := by
  refine .many (fun {c} hc => .check (.atEnd ?_)) h
  split
  · exact .pure ⟨hc, nofun⟩
  · refine .bind (hi hc) fun h => .pure ⟨h.1, ?_⟩
    rintro _ ⟨⟩
    exact h.2

theorem eat_kind {f : Bool → Parse α} (hc : c.Ended) (hk : k ≠ .eof)
    (yes : ∀ {t d}, c.peek.kind = k → Eats c t d → Ensures E (f true d))
    (no : c.peek.kind ≠ k → Ensures E (f false c)) : Ensures E ((Parse.eat k >>= f) c) := by
  by_cases h : c.peek.kind = k
  · rw [bind_of_ok (eat_of_eq h)]
    exact yes h (.of_passes hc (.of_advance hc (h ▸ hk)))
  · rw [bind_of_ok (eat_of_ne h)]
    exact no h

end Ensures

/-- The productions of statements leave no `else` behind that belongs to them. -/
structure Nested.Finishing (ts : List Token) (deep : Nested) : Prop where
  sound : deep.Sound
  covering : deep.Covering
  statement : ∀ {c}, Inside ts c → Ensures (Finished ts) (deep.statement c)

theorem ReadsAs.ifFree {p : Parse Node} {ph : Phrase} (h : ReadsAs p ph)
    (hp : ph.holdsStatements = false) (hc : Inside ts c) :
    Ensures (fun n d => Inside ts d ∧ n.IfFree) (p c) := by
  intro n d hr
  have hn := h.run hc.ended hr
  obtain ⟨-, xs, -, hx⟩ := id hn
  exact ⟨hn.inside hc, hx.ifFree hp n (List.mem_singleton_self n)⟩

theorem Between.ifFree {ph : Phrase} {o : Option Node}
    (h : Between (StepReads fun xs n => Derives ph xs [n]) c o d)
    (hp : ph.holdsStatements = false) :
    ∀ e ∈ o.toList, e.IfFree := by
  obtain ⟨-, xs, -, hx⟩ := h
  cases o with
  | none => exact List.forall_mem_nil _
  | some n => exact Derives.ifFree hx hp

namespace Grammar

variable (hd : deep.Finishing ts)
include hd

theorem body_finishes (hc : Inside ts c) :
    Ensures (fun n d => Spanned c n d ∧ Finished ts n d) (deep.statement c) :=
  fun _ _ hr => ⟨hd.covering.statement.run hc.ended hr, hd.statement hc hr⟩

theorem condition_ifFree (hc : Inside ts c) :
    Ensures (fun n d => Inside ts d ∧ n.IfFree) (condition deep c) := by
  refine .expect hc.ended (by decide) fun hl => ?_
  refine .bind (ReadsAs.ifFree (expression_reads hd.sound) rfl (hl.inside hc)) fun hn => ?_
  exact .expect hn.1.ended (by decide) fun hr => .pure ⟨hr.inside hn.1, hn.2⟩

theorem expressionStatement_finishes (hc : Inside ts c) :
    Ensures (fun n d => Inside ts d ∧ n.IfFree) (expressionStatement deep c) :=
  ReadsAs.ifFree (expressionStatement_reads hd.sound) rfl hc

theorem declarationOr_finishes {p : Parse Node} (hc : Inside ts c)
    (hp : Ensures (fun n d => Inside ts d ∧ n.Settled ts) (p c)) :
    Ensures (fun n d => Inside ts d ∧ n.Settled ts) (declarationOr deep p c) := by
  have decl : Ensures (fun n d => Inside ts d ∧ n.Settled ts) (declaration deep c) :=
    (ReadsAs.ifFree (declaration_reads hd.sound) rfl hc).mono fun h => ⟨h.1, h.2.settled⟩
  refine .ahead ?_
  split
  · exact .either decl hp
  · exact hp

theorem compound_finishes (hc : Inside ts c) :
    Ensures (fun n d => Inside ts d ∧ Finished ts n d) (compound deep c) := by
  refine .expect hc.ended (by decide) fun hl => ?_
  have items {c : Cursor} (hc : Inside ts c) :
      Ensures (fun n d => Inside ts d ∧ n.Settled ts) (declarationOr deep deep.statement c) :=
    declarationOr_finishes hd hc <|
      (body_finishes hd hc).mono fun h => ⟨h.1.inside hc, h.2.settled⟩
  have all := Ensures.manyUntil (k := .rBrace) (P := Inside ts) (Q := Node.Settled ts) items
    (hl.inside hc)
  refine .bind all fun hs => ?_
  refine .expect hs.1.ended (by decide) fun hr => .pure ⟨hr.inside hs.1, .of_isIf rfl rfl ?_⟩
  rw [Shape.children, Node.getD_nonempty?]
  exact hs.2

theorem ifStatementUpTo_finishes (i : Nat) (hc : Inside ts c) (hk : c.peek.kind = .kwIf) :
    Ensures (Finished ts) (ifStatementUpTo deep i c) := by
  induction i generalizing c with
  | zero => exact hd.statement hc
  | succ i ih =>
    suffices Ensures (fun n d => Spanned c n d → Finished ts n d)
        (ifStatementUpTo deep (i + 1) c) from
      fun _ _ hr => this hr (ifStatementUpTo_spans hd.covering (i + 1) hc.ended hk hr)
    refine .advance hc.ended (by simp [hk]) fun ht => ?_
    refine .bind (condition_ifFree hd (ht.inside hc)) fun he => ?_
    refine .bind (body_finishes hd he.1) fun hy => ?_
    have inside := hy.1.inside he.1
    refine .eat_kind inside.ended (by decide) (fun hk ht => .check ?_) fun hk => .pure fun hs => ?_
    · split
      next hif =>
        refine .bind_map (ih (ht.inside inside) (eq_of_beq hif)) fun hm => .pure fun _ => ?_
        exact .ifElse he.2 hy.2.settled (hy.2.next hk) hm
      next =>
        refine .bind_map (hd.statement (ht.inside inside)) fun hm => .pure fun _ => ?_
        exact .ifElse he.2 hy.2.settled (hy.2.next hk) hm
    · exact .ifOpen he.2 hy.2.settled hc hs hk

theorem forStatement_finishes (hc : Inside ts c) (hk : c.peek.kind = .kwFor) :
    Ensures (Finished ts) (forStatement deep c) := by
  refine .advance hc.ended (by simp [hk]) fun ht => ?_
  refine .expect ht.after (by decide) fun hl => ?_
  have init : ReadsAs (declarationOr deep (expressionStatement deep)) .forInit :=
    declarationOr_reads hd.sound (expressionStatement_reads hd.sound) .initDeclaration
      .initStatement
  refine .bind (init.ifFree rfl (hl.inside (ht.inside hc))) fun hi => ?_
  refine .bind (expressionStatement_finishes hd hi.1) fun hn => ?_
  refine .before (expression_reads hd.sound) hn.1.ended fun {o _} ho => ?_
  refine .expect ho.after (by decide) fun hr => ?_
  refine .bind (hd.statement (hr.inside (ho.inside hn.1))) fun hm => .pure ?_
  refine hm.around _ rfl rfl rfl (List.forall_mem_append.mpr ⟨?_, ho.ifFree rfl⟩)
  exact List.forall_mem_cons.mpr ⟨hi.2, List.forall_mem_singleton.mpr hn.2⟩

omit hd in
theorem jump_finishes (hc : Inside ts c) (hk : c.peek.kind ≠ .eof) (hs : s.isIf = false)
    (hl : ∀ sp, Node.lastPart? ⟨sp, s⟩ = none) (hn : s.children = []) :
    Ensures (Finished ts) (jump s c) := by
  refine .advance hc.ended hk fun ht => .expect ht.after (by decide) fun _ => .pure ?_
  refine .of_isIf hs (hl _) ?_
  rw [hn]
  exact List.forall_mem_nil _

theorem statement_finishes (hc : Inside ts c) : Ensures (Finished ts) (statement deep c) := by
  have plain : Ensures (Finished ts) (expressionStatement deep c) :=
    (expressionStatement_finishes hd hc).mono fun h => ⟨h.2.settled, fun _ => h.2.not_endsOpen⟩
  refine .peekKind fun k hk => ?_
  split
  case h_1 =>
    refine .ahead ?_
    split
    · refine .advance hc.ended (by simp [hk]) fun ht => .expect ht.after (by decide) fun hq => ?_
      refine .bind (hd.statement (hq.inside (ht.inside hc))) fun hn => .pure ?_
      exact hn.around [] rfl rfl rfl (List.forall_mem_nil _)
    · exact plain
  case h_2 =>
    refine .advance hc.ended (by simp [hk]) fun ht => ?_
    refine .bind ((conditional_reads hd.sound).ifFree rfl (ht.inside hc)) fun hn => ?_
    refine .expect hn.1.ended (by decide) fun hq => ?_
    refine .bind (hd.statement (hq.inside hn.1)) fun hm => .pure ?_
    exact hm.around [_] rfl rfl rfl (List.forall_mem_singleton.mpr hn.2)
  case h_3 =>
    refine .advance hc.ended (by simp [hk]) fun ht => .expect ht.after (by decide) fun hq => ?_
    refine .bind (hd.statement (hq.inside (ht.inside hc))) fun hn => .pure ?_
    exact hn.around [] rfl rfl rfl (List.forall_mem_nil _)
  case h_4 => exact (compound_finishes hd hc).mono And.right
  case h_5 => exact .ahead (ifStatementUpTo_finishes hd _ hc hk)
  case h_6 | h_7 =>
    refine .advance hc.ended (by simp [hk]) fun ht => ?_
    refine .bind (condition_ifFree hd (ht.inside hc)) fun hn => ?_
    refine .bind (hd.statement hn.1) fun hm => .pure ?_
    exact hm.around [_] rfl rfl rfl (List.forall_mem_singleton.mpr hn.2)
  case h_8 =>
    refine .advance hc.ended (by simp [hk]) fun ht => ?_
    refine .bind (body_finishes hd (ht.inside hc)) fun hb => ?_
    refine .expect hb.1.after (by decide) fun hw => ?_
    have inside := hw.inside (hb.1.inside (ht.inside hc))
    refine .bind (condition_ifFree hd inside) fun hn => ?_
    refine .expect hn.1.ended (by decide) fun _ => .pure ?_
    refine .of_isIf rfl rfl (List.forall_mem_cons.mpr ⟨hb.2.settled, ?_⟩)
    exact List.forall_mem_singleton.mpr hn.2.settled
  case h_9 => exact forStatement_finishes hd hc hk
  case h_10 =>
    refine .advance hc.ended (by simp [hk]) fun ht => .expect ht.after (by decide) fun hn => ?_
    refine .expect hn.after (by decide) fun _ => .pure ?_
    exact .of_isIf rfl rfl (List.forall_mem_nil _)
  case h_11 | h_12 => exact jump_finishes hc (by simp [hk]) rfl (fun _ => rfl) rfl
  case h_13 =>
    refine .advance hc.ended (by simp [hk]) fun ht => ?_
    refine .before (expression_reads hd.sound) ht.after fun ho => ?_
    refine .expect ho.after (by decide) fun _ => .pure ?_
    exact .of_isIf rfl rfl fun e he => (ho.ifFree rfl e he).settled
  case h_14 => exact plain

theorem functionDefinition_finishes {o : Option Node} (hc : Inside ts c)
    (ho : ∀ e ∈ o.toList, e.IfFree) :
    Ensures (fun n d => Inside ts d ∧ n.Settled ts) (functionDefinition deep o c) := by
  refine .bind (hd.sound.declarator.ifFree rfl hc) fun {a _} ha => ?_
  split
  · refine .bind (Ensures.many (P := Inside ts) (Q := Node.IfFree) (fun {c} hc => ?_) ha.1)
      fun {ns _} hs => ?_
    · refine .check ?_
      split
      · exact .pure ⟨hc, nofun⟩
      · refine .bind ((declaration_reads hd.sound).ifFree rfl hc) fun h => .pure ⟨h.1, ?_⟩
        rintro _ ⟨⟩
        exact h.2
    · refine .bind (compound_finishes hd hs.1) fun {body _} hb => .pure ⟨hb.1, .of_isIf rfl ?_⟩
      have header := (Node.every_header_iff Node.lenient_isIf).mpr ha.2
      intro e he
      simp only [Shape.children, List.mem_append, List.mem_singleton] at he
      obtain (((he | rfl) | he) | he) | rfl := he
      · exact (ho e he).settled
      · exact Node.IfFree.settled header.1
      · exact Node.IfFree.settled (header.2 e he)
      · exact (hs.2 e he).settled
      · exact hb.2.settled
  · exact .fail _

theorem externalDeclaration_finishes (hc : Inside ts c) :
    Ensures (fun n d => Inside ts d ∧ n.Settled ts) (externalDeclaration deep c) := by
  refine .either (.either ?_ ?_) ?_
  · refine .bind ((declSpecs_reads hd.sound).ifFree rfl hc) fun {s _} hs => ?_
    exact functionDefinition_finishes hd hs.1 (List.forall_mem_singleton.mpr hs.2)
  · exact ((declaration_reads hd.sound).ifFree rfl hc).mono fun h => ⟨h.1, h.2.settled⟩
  · exact functionDefinition_finishes hd hc (List.forall_mem_nil _)

theorem sourceFile_finishes (hc : Inside ts c) :
    Ensures (fun n _ => n.Settled ts) (sourceFile deep c) := by
  refine .bind (Ensures.many (P := Inside ts) (Q := Node.Settled ts) (fun {c} hc => ?_) hc) ?_
  · refine .atEnd ?_
    split
    · exact .pure ⟨hc, nofun⟩
    · refine .bind (externalDeclaration_finishes hd hc) fun h => .pure ⟨h.1, ?_⟩
      rintro _ ⟨⟩
      exact h.2
  · intro ns d hs
    rw [bind_of_ok (peek_apply d)]
    exact .pure (.of_isIf rfl hs.2)

end Grammar

namespace Nested.Finishing

theorem refused (ts : List Token) (limit : Nat) : (Nested.refused limit).Finishing ts :=
  ⟨.refused limit, .refused limit, fun _ _ _ h => nomatch h⟩

theorem around (hd : deep.Finishing ts) : deep.around.Finishing ts :=
  ⟨hd.sound.around, hd.covering.around, Grammar.statement_finishes hd⟩

theorem levels (ts : List Token) (limit k : Nat) : (Nested.levels limit k).Finishing ts := by
  induction k with
  | zero => exact refused ts limit
  | succ k ih => exact ih.around

end Nested.Finishing

theorem TokenStream.settled_of_parse {s : TokenStream} {limit : Nat} (h : s.parse limit = .ok n) :
    n.Settled s.tokens := by
  rw [TokenStream.parse] at h
  cases hr : Grammar.sourceFile (.levels limit limit) ⟨s.tokens, Token.eof s.finish⟩ with
  | error e => rw [hr] at h; cases h
  | ok r =>
    rw [hr] at h
    cases h
    have inside : Inside s.tokens ⟨s.tokens, Token.eof s.finish⟩ := ⟨rfl, List.suffix_rfl⟩
    exact Grammar.sourceFile_finishes (.levels s.tokens limit limit) inside hr

theorem InOrder.eq_nil {xs ys : List Token} {l : Location} (hx : InOrder (xs ++ ys))
    (hl : EndsAt xs l) (hm : EndsAt (xs ++ ys) l) : ys = [] := by
  refine List.eq_nil_iff_forall_not_mem.mpr fun v hv => ?_
  have upTo : v.lastLocation ≤ l := Spans.le_of_ends hm hx (List.mem_append_right xs hv)
  obtain ⟨us, u, rfl, rfl⟩ := hl
  have later := (List.pairwise_append.mp hx).2.2 u (by simp) v hv
  exact Location.not_le_of_lt later (Location.le_trans (Location.le_after _ _) upTo)

theorem InOrder.split_unique {xs ys us vs : List Token} {l : Location} (hx : InOrder (xs ++ ys))
    (he : xs ++ ys = us ++ vs) (hl : EndsAt xs l) (hm : EndsAt us l) : xs = us ∧ ys = vs := by
  have same : xs = us := by
    obtain ⟨zs, rfl, rfl⟩ | ⟨zs, rfl, rfl⟩ := List.append_eq_append_iff.mp he
    · rw [← List.append_assoc] at hx
      have order : InOrder (xs ++ zs) := hx.sublist (List.sublist_append_left _ _)
      rw [order.eq_nil hl hm, List.append_nil]
    · have order : InOrder (us ++ zs) := hx.sublist (List.sublist_append_left _ _)
      rw [order.eq_nil hm hl, List.append_nil]
  subst same
  exact ⟨rfl, List.append_cancel_left he⟩

/-- In a source that parses, every `else` belongs to the nearest `if` that has none yet: the first
part of an `if` with an `else` does not end in an `if` without one, and no `else` stands right
behind an `if` that has none. So any text of the same tokens, such as the one that the source is
formatted to, has the same tree, and needs no further braces for that. -/
theorem else_nearest {source : String} {o : Options} {parsed : Parsed}
    (h : parse source o = .ok parsed) : ∃ stream, tokenize source = .ok stream ∧
      (∀ n : Node, n.Within parsed.tree → n.Attached) ∧
      (∀ before t after, stream.tokens = before ++ t :: after → t.kind = .kwElse →
        ∀ n : Node, n.Within parsed.tree → n.isOpenIf = true → ¬ EndsAt before n.span.last) ∧
      ∀ text stream', tokenize text = .ok stream' →
        stream'.tokens.map Token.key = canonicalKeys stream.tokens →
        ∃ parsed', parse text o = .ok parsed' ∧ parsed'.tree.bare = parsed.tree.bare := by
  obtain ⟨stream, hs, ht, -⟩ := parse_cases h
  have settled := TokenStream.settled_of_parse ht
  refine ⟨stream, hs, fun n hn => (settled n hn).1, ?_, fun text stream' hs' hk => ?_⟩
  · intro before t after hx hk n hn ho he
    obtain ⟨us, vs, hu, hl, hv⟩ := (settled n hn).2 ho
    have order := inOrder_of_tokenize hs
    rw [hu] at order
    obtain ⟨-, rfl⟩ := order.split_unique (hu.symm.trans hx) hl he
    exact hv t rfl hk
  · obtain ⟨n', hn', hb⟩ := TokenStream.parse_of_canonicalKeys ht hk
    exact ⟨_, parse_of_ok hs' hn', hb⟩

/-- The first `else` belongs to the second `if` and the other one to the first. -/
theorem else_nearest_ladder : ∃ parsed,
    parse "int f() \x7b if (a) while (b) if (c) x(); else y(); else if (d) z(); \x7d" {} =
      .ok parsed ∧ ∀ n : Node, n.Within parsed.tree → n.Attached := by
  let source := "int f() \x7b if (a) while (b) if (c) x(); else y(); else if (d) z(); \x7d"
  obtain ⟨parsed, h, -⟩ := exists_ok_of_any (x := parse source {}) (p := fun _ => true)
    (by decide +kernel)
  obtain ⟨-, -, attached, -⟩ := else_nearest h
  exact ⟨parsed, h, attached⟩

end CPretty
