import CPretty.Proofs.Format.Tokens
import CPretty.Proofs.Syntax.Within

namespace CPretty

namespace Node

/-- What the pointers, suffixes and parentheses of a declarator stand around. -/
def core? : Node → Option Node
  | ⟨_, .pointer _ (some decl)⟩ => core? decl
  | ⟨_, .array (some decl) _⟩ => core? decl
  | ⟨_, .function (some decl) _⟩ => core? decl
  | ⟨_, .nested decl⟩ => core? decl
  | ⟨_, .pointer _ none⟩ | ⟨_, .array none _⟩ | ⟨_, .function none _⟩ => none
  | n => some n

def DeclaresName (n : Node) : Prop := n.core?.map tag = some "ident"

def DeclaresType (n : Node) : Prop := n.core? = none

def TakesSuffix (n : Node) : Prop := n.tag ∈ ["ident", "nested", "array", "function"]

/-- One or more parameters, with an ellipsis after the last or not. -/
def IsTypedParams (ns : List Node) : Prop :=
  ∃ ps rest, ns = ps ++ rest ∧ ps ≠ [] ∧ (∀ p ∈ ps, p.tag = "param") ∧
    (rest = [] ∨ ∃ e, rest = [e] ∧ e.shape = .ellipsis)

def IsParams (ns : List Node) : Prop :=
  (ns ≠ [] ∧ ∀ n ∈ ns, n.tag = "ident") ∨ IsTypedParams ns

end Node

namespace Shape

def withoutParams {α : Type} : Shape α → Shape α
  | .function d _ => .function d none
  | .func specs name _ decls body => .func specs name none decls body
  | s => s

/-- The lists and declarators of the form are as the grammar wants them, whatever is below them. -/
def RegularParts : Shape Node → Prop
  | .declSpecs specs => 2 ≤ specs.length
  | .specQuals quals => 2 ≤ quals.length
  | .decl _ inits => inits ≠ some []
  | .call _ args => args ≠ some []
  | .compound items => items ≠ some []
  | .array d _ => ∀ n ∈ d, n.TakesSuffix
  | .function d params => (∀ n ∈ d, n.TakesSuffix) ∧ ∀ ps ∈ params, Node.IsParams ps
  | .func _ name params _ _ => name.DeclaresName ∧ ∀ ps ∈ params, Node.IsParams ps
  | .initDecl d _ => d.DeclaresName
  | .member _ decls => ∀ d ∈ decls, d.tag = "bitfield" ∨ d.DeclaresName
  | .bitfield d _ => ∀ n ∈ d, n.DeclaresName
  | .typeName _ d => d.DeclaresType
  | .struct _ name members => name.isSome ∨ members.isSome
  | .enum name enumerators => name.isSome ∨ enumerators.isSome
  | _ => True

/-- The form is regular, and an ellipsis stands nowhere but in its parameter list. -/
def Regular (s : Shape Node) : Prop :=
  s.RegularParts ∧ ∀ c ∈ s.withoutParams.children, c.shape ≠ .ellipsis

end Shape

namespace Node

variable {n name : Node} {ns : List Node} {params : Option (List Node)}

theorem DeclaresName.shape_ne (h : n.DeclaresName) : n.shape ≠ .ellipsis := by
  obtain ⟨sp, s⟩ := n
  rintro rfl
  simp [DeclaresName, core?, tag, shape, Shape.tag] at h

theorem DeclaresType.pointer {sp : Span} {quals : List Node} {decl : Option Node}
    (h : ∀ d ∈ decl, d.DeclaresType) : DeclaresType ⟨sp, .pointer quals decl⟩ := by
  cases decl with
  | none => rfl
  | some d => exact h d rfl

theorem DeclaresType.array {sp : Span} {decl size : Option Node}
    (h : ∀ d ∈ decl, d.DeclaresType) : DeclaresType ⟨sp, .array decl size⟩ := by
  cases decl with
  | none => rfl
  | some d => exact h d rfl

theorem DeclaresType.function {sp : Span} {decl : Option Node}
    (h : ∀ d ∈ decl, d.DeclaresType) : DeclaresType ⟨sp, .function decl params⟩ := by
  cases decl with
  | none => rfl
  | some d => exact h d rfl

theorem takesSuffix_of_tag {t : String} (h : n.tag = t)
    (ht : t ∈ ["ident", "nested", "array", "function"]) : n.TakesSuffix := by
  rwa [TakesSuffix, h]

theorem IsTypedParams.last (h : n.tag = "param") : IsTypedParams [n] :=
  ⟨[n], [], rfl, by simp, by simpa using h, .inl rfl⟩

theorem IsTypedParams.ellipsis {e : Node} (h : n.tag = "param") (he : e.shape = .ellipsis) :
    IsTypedParams [n, e] :=
  ⟨[n], [e], rfl, by simp, by simpa using h, .inr ⟨e, rfl, he⟩⟩

theorem IsTypedParams.cons (h : n.tag = "param") (hs : IsTypedParams ns) :
    IsTypedParams (n :: ns) := by
  obtain ⟨ps, rest, rfl, -, hps, hrest⟩ := hs
  exact ⟨n :: ps, rest, rfl, List.cons_ne_nil n ps, List.forall_mem_cons.mpr ⟨h, hps⟩, hrest⟩

theorem nonempty?_ne (ns : List Node) : nonempty? ns ≠ some [] := by
  cases ns <;> simp [nonempty?]

theorem mem_nonempty? {ms : List Node} (h : ms ∈ nonempty? ns) : ms = ns ∧ ns ≠ [] := by
  cases ns with
  | nil => cases h
  | cons n ns =>
    cases h
    exact ⟨rfl, List.cons_ne_nil n ns⟩

/-- What is left of a regular header is regular, as is the list that it loses, and it declares a
name still. -/
theorem detachParams?_regular (h : n.Every Shape.Regular) (hn : n.DeclaresName)
    (hd : n.detachParams? = some (name, params)) :
    (name.Every Shape.Regular ∧ ∀ p ∈ params.getD [], p.Every Shape.Regular) ∧
      name.DeclaresName ∧ (n.TakesSuffix → name.TakesSuffix) ∧ ∀ ps ∈ params, IsParams ps := by
  fun_induction detachParams? n generalizing name params with
  | case1 span quals decl ih | case2 span decl size ih | case3 span decl ih =>
    obtain ⟨⟨name', params'⟩, hd, he⟩ := Option.map_eq_some_iff.mp hd
    cases he
    rw [Every.mk_iff] at h
    simp only [Shape.Regular, Shape.RegularParts, Shape.withoutParams, Shape.children] at h
    obtain ⟨⟨hname, hparams⟩, hdecl, hsuffix, hps⟩ := ih (h.2 decl (by simp)) hn hd
    refine ⟨⟨.mk ?_ ?_, hparams⟩, hdecl, ?_, hps⟩
    · simp only [Shape.Regular, Shape.RegularParts, Shape.withoutParams, Shape.children]
      grind [hdecl.shape_ne]
    · simp only [Shape.children]
      grind
    · simp [TakesSuffix, tag, shape, Shape.tag]
  | case4 span decl outer name' params' hd' ih =>
    cases hd
    rw [Every.mk_iff] at h
    simp only [Shape.Regular, Shape.RegularParts, Shape.withoutParams, Shape.children] at h
    obtain ⟨⟨hname, hparams⟩, hdecl, hsuffix, hps⟩ := ih (h.2 decl (by simp)) hn hd'
    refine ⟨⟨.mk ?_ ?_, hparams⟩, hdecl, ?_, hps⟩
    · simp only [Shape.Regular, Shape.RegularParts, Shape.withoutParams, Shape.children]
      grind [hdecl.shape_ne]
    · simp only [Shape.children]
      grind
    · simp [TakesSuffix, tag, shape, Shape.tag]
  | case5 span outer sp' text hd' ih | case6 span outer sp' inner hd' hi ih =>
    cases hd
    rw [Every.mk_iff] at h
    simp only [Shape.Regular, Shape.RegularParts, Shape.children] at h
    refine ⟨⟨h.2 _ (by simp), fun p hp => h.2 p (by simp [hp])⟩, hn, ?_, h.1.1.2⟩
    simp [TakesSuffix, tag, shape, Shape.tag]
  | _ => cases hd

theorem header_regular (h : n.Every Shape.Regular) (hn : n.DeclaresName) :
    (n.header.1.Every Shape.Regular ∧ ∀ p ∈ n.header.2.getD [], p.Every Shape.Regular) ∧
      n.header.1.DeclaresName ∧ ∀ ps ∈ n.header.2, IsParams ps := by
  rw [header]
  cases hd : n.detachParams? with
  | none => exact ⟨⟨h, List.forall_mem_nil _⟩, hn, by simp⟩
  | some q =>
    obtain ⟨hq, hname, -, hps⟩ := detachParams?_regular h hn hd
    exact ⟨hq, hname, hps⟩

end Node

def Shape.isEllipsis : Shape Node → Bool
  | .ellipsis => true
  | _ => false

/-- A node below which all is regular, and which is no ellipsis itself. -/
def Node.Plain (n : Node) : Prop := n.Every Shape.Regular ∧ n.shape ≠ .ellipsis

namespace Phrase

def isParams : Phrase → Bool
  | .params | .paramList => true
  | .commas p | .braced p | .sequence p | .optional p => p.isParams
  | _ => false

/-- What the declarators and the parameters are that a phrase is read as. -/
def Yields : Phrase → List Node → Prop
  | .commas p, ns | .braced p, ns | .sequence p, ns => ∀ n ∈ ns, p.Yields [n]
  | .optional p, ns => ns = [] ∨ p.Yields ns
  | .params, ns => Node.IsParams ns
  | .paramList, ns => Node.IsTypedParams ns
  | .name, ns => ∀ n ∈ ns, n.tag = "ident"
  | .param, ns => ∀ n ∈ ns, n.tag = "param"
  | .direct, ns => ∀ n ∈ ns, n.DeclaresName ∧ n.TakesSuffix
  | .declarator, ns => ∀ n ∈ ns, n.DeclaresName
  | .abstractDirect, ns => ∀ n ∈ ns, n.DeclaresType ∧ n.TakesSuffix
  | .pointed, ns | .abstractDeclarator, ns => ∀ n ∈ ns, n.DeclaresType
  | .memberDeclarator, ns => ∀ n ∈ ns, n.tag = "bitfield" ∨ n.DeclaresName
  | _, _ => True

/-- The nodes are regular, with an ellipsis in parameter lists only, and they are what the phrase
yields. -/
structure Regular (p : Phrase) (ns : List Node) : Prop where
  every : ∀ n ∈ ns, n.Every Shape.Regular
  shape_ne : p.isParams = false → ∀ n ∈ ns, n.shape ≠ .ellipsis
  yields : p.Yields ns

namespace Regular

variable {p q : Phrase} {n : Node} {ns : List Node} {sp : Span} {s : Shape Node}

theorem plain (h : p.Regular ns) (hp : p.isParams = false) : ∀ n ∈ ns, n.Plain :=
  fun n hn => ⟨h.every n hn, h.shape_ne hp n hn⟩

theorem node (h : p.Regular [n]) (hp : p.isParams = false) : n.Plain :=
  h.plain hp n (List.mem_singleton_self n)

theorem plain_head? (h : p.Regular ns) (hp : p.isParams = false) :
    ∀ n ∈ ns.head?.toList, n.Plain :=
  fun n hn => h.plain hp n (List.mem_of_mem_head? (Option.mem_toList.mp hn))

theorem of_plain (h : ∀ n ∈ ns, n.Plain) (hy : p.Yields ns) : p.Regular ns :=
  ⟨fun n hn => (h n hn).1, fun _ n hn => (h n hn).2, hy⟩

theorem of_isParams (he : ∀ n ∈ ns, n.Every Shape.Regular) (hp : p.isParams = true)
    (hy : p.Yields ns) : p.Regular ns :=
  ⟨he, fun h => absurd (hp.symm.trans h) (by decide), hy⟩

theorem withParams (hs : s.RegularParts) (ht : s.isEllipsis = false)
    (hc : ∀ c ∈ s.withoutParams.children, c.Plain)
    (hp : ∀ c ∈ s.children, c ∈ s.withoutParams.children ∨ c.Every Shape.Regular)
    (hy : p.Yields [⟨sp, s⟩]) : p.Regular [⟨sp, s⟩] := by
  refine of_plain (List.forall_mem_singleton.mpr ⟨.mk ⟨hs, fun c hm => (hc c hm).2⟩ ?_, ?_⟩) hy
  · intro c hm
    exact (hp c hm).elim (fun h => (hc c h).1) id
  · exact ne_of_apply_ne Shape.isEllipsis (ht ▸ Bool.false_ne_true)

theorem of_form (hs : s.RegularParts) (ht : s.isEllipsis = false) (hp : s.withoutParams = s)
    (hc : ∀ c ∈ s.children, c.Plain) (hy : p.Yields [⟨sp, s⟩]) : p.Regular [⟨sp, s⟩] :=
  withParams hs ht (hp.symm ▸ hc) (fun _ hm => .inl (hp.symm ▸ hm)) hy

theorem function {d : Option Node} (hd : ∀ n ∈ d.toList, n.Plain) (hs : ∀ n ∈ d, n.TakesSuffix)
    (hp : (Phrase.optional .params).Regular ns)
    (hy : p.Yields [⟨sp, .function d (Node.nonempty? ns)⟩]) :
    p.Regular [⟨sp, .function d (Node.nonempty? ns)⟩] := by
  refine .withParams ⟨hs, fun ps h => ?_⟩ rfl ?_ (fun c hc => ?_) hy
  · obtain ⟨rfl, hne⟩ := Node.mem_nonempty? h
    exact hp.yields.resolve_left hne
  · simpa [Shape.withoutParams, Shape.children] using hd
  · rw [Shape.children, Node.getD_nonempty?, List.mem_append] at hc
    refine hc.imp (fun h => ?_) (hp.every c)
    simpa [Shape.withoutParams, Shape.children] using h

theorem imp (h : p.Regular [n]) (hp : p.isParams = false) (hy : q.Yields [n]) : q.Regular [n] :=
  of_plain (h.plain hp) hy

/-- A list is regular if its elements are. -/
theorem list (hq : q ∈ [.commas p, .braced p, .sequence p]) :
    q.Regular ns ↔ ∀ n ∈ ns, p.Regular [n] := by
  have same : q.isParams = p.isParams := by
    simp only [List.mem_cons, List.not_mem_nil, or_false] at hq
    rcases hq with rfl | rfl | rfl <;> rfl
  have yields : q.Yields ns ↔ ∀ n ∈ ns, p.Yields [n] := by
    simp only [List.mem_cons, List.not_mem_nil, or_false] at hq
    rcases hq with rfl | rfl | rfl <;> rfl
  constructor
  · intro h n hn
    refine ⟨List.forall_mem_singleton.mpr (h.every n hn), fun hp => ?_, yields.mp h.yields n hn⟩
    exact List.forall_mem_singleton.mpr (h.shape_ne (same.trans hp) n hn)
  · intro h
    refine ⟨fun n hn => ?_, fun hp n hn => ?_, yields.mpr fun n hn => (h n hn).yields⟩
    · exact (h n hn).every n (List.mem_singleton_self n)
    · exact (h n hn).shape_ne (same.symm.trans hp) n (List.mem_singleton_self n)

theorem nil (hq : q ∈ [.commas p, .braced p, .sequence p]) : q.Regular [] :=
  (list hq).mpr (List.forall_mem_nil _)

theorem singleton (hq : q ∈ [.commas p, .braced p, .sequence p]) (h : p.Regular [n]) :
    q.Regular [n] :=
  (list hq).mpr (List.forall_mem_singleton.mpr h)

theorem cons (hq : q ∈ [.commas p, .braced p, .sequence p]) (h : p.Regular [n])
    (hs : q.Regular ns) : q.Regular (n :: ns) :=
  (list hq).mpr (List.forall_mem_cons.mpr ⟨h, (list hq).mp hs⟩)

theorem collect {wrap : List Node → Shape Node} (h : q.Regular ns) (hq : q.isParams = false)
    (hne : ns ≠ []) (hw : 2 ≤ ns.length → (wrap ns).RegularParts)
    (ht : (wrap ns).isEllipsis = false) (hp : (wrap ns).withoutParams = wrap ns)
    (hc : (wrap ns).children = ns)
    (hy : p.Yields [Node.collect wrap ns]) : p.Regular [Node.collect wrap ns] := by
  obtain _ | ⟨n, _ | ⟨m, ns⟩⟩ := ns
  · exact absurd rfl hne
  · exact h.imp hq hy
  · refine .of_form (hw (Nat.le_add_left 2 _)) ht hp ?_ hy
    rw [hc]
    exact h.plain hq

end Regular

end Phrase

/-- The nodes that tokens are read as are regular, and they are what the phrase yields. -/
theorem Derives.regular {p : Phrase} {xs : List Token} {ns : List Node} (h : Derives p xs ns) :
    p.Regular ns := by
  induction h with
  -- Lists
  | one _ ih => exact .singleton (.head _) ih
  | more _ _ _ ih₁ ih₂ => exact .cons (.head _) ih₁ ih₂
  | bracedNil => exact .nil (.tail _ (.head _))
  | bracedLast _ ih => exact .singleton (.tail _ (.head _)) ih
  | bracedMore _ _ _ ih₁ ih₂ => exact .cons (.tail _ (.head _)) ih₁ ih₂
  | sequenceNil => exact .nil (.tail _ (.tail _ (.head _)))
  | sequenceMore _ _ ih₁ ih₂ => exact .cons (.tail _ (.tail _ (.head _))) ih₁ ih₂
  | absent => exact ⟨List.forall_mem_nil _, fun _ => List.forall_mem_nil _, .inl rfl⟩
  | present _ ih => exact ⟨ih.every, ih.shape_ne, .inr ih.yields⟩
  | expression h ih =>
    exact ih.collect rfl h.commas_ne_nil (fun _ => trivial) rfl rfl rfl trivial
  | declSpecs _ hne ih | specQuals _ hne ih => exact ih.collect rfl hne id rfl rfl rfl trivial
  | call _ _ _ _ ih₁ ih₂ =>
    refine .of_form (Node.nonempty?_ne _) rfl rfl ?_ trivial
    rw [Shape.children, Node.getD_nonempty?]
    exact List.forall_mem_cons.mpr ⟨ih₁.node rfl, ih₂.plain rfl⟩
  -- Types
  | enumName | structName => exact .of_form (.inl rfl) rfl rfl (List.forall_mem_nil _) trivial
  | enumBody _ _ _ _ _ ih => exact .of_form (.inr rfl) rfl rfl (ih.plain rfl) trivial
  | structBody _ _ _ _ _ ih => exact .of_form (.inr rfl) rfl rfl (ih.plain rfl) trivial
  | typeName _ _ ih₁ ih₂ =>
    refine .of_form (ih₂.yields _ (.head _)) rfl rfl ?_ trivial
    exact List.forall_mem_cons.mpr ⟨ih₁.node rfl, ih₂.plain rfl⟩
  -- Declarators
  | name =>
    exact .of_form trivial rfl rfl (List.forall_mem_nil _) (List.forall_mem_singleton.mpr rfl)
  | directName =>
    refine .of_form trivial rfl rfl (List.forall_mem_nil _)
      (List.forall_mem_singleton.mpr ⟨rfl, ?_⟩)
    exact Node.takesSuffix_of_tag (t := "ident") rfl (by decide)
  | @directNested _ _ d _ _ _ _ _ ih =>
    refine .of_form trivial rfl rfl (ih.plain rfl) (List.forall_mem_singleton.mpr ⟨?_, ?_⟩)
    · exact ih.yields d (List.mem_singleton_self d)
    · exact Node.takesSuffix_of_tag (t := "nested") rfl (by decide)
  | array _ _ _ _ ih₁ ih₂ =>
    obtain ⟨hname, hsuffix⟩ := ih₁.yields _ (List.mem_singleton_self _)
    refine .of_form (by rintro _ ⟨⟩; exact hsuffix) rfl rfl ?_
      (List.forall_mem_singleton.mpr ⟨hname, ?_⟩)
    · exact List.forall_mem_cons.mpr ⟨ih₁.node rfl, ih₂.plain_head? rfl⟩
    · exact Node.takesSuffix_of_tag (t := "array") rfl (by decide)
  | function _ _ _ _ ih₁ ih₂ =>
    obtain ⟨hname, hsuffix⟩ := ih₁.yields _ (List.mem_singleton_self _)
    refine .function (ih₁.plain rfl) (by rintro _ ⟨⟩; exact hsuffix) ih₂
      (List.forall_mem_singleton.mpr ⟨hname, ?_⟩)
    exact Node.takesSuffix_of_tag (t := "function") rfl (by decide)
  | ofDirect _ ih => exact ih.imp rfl fun n hn => (ih.yields n hn).1
  | @pointer _ _ _ _ d _ _ _ _ ih₁ ih₂ =>
    refine .of_form trivial rfl rfl ?_ (List.forall_mem_singleton.mpr ?_)
    · exact List.forall_mem_append.mpr ⟨ih₁.plain rfl, ih₂.plain rfl⟩
    · exact ih₂.yields d (List.mem_singleton_self d)
  | abstractNone =>
    exact ⟨List.forall_mem_nil _, fun _ => List.forall_mem_nil _, List.forall_mem_nil _⟩
  | @abstractNested _ _ d _ _ _ _ _ ih =>
    refine .of_form trivial rfl rfl (ih.plain rfl) (List.forall_mem_singleton.mpr ⟨?_, ?_⟩)
    · exact ih.yields d (List.mem_singleton_self d)
    · exact Node.takesSuffix_of_tag (t := "nested") rfl (by decide)
  | abstractArray _ _ _ _ ih₁ ih₂ =>
    have hd := fun n h => ih₁.yields n (List.mem_of_mem_head? h)
    refine .of_form (fun n h => (hd n h).2) rfl rfl ?_ (List.forall_mem_singleton.mpr ⟨?_, ?_⟩)
    · exact List.forall_mem_append.mpr ⟨ih₁.plain_head? rfl, ih₂.plain_head? rfl⟩
    · exact .array fun n h => (hd n h).1
    · exact Node.takesSuffix_of_tag (t := "array") rfl (by decide)
  | abstractFunction _ _ _ _ ih₁ ih₂ =>
    have hd := fun n h => ih₁.yields n (List.mem_of_mem_head? h)
    refine .function (ih₁.plain_head? rfl) (fun n h => (hd n h).2) ih₂
      (List.forall_mem_singleton.mpr ⟨.function fun n h => (hd n h).1, ?_⟩)
    exact Node.takesSuffix_of_tag (t := "function") rfl (by decide)
  | ofAbstractDirect _ ih =>
    exact .of_plain (ih.plain rfl) fun n hn => (ih.yields n hn).1
  | abstractPointer _ _ _ ih₁ ih₂ =>
    refine .of_form trivial rfl rfl ?_ (List.forall_mem_singleton.mpr ?_)
    · exact List.forall_mem_append.mpr ⟨ih₁.plain rfl, ih₂.plain_head? rfl⟩
    · exact .pointer fun n h => ih₂.yields n (List.mem_of_mem_head? h)
  | abstractDeclarator _ ih => exact ih.imp rfl ih.yields
  -- Parameters
  | names h ih =>
    refine .of_isParams ih.every rfl (.inl ⟨h.commas_ne_nil, fun n hn => ?_⟩)
    exact ih.yields n hn n (List.mem_singleton_self n)
  | typedParams _ ih => exact .of_isParams ih.every rfl (.inr ih.yields)
  | lastParam _ ih =>
    exact .of_isParams ih.every rfl (.last (ih.yields _ (List.mem_singleton_self _)))
  | ellipsis _ _ _ ih =>
    refine .of_isParams ?_ rfl (.ellipsis (ih.yields _ (List.mem_singleton_self _)) rfl)
    refine List.forall_mem_cons.mpr ⟨(ih.node rfl).1, List.forall_mem_singleton.mpr ?_⟩
    exact .mk ⟨trivial, List.forall_mem_nil _⟩ (List.forall_mem_nil _)
  | moreParams _ _ _ ih₁ ih₂ =>
    refine .of_isParams (List.forall_mem_cons.mpr ⟨(ih₁.node rfl).1, ih₂.every⟩) rfl ?_
    exact .cons (ih₁.yields _ (List.mem_singleton_self _)) ih₂.yields
  | param _ _ ih₁ ih₂ =>
    refine .of_form trivial rfl rfl ?_ (List.forall_mem_singleton.mpr rfl)
    exact List.forall_mem_cons.mpr ⟨ih₁.node rfl, ih₂.plain_head? rfl⟩
  -- Declarations
  | plainMember _ ih => exact ih.imp rfl fun n hn => .inr (ih.yields n hn)
  | bitfield _ _ _ ih₁ ih₂ =>
    refine .of_form (fun n h => ?_) rfl rfl ?_ (List.forall_mem_singleton.mpr (.inl rfl))
    · have hm := List.mem_of_mem_head? h
      exact (ih₁.yields.resolve_left (List.ne_nil_of_mem hm)) n hm
    · exact List.forall_mem_append.mpr ⟨ih₁.plain_head? rfl, ih₂.plain rfl⟩
  | member _ _ _ ih₁ ih₂ =>
    refine .of_form (fun n h => ?_) rfl rfl ?_ trivial
    · have hd := ih₂.yields.resolve_left (List.ne_nil_of_mem h) n h
      exact hd n (List.mem_singleton_self n)
    · exact List.forall_mem_cons.mpr ⟨ih₁.node rfl, ih₂.plain rfl⟩
  | plainInit _ ih =>
    exact .of_form (ih.yields _ (List.mem_singleton_self _)) rfl rfl (ih.plain rfl) trivial
  | initValue _ _ _ ih₁ ih₂ =>
    refine .of_form (ih₁.yields _ (List.mem_singleton_self _)) rfl rfl ?_ trivial
    exact List.forall_mem_cons.mpr ⟨ih₁.node rfl, ih₂.plain rfl⟩
  | declaration _ _ _ ih₁ ih₂ =>
    refine .of_form (Node.nonempty?_ne _) rfl rfl ?_ trivial
    rw [Shape.children, Node.getD_nonempty?]
    exact List.forall_mem_cons.mpr ⟨ih₁.node rfl, ih₂.plain rfl⟩
  | compound _ _ _ ih =>
    refine .of_form (Node.nonempty?_ne _) rfl rfl ?_ trivial
    rw [Shape.children, Node.getD_nonempty?]
    exact ih.plain rfl
  | definition _ _ _ _ _ ih₁ ih₂ ih₃ ih₄ =>
    obtain ⟨⟨hname, hparams⟩, hdecl, hps⟩ :=
      Node.header_regular (ih₂.node rfl).1 (ih₂.yields _ (List.mem_singleton_self _))
    have hchild := ih₁.plain_head? rfl
    have hdecls := ih₃.plain rfl
    have hbody := ih₄.node rfl
    refine .withParams ⟨hdecl, hps⟩ rfl ?_ ?_ trivial
    · simp only [Shape.withoutParams, Shape.children]
      grind [Node.Plain, hdecl.shape_ne]
    · simp only [Shape.withoutParams, Shape.children]
      grind
  -- The nodes of another phrase
  | ofPrimary _ ih | ofPostfixed _ ih | ofUnary _ ih | ofOperand _ ih | tighter _ ih
  | ofBinary _ ih | ofConditional _ ih | ofRecord _ ih | ofEnumeration _ ih | ofSpecQuals _ ih
  | paramNamed _ ih | paramUnnamed _ ih | ofAssignment _ ih | itemDeclaration _ ih
  | itemStatement _ ih | ofExprStatement _ ih | ofCompound _ ih | initDeclaration _ ih
  | initStatement _ ih | ofDeclaration _ ih => exact ih.imp rfl trivial
  -- Nodes with no parts, or with the nodes of any regular phrases for parts
  | ident | constant | strings | qualifier | enumerator | word | typedefName | gotoStmt
  | continueStmt | breakStmt => exact .of_form trivial rfl rfl (List.forall_mem_nil _) trivial
  | parens _ _ _ ih | field _ _ _ ih | postUnary _ _ ih | prefixed _ _ ih | sizeofType _ _ _ _ ih
  | operator _ _ ih | enumeratorValue _ _ _ ih | atomic _ _ _ _ ih | initList _ _ _ ih
  | staticAssert _ _ _ _ _ _ _ ih | label _ _ _ ih | defaultStmt _ _ _ ih =>
    exact .of_form trivial rfl rfl (ih.plain rfl) trivial
  | exprStatement _ _ ih | returnStmt _ _ _ ih =>
    exact .of_form trivial rfl rfl (ih.plain_head? rfl) trivial
  | index _ _ _ _ ih₁ ih₂ | cast _ _ _ _ ih₁ ih₂ | binary _ _ _ _ ih₁ ih₂
  | assign _ _ _ _ ih₁ ih₂ | caseStmt _ _ _ _ ih₁ ih₂ | ifStmt _ _ _ _ _ ih₁ ih₂
  | switchStmt _ _ _ _ _ ih₁ ih₂ | whileStmt _ _ _ _ _ ih₁ ih₂ | doStmt _ _ _ _ _ _ _ ih₁ ih₂ =>
    exact .of_form trivial rfl rfl (List.forall_mem_cons.mpr ⟨ih₁.node rfl, ih₂.plain rfl⟩) trivial
  | ternary _ _ _ _ _ ih₁ ih₂ ih₃ | ifElse _ _ _ _ _ _ _ ih₁ ih₂ ih₃ =>
    have parts := List.forall_mem_cons.mpr ⟨ih₂.node rfl, ih₃.plain rfl⟩
    exact .of_form trivial rfl rfl (List.forall_mem_cons.mpr ⟨ih₁.node rfl, parts⟩) trivial
  | forStmt _ _ _ _ _ _ _ ih₁ ih₂ ih₃ ih₄ =>
    have parts := List.forall_mem_append.mpr ⟨ih₃.plain_head? rfl, ih₄.plain rfl⟩
    have front := List.forall_mem_cons.mpr ⟨ih₂.node rfl, parts⟩
    exact .of_form trivial rfl rfl (List.forall_mem_cons.mpr ⟨ih₁.node rfl, front⟩) trivial

/-- The declarations in the tree of a source that parses are in regular form. -/
theorem parse_regular {source : String} {o : Options} {parsed : Parsed}
    (h : parse source o = .ok parsed) : ∀ n, Node.Within n parsed.tree → n.shape.Regular := by
  obtain ⟨stream, -, ht, -⟩ := parse_cases h
  obtain ⟨sp, ns, hroot, hd⟩ := TokenStream.derives_of_parse ht
  have nodes := hd.regular.plain rfl
  rw [hroot]
  exact Node.Every.mk ⟨trivial, fun n hn => (nodes n hn).2⟩ fun n hn => (nodes n hn).1

/-- A list of names and one with an ellipsis, a pointer to a function, a bit-field without a name, a
type name and a function that returns a pointer. -/
theorem parse_regular_declarators : ∃ parsed,
    parse ("struct s \x7b int (*f)(int, ...), : 3; \x7d; " ++
      "const int *g(a, b) int a[2]; \x7b return (int *(*)[2])a; \x7d") {} = .ok parsed ∧
      ∀ n, Node.Within n parsed.tree → n.shape.Regular := by
  let source := "struct s \x7b int (*f)(int, ...), : 3; \x7d; " ++
    "const int *g(a, b) int a[2]; \x7b return (int *(*)[2])a; \x7d"
  obtain ⟨parsed, h, -⟩ := exists_ok_of_any (x := parse source {}) (p := fun _ => true)
    (by decide +kernel)
  exact ⟨parsed, h, parse_regular h⟩

end CPretty
