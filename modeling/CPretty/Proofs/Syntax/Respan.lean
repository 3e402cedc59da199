import CPretty.Proofs.Syntax.Printed.SourceFile

namespace CPretty

namespace Shape

variable {α β : Type}

/-- The form with each child replaced. -/
def map (f : α → β) : Shape α → Shape β
  | .root decls => .root (decls.map f)
  | .func specs name params decls body =>
    .func (specs.map f) (f name) (params.map (List.map f)) (decls.map f) (f body)
  | .decl specs inits => .decl (f specs) (inits.map (List.map f))
  | .declSpecs specs => .declSpecs (specs.map f)
  | .initDecl d init => .initDecl (f d) (init.map f)
  | .keyword text => .keyword text
  | .atomic name => .atomic (f name)
  | .specQuals quals => .specQuals (quals.map f)
  | .staticAssert cond message => .staticAssert (f cond) message
  | .struct kw name members => .struct kw name (members.map (List.map f))
  | .member quals decls => .member (f quals) (decls.map f)
  | .bitfield d width => .bitfield (d.map f) (f width)
  | .enum name enumerators => .enum name (enumerators.map (List.map f))
  | .enumerator name value => .enumerator name (value.map f)
  | .initList items => .initList (items.map f)
  | .typeName quals d => .typeName (f quals) (f d)
  | .pointer quals d => .pointer (quals.map f) (d.map f)
  | .array d size => .array (d.map f) (size.map f)
  | .function d params => .function (d.map f) (params.map (List.map f))
  | .nested d => .nested (f d)
  | .param specs d => .param (f specs) (d.map f)
  | .ellipsis => .ellipsis
  | .binary lhs op rhs => .binary (f lhs) op (f rhs)
  | .unary op operand inParens => .unary op (f operand) inParens
  | .postUnary operand op => .postUnary (f operand) op
  | .assign lhs op rhs => .assign (f lhs) op (f rhs)
  | .ternary cond yes no => .ternary (f cond) (f yes) (f no)
  | .call callee args => .call (f callee) (args.map (List.map f))
  | .cast type operand => .cast (f type) (f operand)
  | .field object op name => .field (f object) op name
  | .index object place => .index (f object) (f place)
  | .parens inner => .parens (f inner)
  | .ident name => .ident name
  | .const text => .const text
  | .exprs items => .exprs (items.map f)
  | .compound items => .compound (items.map (List.map f))
  | .exprStmt expr => .exprStmt (expr.map f)
  | .ifStmt cond yes no => .ifStmt (f cond) (f yes) (no.map f)
  | .switchStmt value body => .switchStmt (f value) (f body)
  | .whileStmt cond body => .whileStmt (f cond) (f body)
  | .doStmt body cond => .doStmt (f body) (f cond)
  | .forStmt init cond step body => .forStmt (f init) (f cond) (step.map f) (f body)
  | .returnStmt value => .returnStmt (value.map f)
  | .breakStmt => .breakStmt
  | .continueStmt => .continueStmt
  | .gotoStmt label => .gotoStmt label
  | .labelStmt label body => .labelStmt label (f body)
  | .caseStmt value body => .caseStmt (f value) (f body)
  | .defaultStmt body => .defaultStmt (f body)

theorem map_congr {f g : α → β} {s : Shape α} (h : ∀ a ∈ s.children, f a = g a) :
    s.map f = s.map g := by
  have list {as : List α} (h : ∀ a ∈ as, f a = g a) : as.map f = as.map g := List.map_congr_left h
  have option {o : Option α} (h : ∀ a, o = some a → f a = g a) : o.map f = o.map g :=
    Option.map_congr h
  have lists {o : Option (List α)} (h : ∀ a ∈ o.getD [], f a = g a) :
      o.map (List.map f) = o.map (List.map g) := by
    cases o with
    | none => rfl
    | some as => exact congrArg some (list h)
  cases s <;> simp only [children, List.mem_append, List.mem_cons, List.not_mem_nil, or_false,
    Option.mem_toList] at h <;> simp only [map] <;> grind

theorem map_id (s : Shape α) : s.map id = s := by
  cases s <;> simp [map]

end Shape

def Unsupported.respan (f : Span → Span) (e : Unsupported) : Unsupported := ⟨e.tag, f e.span⟩

namespace Node

variable {f g : Span → Span} {n m : Node}

theorem sizeOf_lt_of_mem_children {sp : Span} {s : Shape Node} (h : n ∈ s.children) :
    sizeOf n < sizeOf (Node.mk sp s) := by
  have list {ns : List Node} (h : n ∈ ns) : sizeOf n < sizeOf ns := List.sizeOf_lt_of_mem h
  have option {o : Option Node} (h : o = some n) : sizeOf n < sizeOf o := by
    subst h
    simp
  have lists {o : Option (List Node)} (h : n ∈ o.getD []) : sizeOf n < sizeOf o := by
    cases o with
    | none => cases h
    | some ns =>
      have hs : sizeOf n < sizeOf ns := list h
      simp only [Option.some.sizeOf_spec]
      omega
  cases s <;> simp only [Shape.children, List.mem_append, List.mem_cons, List.not_mem_nil, or_false,
    Option.mem_toList] at h <;> grind

@[elab_as_elim]
theorem induction {P : Node → Prop}
    (mk : ∀ sp s, (∀ n ∈ Shape.children s, P n) → P ⟨sp, s⟩) (n : Node) : P n :=
  match n with
  | ⟨sp, s⟩ => mk sp s fun m _ => induction mk m
termination_by sizeOf n
decreasing_by exact sizeOf_lt_of_mem_children ‹_›

theorem fold_mk {β : Type} (f : Span → Shape β → β) (sp : Span) (s : Shape Node) :
    fold f ⟨sp, s⟩ = f sp (s.map (fold f)) := by
  have list (ns : List Node) : foldList f ns = ns.map (fold f) := by
    induction ns with
    | nil => rfl
    | cons n ns ih => rw [foldList, ih, List.map_cons]
  have option (o : Option Node) : foldOption f o = o.map (fold f) := by cases o <;> rfl
  have lists (o : Option (List Node)) : foldOptionList f o = o.map (List.map (fold f)) := by
    cases o with
    | none => rfl
    | some ns => exact congrArg some (list ns)
  cases s <;> simp only [fold, Shape.map, list, option, lists]

def respan (f : Span → Span) : Node → Node := fold fun sp s => ⟨f sp, s⟩

theorem respan_mk (f : Span → Span) (sp : Span) (s : Shape Node) :
    respan f ⟨sp, s⟩ = ⟨f sp, s.map (respan f)⟩ :=
  fold_mk _ sp s

theorem respan_id (n : Node) : respan id n = n := by
  induction n using induction with
  | mk sp s ih => rw [respan_mk, Shape.map_congr (g := id) ih, Shape.map_id, id]

theorem respan_const (n : Node) : n.respan (fun _ => default) = n.bare := rfl

@[simp] theorem span_respan : (n.respan f).span = f n.span := by
  obtain ⟨sp, s⟩ := n
  rw [respan_mk, span, span]

@[simp] theorem shape_respan : (n.respan f).shape = n.shape.map (respan f) := by
  obtain ⟨sp, s⟩ := n
  rw [respan_mk, shape, shape]

theorem declaratorGap_respan : (n.respan f).declaratorGap = n.declaratorGap := by
  rw [declaratorGap, declaratorGap, shape_respan]
  cases n.shape with
  | array d size => cases d <;> rfl
  | function d params => cases d <;> rfl
  | _ => rfl

theorem isTight_respan (op : String) : isTight op (n.respan f) = isTight op n := by
  rw [isTight, isTight, shape_respan]
  cases n.shape <;> rfl

theorem hasExpression_respan : (n.respan f).hasExpression = n.hasExpression := by
  rw [hasExpression, hasExpression, shape_respan]
  cases n.shape with
  | exprStmt e => cases e <;> rfl
  | _ => rfl

theorem mapError_bind {α β : Type} (x : Except Unsupported α) (g : α → Except Unsupported β) :
    (x >>= g).mapError (Unsupported.respan f) =
      x.mapError (Unsupported.respan f) >>= fun a => (g a).mapError (Unsupported.respan f) := by
  cases x <;> rfl

theorem mapError_pure {α : Type} (a : α) :
    (pure a : Except Unsupported α).mapError (Unsupported.respan f) = pure a := rfl

theorem innerDocs_respan {ns : List Node}
    (h : ∀ n ∈ ns, (n.respan f).innerDoc = n.innerDoc.mapError (Unsupported.respan f)) :
    innerDocs (ns.map (respan f)) = (innerDocs ns).mapError (Unsupported.respan f) := by
  induction ns with
  | nil => rfl
  | cons n ns ih =>
    simp only [List.map_cons, innerDocs, mapError_bind, mapError_pure, h n List.mem_cons_self,
      ih fun m hm => h m (List.mem_cons_of_mem n hm)]

theorem innerDoc?_respan {o : Option Node}
    (h : ∀ n, o = some n → (n.respan f).innerDoc = n.innerDoc.mapError (Unsupported.respan f)) :
    innerDoc? (o.map (respan f)) = (innerDoc? o).mapError (Unsupported.respan f) := by
  cases o with
  | none => rfl
  | some n => simp only [Option.map_some, innerDoc?, mapError_bind, mapError_pure, h n rfl]

theorem innerDocs?_respan {o : Option (List Node)}
    (h : ∀ n ∈ o.getD [], (n.respan f).innerDoc = n.innerDoc.mapError (Unsupported.respan f)) :
    innerDocs? (o.map (List.map (respan f))) =
      (innerDocs? o).mapError (Unsupported.respan f) := by
  cases o with
  | none => rfl
  | some ns =>
    have hs := innerDocs_respan h
    simp only [Option.getD_some] at hs
    simp only [Option.map_some, innerDocs?, mapError_bind, mapError_pure, hs]

theorem innerDoc_respan (n : Node) :
    (n.respan f).innerDoc = n.innerDoc.mapError (Unsupported.respan f) := by
  induction n using induction with
  | mk sp s ih =>
    rw [respan_mk]
    simp only [Shape.children] at ih
    cases s with
    | root | func => rfl
    | keyword | ellipsis | ident | const | breakStmt | continueStmt | gotoStmt => rfl
    | initDecl d o | bitfield o d | enumerator d o | exprStmt o | returnStmt o =>
      cases o <;> simp_all [-bind_pure_comp, Shape.map, innerDoc, mapError_bind, mapError_pure]
    | param specs o =>
      cases o with
      | none => simp_all [Shape.map, innerDoc]
      | some d =>
        simp_all [-bind_pure_comp, Shape.map, innerDoc, declaratorGap_respan, mapError_bind,
          mapError_pure]
    | initList items =>
      simp only [Shape.map, innerDoc, mapError_bind, innerDocs_respan ih]
      congr 1
      funext ds
      cases ds <;> rfl
    | call callee args =>
      simp only [List.mem_append, List.mem_singleton, or_imp, forall_and, forall_eq] at ih
      simp only [Shape.map, innerDoc, mapError_bind, ih.1, innerDocs?_respan ih.2]
      congr 1
      funext d
      congr 1
      funext ds
      rcases ds with _ | _ | _ <;> rfl
    | _ =>
      simp only [List.mem_append, List.mem_cons, List.not_mem_nil, or_false, or_imp, forall_and,
        forall_eq, Option.mem_toList] at ih
      simp_all [-bind_pure_comp, Shape.map, innerDoc, declaratorGap_respan, isTight_respan,
        hasExpression_respan, mapError_bind, mapError_pure, innerDocs_respan, innerDoc?_respan,
        innerDocs?_respan]

theorem isBareName_respan (n : Node) : (n.respan f).isBareName = n.isBareName := by
  fun_induction isBareName n with
  | case1 => rfl
  | case2 sp d ih => rw [respan_mk, Shape.map, isBareName, ih]
  | case3 n h₁ h₂ =>
    obtain ⟨sp, s⟩ := n
    cases s <;> simp_all [respan_mk, Shape.map, isBareName]

theorem attachParams_respan (params : Option (List Node)) (n : Node) :
    (n.attachParams params).respan f =
      (n.respan f).attachParams (params.map (List.map (respan f))) := by
  fun_induction attachParams params n with
  | case1 sp d h => simp [respan_mk, Shape.map, attachParams, isBareName_respan, h]
  | case2 sp d h ih => simp [respan_mk, Shape.map, attachParams, isBareName_respan, h, ih]
  | case3 sp quals d ih => simp [respan_mk, Shape.map, attachParams, ih]
  | case4 sp d size ih => simp [respan_mk, Shape.map, attachParams, ih]
  | case5 sp d outer ih => simp [respan_mk, Shape.map, attachParams, ih]
  | case6 sp s h₁ h₂ h₃ h₄ =>
    cases s with
    | pointer quals d => cases d <;> simp_all [respan_mk, Shape.map, attachParams]
    | array d size => cases d <;> simp_all [respan_mk, Shape.map, attachParams]
    | function d outer => cases d <;> simp_all [respan_mk, Shape.map, attachParams]
    | _ => simp_all [respan_mk, Shape.map, attachParams]

theorem outerDoc_respan (n : Node) :
    (n.respan f).outerDoc = n.outerDoc.mapError (Unsupported.respan f) := by
  obtain ⟨sp, s⟩ := n
  cases s with
  | func specs name params decls body =>
    simp only [respan_mk, Shape.map, outerDoc, headerDoc_eq, ← attachParams_respan, mapError_bind,
      mapError_pure, innerDoc_respan, innerDoc?_respan fun n _ => innerDoc_respan n,
      innerDocs_respan fun n _ => innerDoc_respan n]
  | _ => simp only [respan_mk, Shape.map, outerDoc, ← innerDoc_respan]

theorem outerDocs_respan (ns : List Node) : (ns.map (respan f)).mapM outerDoc =
    (ns.mapM outerDoc).mapError (Unsupported.respan f) := by
  induction ns with
  | nil => rfl
  | cons n ns ih =>
    simp only [List.map_cons, List.mapM_cons, mapError_bind, mapError_pure, outerDoc_respan, ih]

theorem toDoc_respan (n : Node) :
    (n.respan f).toDoc = n.toDoc.mapError (Unsupported.respan f) := by
  obtain ⟨sp, s⟩ := n
  cases s with
  | root decls =>
    cases decls with
    | nil => rfl
    | cons n ns =>
      simp only [respan_mk, Shape.map, List.map_cons, toDoc]
      rw [mapError_bind, ← outerDocs_respan]
      rfl
  | _ => simp only [respan_mk, Shape.map, toDoc, ← innerDoc_respan]

theorem toDoc_of_bare_eq {d : Doc} (h : n.bare = m.bare) (hn : n.toDoc = .ok d) :
    m.toDoc = .ok d := by
  have hd := toDoc_respan (f := fun _ => default) n
  rw [respan_const, h, ← respan_const, toDoc_respan, hn] at hd
  cases hm : m.toDoc with
  | error e => rw [hm] at hd; cases hd
  | ok d' => rw [hm] at hd; exact hd

theorem isNameOrNested_respan : (n.respan f).isNameOrNested = n.isNameOrNested := by
  rw [isNameOrNested, isNameOrNested, shape_respan]
  cases n.shape <;> rfl

theorem declaresFunction_respan (n : Node) :
    (n.respan f).declaresFunction = n.declaresFunction := by
  fun_induction declaresFunction n with
  | case1 sp quals d ih => rw [respan_mk, Shape.map, Option.map_some, declaresFunction, ih]
  | case2 => rfl
  | case3 n h₁ h₂ =>
    obtain ⟨sp, s⟩ := n
    cases s with
    | pointer quals d => cases d <;> simp_all [respan_mk, Shape.map, declaresFunction]
    | _ => simp_all [respan_mk, Shape.map, declaresFunction]

theorem detachParams?_respan (hf : ∀ a b : Span, f (a.through b) = (f a).through (f b))
    (n : Node) :
    (n.respan f).detachParams? =
      n.detachParams?.map (Prod.map (respan f) (Option.map (List.map (respan f)))) := by
  fun_induction detachParams? n with
  | case1 sp quals d ih =>
    simp only [respan_mk, Shape.map, Option.map_some, detachParams?, ih, Option.map_map]
    congr 1
    funext p
    simp [hf, respan_mk, Shape.map]
  | case2 sp d size ih =>
    simp only [respan_mk, Shape.map, Option.map_some, detachParams?, ih, Option.map_map]
    congr 1
    funext p
    simp [respan_mk, Shape.map]
  | case3 sp d ih =>
    simp only [respan_mk, Shape.map, detachParams?, ih, Option.map_map]
    congr 1
  | case4 sp d outer d' params h ih =>
    simp [respan_mk, Shape.map, detachParams?, ih, h]
  | case5 sp outer sp' name h ih =>
    simp [respan_mk, Shape.map, detachParams?]
  | case6 sp outer sp' inner h hi ih | case7 sp outer sp' inner h hi ih =>
    simp only [respan_mk, Shape.map, Option.map_some, hi, Option.map_none] at ih ⊢
    rw [detachParams?, ih]
    simp [isNameOrNested_respan, h, respan_mk, Shape.map]
  | case8 sp d outer h h₁ h₂ ih =>
    obtain ⟨sp', s⟩ := d
    rw [h, Option.map_none] at ih
    cases s with
    | ident | nested => simp_all
    | _ =>
      simp only [respan_mk, Shape.map, Option.map_some, Option.map_none] at ih ⊢
      rw [detachParams?, ih] <;> simp
  | case9 n h₁ h₂ h₃ h₄ =>
    obtain ⟨sp, s⟩ := n
    cases s with
    | pointer quals d => cases d <;> simp_all [respan_mk, Shape.map, detachParams?]
    | array d size => cases d <;> simp_all [respan_mk, Shape.map, detachParams?]
    | function d outer => cases d <;> simp_all [respan_mk, Shape.map, detachParams?]
    | _ => simp_all [respan_mk, Shape.map, detachParams?]

end Node
end CPretty
