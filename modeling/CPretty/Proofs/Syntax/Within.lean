import CPretty.Proofs.Syntax.Header

namespace CPretty.Node

/-- One node is the other or stands below it. -/
inductive Within : Node → Node → Prop
  | refl {n} : Within n n
  | child {m n c} : c ∈ n.children → Within m c → Within m n

/-- Every node of the tree is of a form with the property. -/
def Every (P : Shape Node → Prop) (n : Node) : Prop := ∀ m : Node, m.Within n → P m.shape

namespace Every

variable {P Q : Shape Node → Prop} {n : Node} {ns : List Node} {sp sp' : Span} {s s' : Shape Node}

theorem shape (h : Every P n) : P n.shape := h n .refl

theorem child {c : Node} (h : Every P n) (hc : c ∈ n.children) : Every P c :=
  fun m hm => h m (.child hc hm)

theorem mk (hs : P s) (hc : ∀ c ∈ s.children, Every P c) : Every P ⟨sp, s⟩ := by
  intro m hm
  cases hm with
  | refl => exact hs
  | child hm h => exact hc _ hm m h

theorem mk_iff : Every P ⟨sp, s⟩ ↔ P s ∧ ∀ c ∈ s.children, Every P c :=
  ⟨fun h => ⟨h.shape, fun _ hc => h.child hc⟩, fun h => .mk h.1 h.2⟩

theorem of_singleton (h : ∀ n ∈ [Node.mk sp s], Every P n) :
    P s ∧ ∀ c ∈ s.children, ∀ n ∈ [c], Every P n := by
  obtain ⟨hs, hc⟩ := mk_iff.mp (h _ List.mem_cons_self)
  exact ⟨hs, fun c hm => List.forall_mem_singleton.mpr (hc c hm)⟩

theorem imp (h : Every P n) (hPQ : ∀ s, P s → Q s) : Every Q n := fun m hm => hPQ _ (h m hm)

theorem collect {wrap : List Node → Shape Node} (h : ∀ n ∈ ns, Every P n) (hne : ns ≠ [])
    (hw : 2 ≤ ns.length → P (wrap ns)) (hc : (wrap ns).children = ns) :
    Every P (Node.collect wrap ns) := by
  obtain _ | ⟨n, _ | ⟨m, ns⟩⟩ := ns
  · exact absurd rfl hne
  · exact h n List.mem_cons_self
  · exact .mk (hw (Nat.le_add_left 2 _)) fun c hm => h c (hc ▸ hm)

theorem of_collect {wrap : List Node → Shape Node} (h : Every P (Node.collect wrap ns))
    (hc : (wrap ns).children = ns) : ∀ n ∈ ns, Every P n := by
  obtain _ | ⟨n, _ | ⟨m, ns⟩⟩ := ns
  · exact fun n hn => by cases hn
  · exact List.forall_mem_singleton.mpr h
  · exact fun n hn => h.child (hc.symm ▸ hn : n ∈ (wrap _).children)

end Every

theorem getD_nonempty? (ns : List Node) : (nonempty? ns).getD [] = ns := by
  cases ns <;> rfl

/-- The property holds of pointers, arrays, functions and declarators in parentheses. -/
structure Lenient (P : Shape Node → Prop) : Prop where
  pointer : ∀ quals decl, P (.pointer quals decl)
  array : ∀ decl size, P (.array decl size)
  function : ∀ decl params, P (.function decl params)
  nested : ∀ decl, P (.nested decl)

/-- The declarator that is left of a header and the list of parameters that it loses have the nodes
of the header. -/
theorem every_detachParams?_iff {P : Shape Node → Prop} (hP : Lenient P) {n name : Node}
    {params : Option (List Node)} (hd : n.detachParams? = some (name, params)) :
    (Every P name ∧ ∀ p ∈ params.getD [], Every P p) ↔ Every P n := by
  fun_induction detachParams? n generalizing name params with
  | case1 span quals decl ih | case2 span decl size ih | case3 span decl ih =>
    obtain ⟨⟨name', params'⟩, hd, he⟩ := Option.map_eq_some_iff.mp hd
    cases he
    have ih := ih hd
    rw [Every.mk_iff, Every.mk_iff]
    simp only [hP.pointer, hP.array, hP.nested, true_and, Shape.children]
    grind
  | case4 span decl outer name' params' hd' ih =>
    cases hd
    have ih := ih hd'
    rw [Every.mk_iff, Every.mk_iff]
    simp only [hP.function, true_and, Shape.children]
    grind
  | case5 | case6 =>
    cases hd
    rw [Every.mk_iff (s := .function _ _)]
    simp only [hP.function, true_and, Shape.children]
    grind
  | _ => cases hd

theorem every_header_iff {P : Shape Node → Prop} (hP : Lenient P) {n : Node} :
    (Every P n.header.1 ∧ ∀ p ∈ n.header.2.getD [], Every P p) ↔ Every P n := by
  rw [header]
  cases hd : n.detachParams? with
  | none => simp
  | some q => exact every_detachParams?_iff hP hd

theorem every_attachParams_iff {P : Shape Node → Prop} (hP : Lenient P) {n : Node}
    (params : Option (List Node)) :
    Every P (n.attachParams params) ↔ Every P n ∧ ∀ p ∈ params.getD [], Every P p := by
  fun_induction attachParams params n with
  | case1 | case6 =>
    simp [Every.mk_iff (s := .function _ _), hP.function, Shape.children, or_imp, forall_and]
  | case2 span decl _ ih | case3 span quals decl ih | case4 span decl size ih
  | case5 span decl outer ih =>
    rw [Every.mk_iff, Every.mk_iff]
    simp only [hP.pointer, hP.array, hP.function, hP.nested, true_and, Shape.children]
    grind

end CPretty.Node
