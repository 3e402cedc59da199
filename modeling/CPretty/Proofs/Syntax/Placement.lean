import CPretty.Proofs.Syntax.Bare

namespace CPretty

def Shape.isInner {α : Type} : Shape α → Bool
  | .root .. | .func .. => false
  | _ => true

namespace Node

/-- The node at a path, which names at each step the number of a child. -/
def at? : List Nat → Node → Option Node
  | [], n => some n
  | i :: path, n => n.children[i]?.bind (at? path)

/-- Every root in the tree is the tree itself, and every function definition is one of the
declarations of such a root. -/
structure WellPlaced (n : Node) : Prop where
  root : ∀ path m, n.at? path = some m → m.tag = "root" → path = []
  func : ∀ path m, n.at? path = some m → m.tag = "func" → n.tag = "root" ∧ ∃ i, path = [i]

/-- Neither a root nor a function definition stands anywhere in the tree. -/
abbrev AllInner (n : Node) : Prop := Every (fun s => s.isInner = true) n

variable {n : Node} {ns : List Node} {sp : Span} {s : Shape Node} {path : List Nat}

section

variable {ε α β : Type} {x : Except ε α}

theorem exists_ok_bind {f : α → Except ε β} :
    (∃ b, (x >>= f) = .ok b) ↔ ∃ a, x = .ok a ∧ ∃ b, f a = .ok b := by
  cases x <;> simp [bind, Except.bind]

theorem exists_ok_bind_total {f : α → Except ε β} (hf : ∀ a, ∃ b, f a = .ok b) :
    (∃ b, (x >>= f) = .ok b) ↔ ∃ a, x = .ok a := by
  rw [exists_ok_bind]
  exact exists_congr fun a => and_iff_left (hf a)

theorem exists_ok_map {f : α → β} : (∃ b, f <$> x = .ok b) ↔ ∃ a, x = .ok a := by
  cases x <;> simp [Functor.map, Except.map]

theorem exists_ok_pure {a : α} : (∃ b, (pure a : Except ε α) = .ok b) ↔ True :=
  iff_true_intro ⟨a, rfl⟩

end

def Printable (n : Node) : Prop := ∃ d, n.innerDoc = .ok d

theorem exists_innerDocs : (∃ ds, innerDocs ns = .ok ds) ↔ ∀ n ∈ ns, n.Printable := by
  induction ns with
  | nil => simp [exists_ok_pure]
  | cons n ns ih => simp [Printable, exists_ok_bind, exists_ok_map, ih]

theorem exists_innerDoc? {o : Option Node} :
    (∃ d, innerDoc? o = .ok d) ↔ ∀ n ∈ o.toList, n.Printable := by
  cases o <;> simp [Printable, exists_ok_map, exists_ok_pure]

theorem exists_innerDocs? {o : Option (List Node)} :
    (∃ ds, innerDocs? o = .ok ds) ↔ ∀ n ∈ o.getD [], n.Printable := by
  cases o <;> simp [exists_ok_map, exists_ok_pure, exists_innerDocs]

/-- A node is printed if all its children are, whatever its form. -/
theorem printable_mk_iff :
    Printable ⟨sp, s⟩ ↔ s.isInner = true ∧ ∀ c ∈ s.children, c.Printable := by
  cases s with
  | initDecl _ o | param _ o | bitfield o _ | enumerator _ o | exprStmt o | returnStmt o =>
    cases o <;> simp [Printable, Shape.isInner, Shape.children, exists_ok_bind, exists_ok_map,
      exists_ok_pure]
  | initList items =>
    rw [Printable, innerDoc, exists_ok_bind_total fun ds => by split <;> exact ⟨_, rfl⟩,
      exists_innerDocs]
    exact (and_iff_right rfl).symm
  | call callee args =>
    rw [Printable, innerDoc, exists_ok_bind]
    refine (exists_congr fun d => and_congr_right fun _ =>
      exists_ok_bind_total fun ds => by split <;> exact ⟨_, rfl⟩).trans ?_
    simp [exists_innerDocs?, Printable, Shape.isInner, Shape.children]
  | _ =>
    simp [Printable, Shape.isInner, Shape.children, exists_ok_bind, exists_ok_map, exists_ok_pure,
      exists_innerDocs, exists_innerDoc?, exists_innerDocs?, or_imp, forall_and]

theorem printable_iff : n.Printable ↔ n.AllInner := by
  induction n using induction with
  | mk sp s ih =>
    rw [printable_mk_iff, AllInner, Every.mk_iff]
    exact and_congr_right fun _ => forall₂_congr ih

theorem lenient_isInner : Lenient fun s => s.isInner = true :=
  ⟨fun _ _ => rfl, fun _ _ => rfl, fun _ _ => rfl, fun _ => rfl⟩

theorem isInner_iff : s.isInner = true ↔ s.tag ≠ "root" ∧ s.tag ≠ "func" := by
  cases s <;> simp [Shape.isInner, Shape.tag]

theorem exists_outerDoc :
    (∃ d, n.outerDoc = .ok d) ↔ n.tag ≠ "root" ∧ ∀ c ∈ n.children, c.AllInner := by
  obtain ⟨sp, s⟩ := n
  have inner (hs : s.tag ≠ "func") : Printable ⟨sp, s⟩ ↔
      s.tag ≠ "root" ∧ ∀ c ∈ s.children, c.AllInner := by
    rw [printable_iff, AllInner, Every.mk_iff, isInner_iff, and_iff_left hs]
  cases s with
  | func specs name params decls body =>
    have header : (∃ d, headerDoc params name = .ok d) ↔
        name.AllInner ∧ ∀ p ∈ params.getD [], p.AllInner := by
      rw [headerDoc_eq, ← every_attachParams_iff lenient_isInner]
      exact printable_iff
    rw [outerDoc]
    simp [Node.tag, Node.children, Node.shape, Shape.tag, Shape.children, ← printable_iff,
      Printable, exists_ok_bind, exists_ok_map, exists_innerDoc?, exists_innerDocs, header, or_imp,
      forall_and, and_assoc]
  | _ => exact inner (by simp [Shape.tag])

theorem exists_outerDocs : (∃ ds, ns.mapM outerDoc = .ok ds) ↔
    ∀ c ∈ ns, c.tag ≠ "root" ∧ ∀ m ∈ c.children, m.AllInner := by
  induction ns with
  | nil => simp [exists_ok_pure]
  | cons n ns ih => simp [exists_ok_bind, exists_ok_map, exists_outerDoc, ih]

/-- Only a root may hold function definitions, and only directly. -/
theorem exists_toDoc : (∃ d, n.toDoc = .ok d) ↔
    (n.tag = "root" ∧ ∀ c ∈ n.children, c.tag ≠ "root" ∧ ∀ m ∈ c.children, m.AllInner) ∨
      n.AllInner := by
  obtain ⟨sp, s⟩ := n
  have inner (hs : s.tag ≠ "root") : Printable ⟨sp, s⟩ ↔ (s.tag = "root" ∧
      ∀ c ∈ s.children, c.tag ≠ "root" ∧ ∀ m ∈ c.children, m.AllInner) ∨ AllInner ⟨sp, s⟩ := by
    rw [printable_iff, or_iff_right fun h => hs h.1]
  cases s with
  | root decls =>
    have not_inner : ¬ AllInner ⟨sp, .root decls⟩ := fun h => Bool.noConfusion h.shape
    rw [or_iff_left not_inner]
    cases decls with
    | nil => exact ⟨fun _ => ⟨rfl, List.forall_mem_nil _⟩, fun _ => ⟨_, rfl⟩⟩
    | cons n ns =>
      simp only [toDoc, exists_ok_bind, exists_ok_pure, and_true, exists_outerDocs]
      exact (and_iff_right rfl).symm
  | _ => exact inner (by simp [Shape.tag])

theorem within_iff_at? {m : Node} : m.Within n ↔ ∃ path, n.at? path = some m := by
  constructor
  · intro h
    induction h with
    | refl => exact ⟨[], rfl⟩
    | child hc _ ih =>
      obtain ⟨i, hi⟩ := List.getElem?_of_mem hc
      obtain ⟨path, hm⟩ := ih
      exact ⟨i :: path, by rw [at?, hi]; exact hm⟩
  · rintro ⟨path, h⟩
    induction path generalizing n with
    | nil =>
      cases h
      exact .refl
    | cons i path ih =>
      obtain ⟨c, hc, hm⟩ := Option.bind_eq_some_iff.mp h
      exact .child (List.mem_of_getElem? hc) (ih hm)

theorem allInner_iff :
    n.AllInner ↔ ∀ path m, n.at? path = some m → m.tag ≠ "root" ∧ m.tag ≠ "func" :=
  ⟨fun h path m hm => isInner_iff.mp (h m (within_iff_at?.mpr ⟨path, hm⟩)),
    fun h m hm => isInner_iff.mpr ((within_iff_at?.mp hm).elim fun path => h path m)⟩

theorem wellPlaced_iff : n.WellPlaced ↔
    (n.tag = "root" ∧ ∀ c ∈ n.children, c.tag ≠ "root" ∧ ∀ m ∈ c.children, m.AllInner) ∨
      n.AllInner := by
  constructor
  · intro h
    by_cases hn : n.tag = "root"
    · refine .inl ⟨hn, fun c hc => ?_⟩
      obtain ⟨i, hi⟩ := List.getElem?_of_mem hc
      have child {path : List Nat} {m : Node} (hm : c.at? path = some m) :
          n.at? (i :: path) = some m := by
        rw [at?, hi]
        exact hm
      refine ⟨fun hr => List.cons_ne_nil _ _ (h.root [i] c (child rfl) hr), fun m hm => ?_⟩
      obtain ⟨j, hj⟩ := List.getElem?_of_mem hm
      refine allInner_iff.mpr fun path k hk => ?_
      have below : n.at? (i :: j :: path) = some k := child (by rw [at?, hj]; exact hk)
      refine ⟨fun hr => List.cons_ne_nil _ _ (h.root _ k below hr), fun hf => ?_⟩
      obtain ⟨-, i', hi'⟩ := h.func _ k below hf
      cases hi'
    · refine .inr (allInner_iff.mpr fun path m hm => ⟨fun hr => ?_, fun hf => hn ?_⟩)
      · cases h.root path m hm hr
        cases hm
        exact hn hr
      · exact (h.func path m hm hf).1
  · rintro (⟨hn, h⟩ | h)
    · have below {path : List Nat} {m : Node} (hm : n.at? path = some m) (hp : path ≠ []) :
          m.tag ≠ "root" ∧ (m.tag = "func" → ∃ i, path = [i]) := by
        obtain ⟨i, path, rfl⟩ := List.exists_cons_of_ne_nil hp
        obtain ⟨c, hc, hm⟩ := Option.bind_eq_some_iff.mp hm
        obtain ⟨hr, hi⟩ := h c (List.mem_of_getElem? hc)
        cases path with
        | nil =>
          cases hm
          exact ⟨hr, fun _ => ⟨i, rfl⟩⟩
        | cons j path =>
          obtain ⟨k, hk, hm⟩ := Option.bind_eq_some_iff.mp hm
          have inner := allInner_iff.mp (hi k (List.mem_of_getElem? hk)) path m hm
          exact ⟨inner.1, fun hf => absurd hf inner.2⟩
      refine ⟨fun path m hm hr => ?_, fun path m hm hf => ⟨hn, ?_⟩⟩
      · exact Decidable.of_not_not fun hp => (below hm hp).1 hr
      · refine (below hm ?_).2 hf
        rintro rfl
        cases hm
        rw [hn] at hf
        exact absurd hf (by decide)
    · have h := allInner_iff.mp h
      exact ⟨fun path m hm hr => absurd hr (h path m hm).1,
        fun path m hm hf => absurd hf (h path m hm).2⟩

end Node

end CPretty
