import CPretty.Proofs.Syntax.Respan
import CPretty.Proofs.Syntax.Within

namespace CPretty

theorem Shape.children_map {α β : Type} (f : α → β) (s : Shape α) :
    (s.map f).children = s.children.map f := by
  have option (o : Option α) : (o.map f).toList = o.toList.map f := by cases o <;> rfl
  have lists (o : Option (List α)) : (o.map (List.map f)).getD [] = (o.getD []).map f := by
    cases o <;> rfl
  cases s <;> simp [map, children, option, lists]

theorem Shape.map_map {α β γ : Type} (f : α → β) (g : β → γ) (s : Shape α) :
    (s.map f).map g = s.map fun a => g (f a) := by
  cases s <;> simp [map, Function.comp_def]

namespace Node

variable {n : Node}

theorem bare_mk (sp : Span) (s : Shape Node) : bare ⟨sp, s⟩ = ⟨default, s.map bare⟩ :=
  fold_mk _ sp s

theorem children_bare (n : Node) : n.bare.children = n.children.map bare := by
  obtain ⟨sp, s⟩ := n
  rw [bare_mk]
  exact Shape.children_map bare s

theorem bare_of_shape_eq {m : Node} (h : n.shape = m.shape) : n.bare = m.bare := by
  obtain ⟨sp, s⟩ := n
  obtain ⟨sp', s'⟩ := m
  rw [bare_mk, bare_mk, show s = s' from h]

@[simp] theorem span_bare (n : Node) : n.bare.span = default := span_respan

theorem tag_bare (n : Node) : n.bare.tag = n.tag := by
  obtain ⟨sp, s⟩ := n
  rw [bare_mk]
  cases s <;> rfl

theorem bare_bare (n : Node) : n.bare.bare = n.bare := by
  induction n using induction with
  | mk sp s ih =>
    rw [bare_mk, bare_mk, Shape.map_map, Shape.map_congr ih]

theorem collect_bare {wrap : List Node → Shape Node} {ns : List Node} (h : 2 ≤ ns.length) :
    collect wrap (ns.map bare) = ⟨default, wrap (ns.map bare)⟩ := by
  obtain _ | ⟨n, _ | ⟨m, ns⟩⟩ := ns
  · simp at h
  · simp at h
  · have last : ((m :: ns).map bare).getLast? = ((m :: ns).getLast?).map bare := List.getLast?_map
    have span : spanOf ((n :: m :: ns).map bare) default = default := by
      rw [spanOf, List.map_cons, List.head?_cons, List.getLast?_cons, last, List.getLast?_cons]
      simp only [Option.map_some, Option.getD_some, span_bare]
      rfl
    exact congrArg (Node.mk · _) span

theorem Every.bare {P : Shape Node → Prop} (hP : ∀ s, P s → P (s.map Node.bare)) (h : Every P n) :
    Every P n.bare := by
  induction n using induction with
  | mk sp s ih =>
    rw [bare_mk]
    refine .mk (hP s h.shape) fun c hc => ?_
    rw [Shape.children_map, List.mem_map] at hc
    obtain ⟨m, hm, rfl⟩ := hc
    exact ih m hm (h.child hm)

theorem every_bare_iff {P : Shape Node → Prop} (hP : ∀ s, P (s.map Node.bare) ↔ P s) :
    Every P n.bare ↔ Every P n := by
  induction n using induction with
  | mk sp s ih =>
    rw [bare_mk, Every.mk_iff, Every.mk_iff, hP, Shape.children_map, List.forall_mem_map]
    exact and_congr_right fun _ => forall₂_congr ih

/-- The tree, and whether all its nodes are of a form that passes the test. -/
def test (p : Shape Node → Bool) : Node → Node × Bool :=
  fold fun sp s => (⟨sp, s.map Prod.fst⟩, p (s.map Prod.fst) && s.children.all Prod.snd)

theorem test_mk (p : Shape Node → Bool) (sp : Span) (s : Shape Node) :
    test p ⟨sp, s⟩ = (⟨sp, (s.map (test p)).map Prod.fst⟩,
      p ((s.map (test p)).map Prod.fst) && (s.map (test p)).children.all Prod.snd) :=
  fold_mk _ sp s

theorem test_fst (p : Shape Node → Bool) (n : Node) : (n.test p).1 = n := by
  induction n using induction with
  | mk sp s ih => rw [test_mk, Shape.map_map, Shape.map_congr (g := id) ih, Shape.map_id]

theorem test_snd (p : Shape Node → Bool) (n : Node) :
    (n.test p).2 = true ↔ n.Every fun s => p s = true := by
  induction n using induction with
  | mk sp s ih =>
    rw [test_mk, Every.mk_iff, Shape.map_map, Shape.map_congr (g := id) fun m _ => test_fst p m,
      Shape.map_id, Shape.children_map, List.all_map, Bool.and_eq_true, List.all_eq_true]
    exact and_congr_right fun _ => forall₂_congr ih

instance {P : Shape Node → Prop} [DecidablePred P] (n : Node) : Decidable (n.Every P) :=
  decidable_of_iff ((n.test fun s => decide (P s)).2 = true) <| by
    rw [test_snd]
    simp only [decide_eq_true_eq]

end Node

end CPretty
