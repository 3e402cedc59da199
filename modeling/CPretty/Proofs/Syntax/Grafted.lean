import CPretty.Proofs.Syntax.Bare
import CPretty.Proofs.Syntax.Header

namespace CPretty

namespace Node

variable {n n' m m' : Node} {params params' : Option (List Node)} {sp sp' : Span}

/-- The second declarator is the first one with a parameter list put in after its name, up to source
ranges. -/
def Grafted (params : Option (List Node)) (n n' : Node) : Prop :=
  n'.bare = (n.attachParams params).bare

theorem bare_attachParams_congr (h : n.bare = m.bare)
    (hp : params.map (List.map bare) = params'.map (List.map bare)) :
    (n.attachParams params).bare = (m.attachParams params').bare := by
  rw [← respan_const, ← respan_const, attachParams_respan, attachParams_respan, respan_const,
    respan_const, h]
  exact congrArg (attachParams · m.bare) hp

/-- What holds of two declarators holds of both with the same suffix behind them. -/
structure Suffixing (R : Node → Node → Prop) : Prop where
  array : ∀ {n n' sp sp' size}, R n n' → R ⟨sp, .array (some n) size⟩ ⟨sp', .array (some n') size⟩
  function : ∀ {n n' sp sp' ps}, R n n' →
    R ⟨sp, .function (some n) ps⟩ ⟨sp', .function (some n') ps⟩

namespace Grafted

theorem bareName (h : n.isBareName = true) : Grafted params n ⟨sp, .function (some n) params⟩ := by
  rw [Grafted, attachParams_isBareName h, bare_mk, bare_mk]

theorem nested (h : Grafted params n n') (hb : n.isBareName = false) :
    Grafted params ⟨sp, .nested n⟩ ⟨sp', .nested n'⟩ := by
  rw [Grafted] at h
  simp [Grafted, attachParams, hb, bare_mk, Shape.map, h]

theorem pointer {quals : List Node} (h : Grafted params n n') :
    Grafted params ⟨sp, .pointer quals (some n)⟩ ⟨sp', .pointer quals (some n')⟩ := by
  rw [Grafted] at h
  simp [Grafted, attachParams, bare_mk, Shape.map, h]

theorem suffixing (params : Option (List Node)) : Suffixing (Grafted params) where
  array h := by
    rw [Grafted] at h
    simp [Grafted, attachParams, bare_mk, Shape.map, h]
  function h := by
    rw [Grafted] at h
    simp [Grafted, attachParams, bare_mk, Shape.map, h]

end Grafted

/-- The second declarator is the first one without the parameter list of its name, up to source
ranges. -/
def Detached (params : Option (List Node)) (n n' : Node) : Prop :=
  ∃ name, n.detachParams? = some (name, params) ∧ n'.bare = name.bare

namespace Detached

theorem nested (h : Detached params n n') :
    Detached params ⟨sp, .nested n⟩ ⟨sp', .nested n'⟩ := by
  obtain ⟨name, hd, hb⟩ := h
  exact ⟨⟨sp, .nested name⟩, by simp [hd], by simp [bare_mk, Shape.map, hb]⟩

theorem pointer {quals : List Node} (h : Detached params n n') :
    Detached params ⟨sp, .pointer quals (some n)⟩ ⟨sp', .pointer quals (some n')⟩ := by
  obtain ⟨name, hd, hb⟩ := h
  exact ⟨⟨sp.through name.span, .pointer quals (some name)⟩, by simp [hd],
    by simp [bare_mk, Shape.map, hb]⟩

theorem suffixing (params : Option (List Node)) : Suffixing (Detached params) where
  array := by
    rintro n n' sp sp' size ⟨name, hd, hb⟩
    exact ⟨⟨sp, .array (some name) size⟩, by simp [hd], by simp [bare_mk, Shape.map, hb]⟩
  function := by
    rintro n n' sp sp' ps ⟨name, hd, hb⟩
    exact ⟨⟨sp, .function (some name) ps⟩, detachParams?_function_some hd _ _,
      by simp [bare_mk, Shape.map, hb]⟩

end Detached

/-- A list that follows a suffix does not belong to the name. -/
def Listless (n _ : Node) : Prop :=
  n.detachParams? = none ∧ n.isNameOrNested = false

theorem suffixing_listless : Suffixing Listless where
  array h := ⟨by simp [h.1], rfl⟩
  function := by
    rintro n _ _ _ ps ⟨hd, hn⟩
    refine ⟨Option.eq_none_iff_forall_ne_some.mpr fun q hq => ?_, rfl⟩
    obtain ⟨name, hs, -⟩ | ⟨-, -, -, hb | ⟨_, _, hs⟩⟩ := detachParams?_function_cases hq
    · rw [hd] at hs
      cases hs
    · rw [isBareName_isNameOrNested hb] at hn
      cases hn
    · rw [hs] at hn
      cases hn

theorem declaresFunction_bare (n : Node) : n.bare.declaresFunction = n.declaresFunction :=
  declaresFunction_respan n

theorem declaresFunction_of_bare_eq (h : n.bare = m.bare) :
    n.declaresFunction = m.declaresFunction := by
  rw [← declaresFunction_bare, h, declaresFunction_bare]

theorem declaresFunction_attachParams (h : n.declaresFunction = true) :
    (n.attachParams params).declaresFunction = true := by
  fun_induction attachParams params n with
  | case1 | case5 | case6 => rfl
  | case2 | case4 => cases h
  | case3 sp quals d ih => exact ih h

theorem detachParams?_of_bare_eq {name : Node} (h : n.bare = m.bare)
    (hm : m.detachParams? = some (name, params)) :
    ∃ name' params', n.detachParams? = some (name', params') ∧ name'.bare = name.bare ∧
      params'.map (List.map bare) = params.map (List.map bare) := by
  have hn := detachParams?_respan (f := fun _ => default) (fun _ _ => rfl) n
  rw [respan_const, h, ← respan_const, detachParams?_respan (fun _ _ => rfl), hm] at hn
  obtain ⟨⟨name', params'⟩, hd, he⟩ := Option.map_eq_some_iff.mp hn.symm
  exact ⟨name', params', hd, (Prod.mk.inj he).1, (Prod.mk.inj he).2⟩

end Node

variable {p : Phrase} {xs : List Token} {n n' : Node} {params : Option (List Node)}

/-- A list put in after the name is the one found there. -/
theorem Derives.detachParams?_attachParams (h : Derives p xs [n]) (hp : p.isDeclarator = true)
    (params : Option (List Node)) :
    ∃ m, (n.attachParams params).detachParams? = some (m, params) ∧ m.bare = n.bare := by
  generalize hns : [n] = ns at h
  induction h generalizing n with
  | directName ht =>
    cases hns
    exact ⟨_, Node.detachParams?_function rfl _ _, rfl⟩
  | @directNested l xs d r sp _ h _ ih =>
    cases hns
    by_cases hb : d.isBareName = true
    · rw [Node.attachParams, if_pos hb]
      exact ⟨_, Node.detachParams?_function (n := ⟨sp, .nested d⟩) hb _ _, rfl⟩
    · obtain ⟨m, hm, he⟩ := ih rfl rfl
      rw [Node.attachParams, if_neg hb]
      exact ⟨⟨sp, .nested m⟩, by simp [Node.detachParams?, hm],
        by rw [Node.bare_mk, Node.bare_mk, Shape.map, Shape.map, he]⟩
  | @array xs d l zs size r sp _ _ _ _ ih _ =>
    cases hns
    obtain ⟨m, hm, he⟩ := ih rfl rfl
    exact ⟨⟨sp, .array (some m) size.head?⟩, by simp [Node.attachParams, Node.detachParams?, hm],
      by simp [Node.bare_mk, Shape.map, he]⟩
  | @function xs d l zs ps r sp _ _ _ _ ih _ =>
    cases hns
    obtain ⟨m, hm, he⟩ := ih rfl rfl
    rw [Node.attachParams]
    exact ⟨_, Node.detachParams?_function_some hm _ _, by simp [Node.bare_mk, Shape.map, he]⟩
  | ofDirect _ ih => exact ih rfl hns
  | @pointer t xs qs ys d sp _ _ _ _ ih =>
    cases hns
    obtain ⟨m, hm, he⟩ := ih rfl rfl
    exact ⟨⟨sp.through m.span, .pointer qs (some m)⟩,
      by simp [Node.attachParams, Node.detachParams?, hm], by simp [Node.bare_mk, Shape.map, he]⟩
  | _ => cases hp

theorem Derives.header_of_grafted (h : Derives .declarator xs [n]) (hg : n.Grafted params n') :
    n'.header.1.bare = n.bare ∧
      n'.header.2.map (List.map Node.bare) = params.map (List.map Node.bare) ∧
      n'.keepsList = true := by
  obtain ⟨m, hm, he⟩ := h.detachParams?_attachParams rfl params
  obtain ⟨name, params', hd, hb, hp⟩ := Node.detachParams?_of_bare_eq hg hm
  have header : n'.header = (name, params') := by rw [Node.header, hd]; rfl
  refine ⟨by rw [header, hb, he], by rw [header, hp], ?_⟩
  rw [← n'.bare_header, header, Node.bare_attachParams_congr (hb.trans he) hp]
  exact hg.symm

end CPretty
