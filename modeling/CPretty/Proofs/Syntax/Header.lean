import CPretty.Proofs.Grammar.Derivation

namespace CPretty

namespace Node

@[simp] def isPointedName : Node → Bool
  | ⟨_, .pointer _ (some decl)⟩ => isPointedName decl
  | ⟨_, .ident _⟩ => true
  | _ => false

/-- A name and directly its parameter list, maybe behind pointers. -/
@[simp] def isPlainHeader : Node → Bool
  | ⟨_, .pointer _ (some decl)⟩ => isPlainHeader decl
  | ⟨_, .function (some ⟨_, .ident _⟩) _⟩ => true
  | _ => false

/-- A name, maybe in parentheses, and directly a parameter list. -/
def isNamedList : Node → Bool
  | ⟨_, .function (some decl) _⟩ => decl.isBareName
  | _ => false

/-- Whether the parameter list of the name stands where it is put back. -/
@[simp] def keepsList : Node → Bool
  | ⟨_, .pointer _ (some decl)⟩ => keepsList decl
  | ⟨_, .array (some decl) _⟩ => keepsList decl
  | ⟨_, .nested decl⟩ => !decl.isNamedList && keepsList decl
  | ⟨_, .function (some decl) _⟩ => decl.isBareName || keepsList decl
  | _ => false

theorem detachParams?_isBareName {n : Node} (h : n.isBareName = true) : n.detachParams? = none := by
  fun_induction isBareName n with
  | case1 => rfl
  | case2 span decl ih => rw [detachParams?, ih h]; rfl
  | case3 => cases h

theorem isBareName_isNameOrNested {n : Node} (h : n.isBareName = true) :
    n.isNameOrNested = true := by
  fun_cases isBareName n with
  | case1 => rfl
  | case2 => rfl
  | case3 => simp_all [isBareName]

theorem detachParams?_function {n : Node} (h : n.isBareName = true) (span : Span)
    (params : Option (List Node)) :
    detachParams? ⟨span, .function (some n) params⟩ = some (n, params) := by
  have hd := detachParams?_isBareName h
  fun_cases isBareName n with
  | case1 => simp [detachParams?]
  | case2 sp inner =>
    have hi : inner.isBareName = true := by simpa [isBareName] using h
    simp [detachParams?, detachParams?_isBareName hi, isBareName_isNameOrNested hi]
  | case3 => simp_all [isBareName]

theorem detachParams?_function_some {n name : Node} {params : Option (List Node)}
    (h : n.detachParams? = some (name, params)) (span : Span) (outer : Option (List Node)) :
    detachParams? ⟨span, .function (some n) outer⟩ =
      some (⟨span, .function (some name) outer⟩, params) := by
  unfold detachParams?
  simp [h]

/-- A list after a declarator belongs to the name in it, or it follows a declarator in which no list
was found. -/
theorem detachParams?_function_cases {n name : Node} {span : Span}
    {outer params : Option (List Node)}
    (h : detachParams? ⟨span, .function (some n) outer⟩ = some (name, params)) :
    (∃ name', n.detachParams? = some (name', params) ∧
      name = ⟨span, .function (some name') outer⟩) ∨
    (n.detachParams? = none ∧ name = n ∧ params = outer ∧
      (n.isBareName = true ∨ ∃ sp inner, n = ⟨sp, .nested inner⟩)) := by
  cases hn : n.detachParams? with
  | some q =>
    rw [detachParams?_function_some hn] at h
    cases h
    exact .inl ⟨_, rfl, rfl⟩
  | none =>
    unfold detachParams? at h
    simp only [hn] at h
    split at h
    · cases h
      exact .inr ⟨rfl, rfl, rfl, .inl rfl⟩
    · split at h
      · cases h
        exact .inr ⟨rfl, rfl, rfl, .inr ⟨_, _, rfl⟩⟩
      · cases h
    · cases h

theorem detachParams?_isSome {n : Node} (h : n.keepsList = true) :
    n.detachParams?.isSome = true := by
  fun_induction keepsList n with
  | case1 span quals decl ih => simpa [detachParams?] using ih h
  | case2 span decl size ih => simpa [detachParams?] using ih h
  | case3 span decl ih =>
    rw [Bool.and_eq_true] at h
    simpa [detachParams?] using ih h.2
  | case4 span decl outer ih =>
    rw [Bool.or_eq_true] at h
    obtain hb | hk := h
    · rw [detachParams?_function hb]
      rfl
    · obtain ⟨⟨name, params⟩, hd⟩ := Option.isSome_iff_exists.mp (ih hk)
      rw [detachParams?_function_some hd]
      rfl
  | case5 => cases h

/-- If nothing but a name is left of a header that keeps its list, the list is all that follows
it. -/
theorem isNamedList_of_isBareName {n name : Node} {params : Option (List Node)}
    (h : n.detachParams? = some (name, params)) (hn : name.isBareName = true)
    (hk : n.keepsList = true) : n.isNamedList = true := by
  fun_induction detachParams? n generalizing name params with
  | case1 span quals decl ih =>
    obtain ⟨⟨name', params'⟩, hd, he⟩ := Option.map_eq_some_iff.mp h
    cases he
    simp [isBareName] at hn
  | case2 span decl size ih =>
    obtain ⟨⟨name', params'⟩, hd, he⟩ := Option.map_eq_some_iff.mp h
    cases he
    simp [isBareName] at hn
  | case3 span decl ih =>
    obtain ⟨⟨name', params'⟩, hd, he⟩ := Option.map_eq_some_iff.mp h
    cases he
    rw [keepsList, Bool.and_eq_true] at hk
    have := ih hd (by simpa [isBareName] using hn) hk.2
    simp [this] at hk
  | case4 span decl outer name' params' hd ih =>
    cases h
    simp [isBareName] at hn
  | case5 => rfl
  | case6 span outer sp inner hi hd ih =>
    cases h
    exact hn
  | case7 => cases h
  | case8 => cases h
  | case9 => cases h

theorem isBareName_of_isNamedList {n name : Node} {params : Option (List Node)}
    (h : n.detachParams? = some (name, params)) (hn : n.isNamedList = true) :
    name.isBareName = true := by
  fun_cases isNamedList n with
  | case1 span decl outer =>
    have hb : decl.isBareName = true := hn
    rw [detachParams?_function hb] at h
    cases h
    exact hb
  | case2 => simp_all [isNamedList]

theorem keepsList_of_none {n : Node} (h : n.detachParams? = none) : n.keepsList = false := by
  refine Bool.eq_false_iff.mpr fun hk => ?_
  have := detachParams?_isSome hk
  rw [h] at this
  cases this

section

variable {n name : Node} {params : Option (List Node)} {span : Span}
  (h : n.detachParams? = some (name, params))
include h

theorem keepsList_nested (hb : name.isBareName = true) :
    keepsList ⟨span, .nested n⟩ = false := by
  rw [keepsList]
  cases hk : n.keepsList with
  | false => exact Bool.and_false _
  | true => rw [isNamedList_of_isBareName h hb hk]; rfl

theorem keepsList_nested_of_not (hb : ¬ name.isBareName = true) :
    keepsList ⟨span, .nested n⟩ = n.keepsList := by
  have hn : n.isNamedList = false :=
    Bool.eq_false_iff.mpr fun hl => hb (isBareName_of_isNamedList h hl)
  rw [keepsList, hn, Bool.not_false, Bool.true_and]

theorem keepsList_function {outer : Option (List Node)} :
    keepsList ⟨span, .function (some n) outer⟩ = n.keepsList := by
  have hb : n.isBareName = false := by
    refine Bool.eq_false_iff.mpr fun hb => ?_
    rw [detachParams?_isBareName hb] at h
    cases h
  rw [keepsList, hb, Bool.false_or]

end

theorem attachParams_isBareName {n : Node} (h : n.isBareName = true)
    (params : Option (List Node)) :
    n.attachParams params = ⟨n.span, .function (some n) params⟩ := by
  fun_cases isBareName n with
  | case1 => rfl
  | case2 sp inner =>
    have hi : inner.isBareName = true := by simpa [isBareName] using h
    simp [attachParams, hi, Node.span]
  | case3 => simp_all [isBareName]

theorem bare_attachParams_ne (params : Option (List Node)) (n : Node) :
    (n.attachParams params).bare ≠ n.bare := by
  fun_induction attachParams params n with
  | case1 span decl h => simp [bare, fold]
  | case2 span decl h ih => simpa [bare, fold] using ih
  | case3 span quals decl ih => simpa [bare, fold, foldOption] using ih
  | case4 span decl size ih => simpa [bare, fold, foldOption] using ih
  | case5 span decl outer ih => simpa [bare, fold, foldOption] using ih
  | case6 span shape h₁ h₂ h₃ h₄ =>
    cases shape with
    | function decl outer =>
      cases decl with
      | none => simp [bare, fold, foldOption]
      | some decl => exact absurd rfl (h₄ decl outer)
    | _ => simp [bare, fold]

theorem bare_attachParams {n name : Node} {params : Option (List Node)}
    (h : n.detachParams? = some (name, params)) :
    (name.attachParams params).bare = n.bare ↔ n.keepsList = true := by
  fun_induction detachParams? n generalizing name params with
  | case1 span quals decl ih =>
    obtain ⟨⟨name', params'⟩, hd, he⟩ := Option.map_eq_some_iff.mp h
    cases he
    simpa [attachParams, keepsList, bare, fold, foldOption] using ih hd
  | case2 span decl size ih =>
    obtain ⟨⟨name', params'⟩, hd, he⟩ := Option.map_eq_some_iff.mp h
    cases he
    simpa [attachParams, keepsList, bare, fold, foldOption] using ih hd
  | case3 span decl ih =>
    obtain ⟨⟨name', params'⟩, hd, he⟩ := Option.map_eq_some_iff.mp h
    cases he
    by_cases hb : name'.isBareName = true
    · have hk : keepsList ⟨span, .nested decl⟩ = false := keepsList_nested hd hb
      rw [hk]
      simp [attachParams, hb, bare, fold]
    · have hk : keepsList ⟨span, .nested decl⟩ = decl.keepsList := keepsList_nested_of_not hd hb
      rw [hk, ← ih hd]
      simp [attachParams, hb, bare, fold]
  | case4 span decl outer name' params' hd ih =>
    cases h
    rw [keepsList_function hd, ← ih hd]
    simp [attachParams, bare, fold, foldOption]
  | case5 span outer sp name' hd ih =>
    cases h
    simp [attachParams, keepsList, isBareName, bare, fold, foldOption]
  | case6 span outer sp inner hi hd ih =>
    cases h
    by_cases hb : inner.isBareName = true
    · simp [attachParams, keepsList, isBareName, hb, bare, fold, foldOption]
    · have hk : keepsList ⟨sp, .nested inner⟩ = false := keepsList_of_none hd
      simp [attachParams, hb, keepsList, isBareName, bare, fold]
      simpa [keepsList] using hk
  | case7 => cases h
  | case8 => cases h
  | case9 => cases h

theorem bare_header (n : Node) :
    (n.header.1.attachParams n.header.2).bare = n.bare ↔ n.keepsList = true := by
  rw [header]
  cases hn : n.detachParams? with
  | some q => exact bare_attachParams hn
  | none =>
    rw [keepsList_of_none hn]
    exact iff_of_false (bare_attachParams_ne none n) nofun

theorem isPlainHeader_of_detachParams? {d name : Node} {params : Option (List Node)}
    (h : d.detachParams? = some (name, params)) (hn : name.isPointedName = true) :
    d.isPlainHeader = true := by
  fun_induction detachParams? d generalizing name params with
  | case1 span quals decl ih =>
    obtain ⟨⟨name', params'⟩, hd, he⟩ := Option.map_eq_some_iff.mp h
    cases he
    exact ih hd (by simpa [isPointedName] using hn)
  | case2 span decl size ih =>
    obtain ⟨⟨name', params'⟩, hd, he⟩ := Option.map_eq_some_iff.mp h
    cases he
    simp [isPointedName] at hn
  | case3 span decl ih =>
    obtain ⟨⟨name', params'⟩, hd, he⟩ := Option.map_eq_some_iff.mp h
    cases he
    simp [isPointedName] at hn
  | case4 span decl outer name' params' hd ih =>
    cases h
    simp [isPointedName] at hn
  | case5 span outer sp name' hd ih => simp [isPlainHeader]
  | case6 span outer sp inner hi hd ih =>
    cases h
    simp [isPointedName] at hn
  | case7 => cases h
  | case8 => cases h
  | case9 => cases h

theorem isPointedName_of_isPlainHeader {d : Node} (h : d.isPlainHeader = true) :
    ∃ name params, d.detachParams? = some (name, params) ∧ name.isPointedName = true := by
  fun_induction isPlainHeader d with
  | case1 span quals decl ih =>
    obtain ⟨name, params, hd, hn⟩ := ih h
    exact ⟨_, params, by rw [detachParams?, hd]; rfl, by rw [isPointedName]; exact hn⟩
  | case2 span sp name params => exact ⟨_, params, detachParams?_function rfl span params, rfl⟩
  | case3 => cases h

theorem declaresFunction_of_isPointedName {n : Node} (h : n.isPointedName = true) :
    n.declaresFunction = false := by
  fun_induction isPointedName n with
  | case1 span quals decl ih => rw [declaresFunction]; exact ih h
  | case2 => rfl
  | case3 => cases h

/-- The declarator of a definition is plain exactly where only a name behind pointers is left when
its list is taken. -/
theorem isPointedName_header {d : Node} (h : d.declaresFunction = true) :
    d.header.1.isPointedName = true ↔ d.isPlainHeader = true := by
  constructor
  · intro hn
    rw [header] at hn
    cases hd : d.detachParams? with
    | some q =>
      rw [hd] at hn
      exact isPlainHeader_of_detachParams? hd hn
    | none =>
      rw [hd] at hn
      have hf : d.declaresFunction = false := declaresFunction_of_isPointedName hn
      rw [hf] at h
      cases h
  · intro hp
    obtain ⟨name, params, hd, hn⟩ := isPointedName_of_isPlainHeader hp
    rw [header, hd]
    exact hn

theorem keepsList_of_isPlainHeader {d : Node} (h : d.isPlainHeader = true) :
    d.keepsList = true := by
  fun_induction isPlainHeader d with
  | case1 span quals decl ih => rw [keepsList]; exact ih h
  | case2 => simp [keepsList, isBareName]
  | case3 => cases h

end Node

def Phrase.isDeclarator : Phrase → Bool
  | .direct | .declarator => true
  | _ => false

/-- The tokens of a parameter list in its parentheses. -/
inductive Listed : List Token → Option (List Node) → Prop
  | mk {l r : Token} {ys : List Token} {ps : List Node} : Token.Of .lParen l →
      Derives (.optional .params) ys ps → Token.Of .rParen r →
      Listed (l :: ys ++ [r]) (Node.nonempty? ps)

/-- The two lists agree up to some place, where each goes on with another bracket. -/
def Parting (xs ys : List Token) : Prop :=
  ∃ zs t ts u us, xs = zs ++ t :: ts ∧ ys = zs ++ u :: us ∧
    t.kind ∈ [.lParen, .rParen, .lBracket] ∧ u.kind ∈ [.lParen, .rParen, .lBracket] ∧
    t.kind ≠ u.kind

theorem Parting.around {xs ys : List Token} (h : Parting xs ys) (vs ws ws' : List Token) :
    Parting (vs ++ xs ++ ws) (vs ++ ys ++ ws') := by
  obtain ⟨zs, t, ts, u, us, rfl, rfl, ht, hu, hne⟩ := h
  exact ⟨vs ++ zs, t, ts ++ ws, u, us ++ ws', by simp, by simp, ht, hu, hne⟩

theorem Parting.symm {xs ys : List Token} (h : Parting xs ys) : Parting ys xs := by
  obtain ⟨zs, t, ts, u, us, hx, hy, ht, hu, hne⟩ := h
  exact ⟨zs, u, us, t, ts, hy, hx, hu, ht, hne.symm⟩

/-- The tokens start with a closing parenthesis or an opening bracket, as those behind a name in
parentheses do. -/
def Closing (zs : List Token) : Prop :=
  ∃ t ts, zs = t :: ts ∧ (t.kind = .rParen ∨ t.kind = .lBracket)

theorem Closing.append {zs : List Token} (h : Closing zs) (ws : List Token) :
    Closing (zs ++ ws) := by
  obtain ⟨t, ts, rfl, ht⟩ := h
  exact ⟨t, ts ++ ws, rfl, ht⟩

theorem Closing.behind {zs ws : List Token} (h : zs = [] ∨ Closing zs) (hw : Closing ws) :
    Closing (zs ++ ws) := by
  obtain rfl | h := h
  · exact hw
  · exact h.append ws

theorem Closing.parting {zs us : List Token} {params : Option (List Node)} (h : Closing zs)
    (hu : Listed us params) (xs vs : List Token) : Parting (xs ++ us ++ vs) (xs ++ zs) := by
  obtain ⟨t, ts, rfl, ht⟩ := h
  cases hu with
  | @mk l r ys _ hl _ _ =>
    refine ⟨xs, l, ys ++ [r] ++ vs, t, ts, by simp, rfl, by simp [hl], ?_, ?_⟩
    · obtain ht | ht := ht <;> simp [ht]
    · obtain ht | ht := ht <;> simp [hl, ht]

theorem perm_behind (xs us zs : List Token) : (xs ++ us ++ zs).Perm (xs ++ zs ++ us) := by
  rw [List.append_assoc, List.append_assoc]
  exact List.perm_append_comm.append_left xs

namespace Derives

variable {p : Phrase} {xs us : List Token} {n name : Node} {params : Option (List Node)}

theorem of_tokens {ys : List Token} {ns : List Node} (h : Derives p xs ns) (he : xs = ys) :
    Derives p ys ns :=
  he ▸ h

theorem listed {sp : Span} (h : Derives .direct xs [n]) (hl : Listed us params) :
    Derives .direct (xs ++ us) [⟨sp, .function (some n) params⟩] := by
  cases hl with
  | mk hl hps hr =>
    rw [← List.append_assoc]
    exact .function h hl hps hr

/-- A list put after a name that has none. Unless the name is all there is, a closing parenthesis or
an opening bracket stands behind the list. -/
theorem attach (h : Derives p xs [n]) (hp : p.isDeclarator = true) (hn : n.detachParams? = none)
    (hl : Listed us params) : ∃ ys zs, xs = ys ++ zs ∧
      Derives p (ys ++ us ++ zs) [n.attachParams params] ∧
      ((zs = [] ∧ n.declaresFunction = false ∧ (p = .direct → n.isBareName = true)) ∨
        Closing zs) := by
  generalize hns : [n] = ns at h
  induction h generalizing n with
  | @directName t sp ht =>
    cases hns
    refine ⟨[t], [], rfl, ?_, .inl ⟨rfl, rfl, fun _ => rfl⟩⟩
    rw [Node.attachParams_isBareName rfl]
    exact ((directName ht).listed hl).of_tokens (by simp)
  | @directNested l xs d r sp hl' h hr ih =>
    cases hns
    have hd : d.detachParams? = none := by simpa [Node.detachParams?] using hn
    by_cases hb : d.isBareName = true
    · refine ⟨l :: xs ++ [r], [], by simp, ?_, .inl ⟨rfl, rfl, fun _ => hb⟩⟩
      rw [Node.attachParams, if_pos hb, List.append_nil]
      exact (directNested hl' h hr).listed hl
    · obtain ⟨ys, zs, rfl, ha, hz⟩ := ih rfl hd rfl
      refine ⟨l :: ys, zs ++ [r], by simp, ?_, .inr (.behind (hz.imp_left And.left) ?_)⟩
      · rw [Node.attachParams, if_neg hb]
        exact (directNested hl' ha hr).of_tokens (by simp)
      · exact ⟨r, [], rfl, .inl hr⟩
  | @array xs d l zs size r sp h hl' hs hr ih _ =>
    cases hns
    have hd : d.detachParams? = none := by simpa [Node.detachParams?] using hn
    obtain ⟨ys, zs', rfl, ha, hz⟩ := ih rfl hd rfl
    refine ⟨ys, zs' ++ (l :: zs ++ [r]), by simp, ?_, .inr (.behind (hz.imp_left And.left) ?_)⟩
    · rw [Node.attachParams]
      exact (array ha hl' hs hr).of_tokens (by simp)
    · exact ⟨l, zs ++ [r], rfl, .inr hl'⟩
  | @function xs d l zs ps r sp h hl' hs hr ih _ =>
    cases hns
    have hd : d.detachParams? = none := by
      cases hd : d.detachParams? with
      | none => rfl
      | some q => rw [Node.detachParams?_function_some hd] at hn; cases hn
    obtain ⟨ys, zs', rfl, ha, hz⟩ := ih rfl hd rfl
    obtain ⟨-, -, hb⟩ | hz := hz
    · rw [Node.detachParams?_function (hb rfl)] at hn
      cases hn
    · refine ⟨ys, zs' ++ (l :: zs ++ [r]), by simp, ?_, .inr (hz.append _)⟩
      rw [Node.attachParams]
      exact (function ha hl' hs hr).of_tokens (by simp)
  | ofDirect h ih =>
    obtain ⟨ys, zs, rfl, ha, hz⟩ := ih rfl hn hns
    refine ⟨ys, zs, rfl, .ofDirect ha, ?_⟩
    exact hz.imp (fun hz => ⟨hz.1, hz.2.1, nofun⟩) id
  | @pointer t xs qs ys d sp ht hq h _ ih =>
    cases hns
    have hd : d.detachParams? = none := by simpa [Node.detachParams?] using hn
    obtain ⟨ys, zs, rfl, ha, hz⟩ := ih rfl hd rfl
    refine ⟨t :: xs ++ ys, zs, by simp, ?_, ?_⟩
    · rw [Node.attachParams]
      exact (pointer ht hq ha).of_tokens (by simp)
    · exact hz.imp (fun hz => ⟨hz.1, hz.2.1, nofun⟩) id
  | _ => cases hp

/-- A list found after a name, where nothing but the name in its parentheses is left without it. -/
theorem detach_isBareName (h : Derives p xs [n]) (hp : p.isDeclarator = true)
    (hn : n.detachParams? = some (name, params)) (hb : name.isBareName = true) :
    ∃ ys us zs, xs = ys ++ us ++ zs ∧ Listed us params ∧ Derives p (ys ++ zs) [name] ∧
      ∀ t ∈ zs, t.kind = .rParen := by
  generalize hns : [n] = ns at h
  induction h generalizing n name params with
  | directName =>
    cases hns
    cases hn
  | @directNested l xs d r sp hl h hr ih =>
    cases hns
    obtain ⟨⟨name', params'⟩, hd, he⟩ := Option.map_eq_some_iff.mp hn
    cases he
    obtain ⟨ys, us, zs, rfl, hu, ha, hz⟩ := ih rfl hd (by simpa [Node.isBareName] using hb) rfl
    refine ⟨l :: ys, us, zs ++ [r], by simp, hu, (directNested hl ha hr).of_tokens (by simp), ?_⟩
    simpa [or_imp, forall_and] using ⟨hz, hr⟩
  | array =>
    cases hns
    obtain ⟨⟨name', params'⟩, hd, he⟩ := Option.map_eq_some_iff.mp hn
    cases he
    simp [Node.isBareName] at hb
  | @function xs d l zs ps r sp h hl hs hr ih _ =>
    cases hns
    obtain ⟨name', -, rfl⟩ | ⟨-, rfl, rfl, -⟩ := Node.detachParams?_function_cases hn
    · simp [Node.isBareName] at hb
    · exact ⟨xs, l :: zs ++ [r], [], by simp, .mk hl hs hr, by simpa using h, by simp⟩
  | ofDirect h ih =>
    obtain ⟨ys, us, zs, rfl, hu, ha, hz⟩ := ih rfl hn hb hns
    exact ⟨ys, us, zs, rfl, hu, .ofDirect ha, hz⟩
  | pointer =>
    cases hns
    obtain ⟨⟨name', params'⟩, hd, he⟩ := Option.map_eq_some_iff.mp hn
    cases he
    simp [Node.isBareName] at hb
  | _ => cases hp

/-- A list after a bare name is taken out of the parentheses around both and put behind them. -/
theorem moved_out {l r : Token} (hl : Token.Of .lParen l) (h : Derives .declarator xs [n])
    (hr : Token.Of .rParen r) (hn : n.detachParams? = some (name, params))
    (hb : name.isBareName = true) (sp : Span) :
    ∃ ys, Derives .direct ys [Node.attachParams params ⟨sp, .nested name⟩] ∧
      Parting (l :: xs ++ [r]) ys ∧ ys.Perm (l :: xs ++ [r]) := by
  obtain ⟨ys, us, zs, rfl, hu, ha, hz⟩ := h.detach_isBareName rfl hn hb
  have closing : Closing (zs ++ [r]) := by
    cases zs with
    | nil => exact ⟨r, [], rfl, .inl hr⟩
    | cons z zs => exact ⟨z, zs ++ [r], rfl, .inl (hz z List.mem_cons_self)⟩
  refine ⟨l :: (ys ++ zs) ++ [r] ++ us, ?_, ?_, ?_⟩
  · rw [Node.attachParams, if_pos hb]
    exact (directNested hl ha hr).listed hu
  · simpa using (closing.append us).parting hu (l :: ys) (zs ++ [r])
  · simpa using (perm_behind (l :: ys) us (zs ++ [r])).symm

theorem moved_in {sp : Span} (h : Derives .direct xs [⟨sp, .nested n⟩])
    (hn : n.detachParams? = none) (hu : Listed us params) :
    ∃ ys, Derives .direct ys [⟨sp, .nested (n.attachParams params)⟩] ∧ Parting (xs ++ us) ys ∧
      ys.Perm (xs ++ us) := by
  cases h with
  | @directNested l xs _ r _ hl h hr =>
    obtain ⟨ys, zs, rfl, ha, hz⟩ := h.attach rfl hn hu
    have closing : Closing (zs ++ [r]) := .behind (hz.imp_left And.left) ⟨r, [], rfl, .inl hr⟩
    refine ⟨_, directNested hl ha hr, ?_, ?_⟩
    · simpa using ((closing.append us).parting hu (l :: ys) (zs ++ [r])).symm
    · simpa using perm_behind (l :: ys) us (zs ++ [r])

/-- Where a list is found, putting it back gives the same tokens, or other tokens that part with
them at a bracket. -/
theorem header_some (h : Derives p xs [n]) (hp : p.isDeclarator = true)
    (hn : n.detachParams? = some (name, params)) :
    (n.keepsList = true ∧ Derives p xs [name.attachParams params]) ∨
      (n.keepsList = false ∧ ∃ ys, Derives p ys [name.attachParams params] ∧ Parting xs ys ∧
        ys.Perm xs) := by
  generalize hns : [n] = ns at h
  induction h generalizing n name params with
  | directName =>
    cases hns
    cases hn
  | @directNested l xs d r sp hl h hr ih =>
    cases hns
    obtain ⟨⟨name', params'⟩, hd, he⟩ := Option.map_eq_some_iff.mp hn
    cases he
    by_cases hb : name'.isBareName = true
    · have hk : Node.keepsList ⟨sp, .nested d⟩ = false := Node.keepsList_nested hd hb
      exact .inr ⟨hk, moved_out hl h hr hd hb sp⟩
    · rw [Node.attachParams, if_neg hb, Node.keepsList_nested_of_not hd hb]
      obtain ⟨hk, ha⟩ | ⟨hk, ys, ha, hpart, hperm⟩ := ih rfl hd rfl
      · exact .inl ⟨hk, .directNested hl ha hr⟩
      · exact .inr ⟨hk, _, .directNested hl ha hr, hpart.around [l] [r] [r],
          (hperm.cons l).append_right [r]⟩
  | @array xs d l zs size r sp h hl hs hr ih _ =>
    cases hns
    obtain ⟨⟨name', params'⟩, hd, he⟩ := Option.map_eq_some_iff.mp hn
    cases he
    rw [Node.attachParams, Node.keepsList]
    obtain ⟨hk, ha⟩ | ⟨hk, ys, ha, hpart, hperm⟩ := ih rfl hd rfl
    · exact .inl ⟨hk, .array ha hl hs hr⟩
    · refine .inr ⟨hk, _, .array ha hl hs hr, ?_, (hperm.append_right _).append_right _⟩
      simpa using hpart.around [] (l :: zs ++ [r]) (l :: zs ++ [r])
  | @function xs d l zs ps r sp h hl hs hr ih _ =>
    cases hns
    obtain ⟨name', hd, rfl⟩ | ⟨hd, rfl, rfl, hb | ⟨sp', inner, rfl⟩⟩ :=
      Node.detachParams?_function_cases hn
    · -- The list of the name stands further inside.
      rw [Node.attachParams, Node.keepsList_function hd]
      obtain ⟨hk, ha⟩ | ⟨hk, ys, ha, hpart, hperm⟩ := ih rfl hd rfl
      · exact .inl ⟨hk, .function ha hl hs hr⟩
      · refine .inr ⟨hk, _, .function ha hl hs hr, ?_, (hperm.append_right _).append_right _⟩
        simpa using hpart.around [] (l :: zs ++ [r]) (l :: zs ++ [r])
    · rw [Node.attachParams_isBareName hb, Node.keepsList, hb, Bool.true_or]
      exact .inl ⟨rfl, .function h hl hs hr⟩
    · by_cases hb : inner.isBareName = true
      · have hb' : Node.isBareName ⟨sp', .nested inner⟩ = true := hb
        rw [Node.attachParams_isBareName hb', Node.keepsList, hb', Bool.true_or]
        exact .inl ⟨rfl, .function h hl hs hr⟩
      · -- More than the name stands in the parentheses, and the list is put inside them.
        have hk : Node.keepsList ⟨sp', .nested inner⟩ = false := Node.keepsList_of_none hd
        have hb' : Node.isBareName ⟨sp', .nested inner⟩ = false := Bool.eq_false_iff.mpr hb
        rw [Node.attachParams, if_neg hb, Node.keepsList, hb', hk]
        have hi : inner.detachParams? = none := by simpa [Node.detachParams?] using hd
        obtain ⟨ys, ha, hpart, hperm⟩ := h.moved_in hi (.mk hl hs hr)
        exact .inr ⟨rfl, ys, ha, by simpa using hpart, by simpa using hperm⟩
  | ofDirect h ih =>
    obtain ⟨hk, ha⟩ | ⟨hk, ys, ha, hpart, hperm⟩ := ih rfl hn hns
    · exact .inl ⟨hk, .ofDirect ha⟩
    · exact .inr ⟨hk, ys, .ofDirect ha, hpart, hperm⟩
  | @pointer t xs qs ys d sp ht hq h _ ih =>
    cases hns
    obtain ⟨⟨name', params'⟩, hd, he⟩ := Option.map_eq_some_iff.mp hn
    cases he
    rw [Node.attachParams, Node.keepsList]
    obtain ⟨hk, ha⟩ | ⟨hk, ys', ha, hpart, hperm⟩ := ih rfl hd rfl
    · exact .inl ⟨hk, .pointer ht hq ha⟩
    · refine .inr ⟨hk, _, .pointer ht hq ha, ?_, hperm.append_left _⟩
      simpa using hpart.around (t :: xs) [] []
  | _ => cases hp

/-- The parentheses that a header without a parameter list of its name is printed with. -/
def emptyList : List Token := [⟨.lParen, "(", default⟩, ⟨.rParen, ")", default⟩]

/-- Putting the list of a definition back gives the same tokens, or other tokens that part with them
at a bracket. -/
theorem header (h : Derives .declarator xs [n]) (hf : n.declaresFunction = true) :
    (n.keepsList = true ∧ Derives .declarator xs [n.header.1.attachParams n.header.2]) ∨
      (n.keepsList = false ∧ ∃ ys, Derives .declarator ys [n.header.1.attachParams n.header.2] ∧
        Parting xs ys ∧ ys ⊆ xs ++ emptyList) := by
  rw [Node.header]
  cases hn : n.detachParams? with
  | some q =>
    obtain h | ⟨hk, ys, ha, hpart, hperm⟩ := h.header_some rfl hn
    · exact .inl h
    · exact .inr ⟨hk, ys, ha, hpart, fun t ht => List.mem_append_left _ (hperm.mem_iff.mp ht)⟩
  | none =>
    have list : Listed emptyList none := .mk rfl .absent rfl
    obtain ⟨ys, zs, rfl, ha, hz⟩ := h.attach rfl hn list
    obtain ⟨-, hnf, -⟩ | hz := hz
    · rw [hnf] at hf
      cases hf
    · refine .inr ⟨Node.keepsList_of_none hn, _, ha, (hz.parting list ys zs).symm, ?_⟩
      intro t ht
      simp only [List.mem_append] at ht ⊢
      grind

end Derives

end CPretty
