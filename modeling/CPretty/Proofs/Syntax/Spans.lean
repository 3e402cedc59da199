import CPretty.Proofs.Syntax.Within
import CPretty.Syntax.Build

namespace CPretty

set_option autoImplicit true

def StartsAt (xs : List Token) (l : Location) : Prop := ∃ t ts, xs = t :: ts ∧ t.location = l

def EndsAt (xs : List Token) (l : Location) : Prop := ∃ ts t, xs = ts ++ [t] ∧ t.lastLocation = l

/-- Nodes one after another, each over tokens that stand in relation `R` to it. Other tokens may
stand around them. -/
inductive Parts (R : List Token → Node → Prop) : List Token → List Node → Prop
  | nil : Parts R [] []
  | token (t) : Parts R xs ns → Parts R (t :: xs) ns
  | node : R xs n → Parts R ys ns → Parts R (xs ++ ys) (n :: ns)

namespace Shape

variable {α : Type}

/-- The lists of children that stand one after another in a source. -/
def rows : Shape α → List (List α)
  | .func specs name params decls body =>
    [specs.toList ++ [name] ++ decls ++ [body], specs.toList ++ params.getD [] ++ decls ++ [body]]
  | s => [s.children]

def base? : Shape α → Option α
  | .array d _ => d
  | .function d _ => d
  | _ => none

/-- The form has the texts of the tokens: a name or a keyword that of one token, a constant those of
tokens in a row. -/
def Spells (xs : List Token) : Shape α → Prop
  | .ident text | .keyword text => ∃ t, xs = [t] ∧ text = t.text
  | .const text => text = Token.texts xs
  | _ => True

/-- Neither a function definition, a suffix nor a single word. -/
def isPlain : Shape α → Bool
  | .func .. | .array (some _) _ | .function (some _) _ | .ident _ | .keyword _ | .const _ => false
  | _ => true

end Shape

/-- The range of the node goes from the first of the tokens to the last, and the nodes of each row
of its children cover parts of them. A suffix starts where its declarator does. -/
inductive Spans : List Token → Node → Prop
  | mk (starts : StartsAt xs sp.first) (ends : EndsAt xs sp.last)
      (rows : ∀ row ∈ s.rows, Parts Spans xs row)
      (base : ∀ d ∈ s.base?, d.span.first = sp.first) (spells : s.Spells xs) : Spans xs ⟨sp, s⟩

/-- Nodes one after another, the first of which starts the tokens and the last of which ends them.
-/
inductive Row : List Token → List Node → Prop
  | nil : Row [] []
  | one : Spans xs n → Row xs [n]
  | more (zs) : Spans xs n → Row ys (m :: ns) →
      Row (xs ++ zs ++ ys) (n :: m :: ns)

variable {xs ys zs : List Token} {t : Token} {n : Node} {ns ms : List Node} {sp : Span}
  {s : Shape Node} {l m : Location}

theorem StartsAt.append (h : StartsAt xs l) (ys : List Token) : StartsAt (xs ++ ys) l := by
  obtain ⟨t, ts, rfl, ht⟩ := h
  exact ⟨t, ts ++ ys, rfl, ht⟩

theorem StartsAt.of_append (h : StartsAt (xs ++ ys) l) (hx : xs ≠ []) : StartsAt xs l := by
  obtain ⟨t, ts, rfl⟩ := List.exists_cons_of_ne_nil hx
  obtain ⟨t', ts', he, ht⟩ := h
  cases he
  exact ⟨t, ts, rfl, ht⟩

theorem StartsAt.ne_nil (h : StartsAt xs l) : xs ≠ [] := by
  obtain ⟨t, ts, rfl, -⟩ := h
  exact List.cons_ne_nil t ts

theorem EndsAt.append (h : EndsAt ys l) (xs : List Token) : EndsAt (xs ++ ys) l := by
  obtain ⟨ts, t, rfl, ht⟩ := h
  exact ⟨xs ++ ts, t, (List.append_assoc _ _ _).symm, ht⟩

theorem startsAt_singleton (t : Token) : StartsAt [t] t.span.first := ⟨t, [], rfl, rfl⟩

theorem endsAt_singleton (t : Token) : EndsAt [t] t.span.last := ⟨[], t, rfl, rfl⟩

namespace Parts

variable {R : List Token → Node → Prop}

theorem tokens (xs : List Token) : Parts R xs [] := by
  induction xs with
  | nil => exact .nil
  | cons t ts ih => exact .token t ih

theorem append (h : Parts R xs ns) (h' : Parts R ys ms) : Parts R (xs ++ ys) (ns ++ ms) := by
  induction h with
  | nil => exact h'
  | token t _ ih => exact .token t ih
  | node hn _ ih =>
    rw [List.append_assoc]
    exact .node hn ih

theorem single (h : R xs n) : Parts R xs [n] := by
  simpa using node h nil

theorem of_cons (h : Parts R xs (n :: ns)) :
    ∃ us ys zs, xs = us ++ ys ++ zs ∧ R ys n ∧ Parts R zs ns := by
  generalize he : n :: ns = ms at h
  induction h with
  | nil => cases he
  | token t _ ih =>
    obtain ⟨us, ys, zs, rfl, hn, hs⟩ := ih he
    exact ⟨t :: us, ys, zs, rfl, hn, hs⟩
  | @node xs n ys ns hn hs =>
    cases he
    exact ⟨[], xs, ys, rfl, hn, hs⟩

theorem of_append (h : Parts R xs (ns ++ ms)) :
    ∃ ys zs, xs = ys ++ zs ∧ Parts R ys ns ∧ Parts R zs ms := by
  induction ns generalizing xs with
  | nil => exact ⟨[], xs, rfl, .nil, h⟩
  | cons n ns ih =>
    obtain ⟨us, ys, zs, rfl, hn, hs⟩ := of_cons h
    obtain ⟨vs, ws, rfl, hv, hw⟩ := ih hs
    refine ⟨us ++ ys ++ vs, ws, (List.append_assoc _ _ _).symm, ?_, hw⟩
    exact ((tokens us).append (single hn)).append hv

theorem of_mem (h : Parts R xs ns) (hn : n ∈ ns) : ∃ us ys vs, xs = us ++ ys ++ vs ∧ R ys n := by
  obtain ⟨before, after, rfl⟩ := List.append_of_mem hn
  obtain ⟨ys, zs, rfl, -, hz⟩ := of_append h
  obtain ⟨us, ws, vs, rfl, hn, -⟩ := of_cons hz
  exact ⟨ys ++ us, ws, vs, by simp only [List.append_assoc], hn⟩

end Parts

namespace Shape

variable {α : Type}

theorem mem_rows_of_isPlain {s : Shape α} {row : List α} (hs : s.isPlain = true)
    (h : row ∈ s.rows) : row = s.children := by
  cases s <;> first | exact List.mem_singleton.mp h | cases hs

theorem base?_of_isPlain {s : Shape α} (hs : s.isPlain = true) : s.base? = none := by
  cases s with
  | array d _ | function d _ =>
    cases d with
    | none => rfl
    | some d => cases hs
  | _ => rfl

theorem spells_of_isPlain {s : Shape α} (hs : s.isPlain = true) (xs : List Token) :
    s.Spells xs := by
  cases s <;> trivial

theorem exists_row_of_mem {s : Shape α} {c : α} (h : c ∈ s.children) : ∃ row ∈ s.rows, c ∈ row := by
  cases s with
  | func specs name params decls body =>
    simp only [children, rows, List.mem_append, List.mem_cons, List.not_mem_nil, or_false,
      exists_eq_or_imp, exists_eq_left] at h ⊢
    grind
  | _ => exact ⟨_, List.mem_singleton.mpr rfl, h⟩

end Shape

namespace Spans

theorem starts (h : Spans xs n) : StartsAt xs n.span.first := by
  cases h
  assumption

theorem ends (h : Spans xs n) : EndsAt xs n.span.last := by
  cases h
  assumption

theorem spells (h : Spans xs n) : n.shape.Spells xs := by
  cases h
  assumption

theorem rows (h : Spans xs n) : ∀ row ∈ n.shape.rows, Parts Spans xs row := by
  cases h
  assumption

theorem plain (hs : s.isPlain = true) (starts : StartsAt xs sp.first) (ends : EndsAt xs sp.last)
    (parts : Parts Spans xs s.children) : Spans xs ⟨sp, s⟩ := by
  refine .mk starts ends (fun row hr => ?_) (fun d hd => ?_) (Shape.spells_of_isPlain hs xs)
  · rw [Shape.mem_rows_of_isPlain hs hr]
    exact parts
  · rw [Shape.base?_of_isPlain hs] at hd
    cases hd

theorem identNode (t : Token) : Spans [t] t.identNode :=
  .mk (startsAt_singleton t) (endsAt_singleton t)
    (by simp [Shape.rows, Shape.children, Parts.tokens])
    nofun ⟨t, rfl, rfl⟩

theorem keywordNode (t : Token) : Spans [t] t.keywordNode :=
  .mk (startsAt_singleton t) (endsAt_singleton t)
    (by simp [Shape.rows, Shape.children, Parts.tokens])
    nofun ⟨t, rfl, rfl⟩

theorem constant (t : Token) (ts : List Token) :
    Spans (t :: ts)
      (.between t.span (ts.getLastD t).span (.const (Token.texts (t :: ts)))) := by
  refine .mk ⟨t, ts, rfl, rfl⟩ ?_ (by simp [Shape.rows, Shape.children, Parts.tokens]) nofun rfl
  obtain rfl | ⟨us, u, rfl⟩ := ts.eq_nil_or_concat
  · exact endsAt_singleton t
  · rw [List.concat_eq_append, List.getLastD_concat]
    exact (endsAt_singleton u).append (t :: us)

theorem within {m : Node} (h : Spans xs n) (hm : m.Within n) : ∃ ys, ys <:+: xs ∧ Spans ys m := by
  induction hm generalizing xs with
  | refl => exact ⟨xs, List.infix_rfl, h⟩
  | child hc _ ih =>
    obtain ⟨row, hr, hc⟩ := Shape.exists_row_of_mem hc
    obtain ⟨us, ys, vs, rfl, hy⟩ := (h.rows row hr).of_mem hc
    obtain ⟨zs, hz, hm⟩ := ih hy
    exact ⟨zs, hz.trans ⟨us, vs, rfl⟩, hm⟩

end Spans

namespace Row

theorem parts (h : Row xs ns) : Parts Spans xs ns := by
  induction h with
  | nil => exact .nil
  | one hn => exact .single hn
  | more zs hn _ ih => exact ((Parts.single hn).append (.tokens zs)).append ih

theorem cons (hn : Spans xs n) (h : Row ys ns) : Row (xs ++ ys) (n :: ns) := by
  cases ns with
  | nil =>
    cases h
    rw [List.append_nil]
    exact .one hn
  | cons m ns => simpa using more [] hn h

theorem starts (h : Row xs (n :: ns)) : StartsAt xs n.span.first := by
  cases h with
  | one hn => exact hn.starts
  | more zs hn _ => exact (hn.starts.append zs).append _

theorem ends (h : Row xs ns) (hn : ns.getLast? = some n) : EndsAt xs n.span.last := by
  induction h with
  | nil => cases hn
  | one hm =>
    cases hn
    exact hm.ends
  | more zs _ _ ih =>
    rw [List.getLast?_cons_cons] at hn
    exact (ih hn).append _

theorem spanOf (h : Row xs ns) (hne : ns ≠ []) (sp : Span) :
    StartsAt xs (Node.spanOf ns sp).first ∧ EndsAt xs (Node.spanOf ns sp).last := by
  obtain ⟨n, ns, rfl⟩ := List.exists_cons_of_ne_nil hne
  have hl := List.getLast?_eq_some_getLast hne
  rw [Node.spanOf, hl]
  exact ⟨h.starts, h.ends hl⟩

theorem collect {wrap : List Node → Shape Node} (h : Row xs ns) (hne : ns ≠ [])
    (hw : (wrap ns).isPlain = true) (hc : (wrap ns).children = ns) :
    Spans xs (Node.collect wrap ns) := by
  obtain ⟨hs, he⟩ := h.spanOf hne default
  cases h with
  | nil => exact absurd rfl hne
  | one hn => exact hn
  | more zs hn h => exact .plain hw hs he (hc.symm ▸ (more zs hn h).parts)

end Row

def Spans? (xs : List Token) : Option Node → Prop
  | none => xs = []
  | some n => Spans xs n

/-- The tokens read so far go from one end of the range to the other, and the nodes stand on parts
of them. -/
structure Stretch (xs : List Token) (sp : Span) (ns : List Node) : Prop where
  starts : StartsAt xs sp.first
  ends : EndsAt xs sp.last
  parts : Parts Spans xs ns

theorem Spans.stretch (h : Spans xs n) : Stretch xs n.span [n] := ⟨h.starts, h.ends, .single h⟩

namespace Stretch

theorem first (t : Token) : Stretch [t] t.span [] :=
  ⟨startsAt_singleton t, endsAt_singleton t, .tokens [t]⟩

theorem token (h : Stretch xs sp ns) (t : Token) : Stretch (xs ++ [t]) (sp.through t.span) ns := by
  refine ⟨h.starts.append _, (endsAt_singleton t).append _, ?_⟩
  simpa using h.parts.append (.tokens [t])

theorem node (h : Stretch xs sp ns) (hn : Spans ys n) :
    Stretch (xs ++ ys) (sp.through n.span) (ns ++ [n]) :=
  ⟨h.starts.append _, hn.ends.append _, h.parts.append (.single hn)⟩

theorem opened {o : Option Node} (h : Spans? xs o) (t : Token) :
    Stretch (xs ++ [t]) ((Node.spanOr o t.span).through t.span) o.toList := by
  cases o with
  | none =>
    cases h
    exact .first t
  | some n => exact (Spans.stretch h).token t

theorem enclosed (h : Stretch xs sp ns) (hs : Parts Spans ys ms) (t : Token) :
    Stretch (xs ++ ys ++ [t]) (sp.through t.span) (ns ++ ms) := by
  refine ⟨(h.starts.append _).append _, (endsAt_singleton t).append _, ?_⟩
  simpa using (h.parts.append hs).append (.tokens [t])

theorem spans (h : Stretch xs sp ns) (hs : s.isPlain = true) (hc : s.children = ns) :
    Spans xs ⟨sp, s⟩ :=
  .plain hs h.starts h.ends (hc.symm ▸ h.parts)

end Stretch

namespace Spans

theorem prefixed (op : Token) (h : Spans xs n) : Spans (op :: xs) (.prefixed op n) :=
  ((Stretch.first op).node h).spans rfl rfl

theorem pointer (star : Token) {o : Option Node} (h : Row xs ns) (ho : Spans? ys o) :
    Spans (star :: xs ++ ys) (.pointer star ns o) := by
  have parts : Parts Spans (star :: xs ++ ys) (ns ++ o.toList) := by
    refine .append (.token star h.parts) ?_
    cases o with
    | none =>
      cases ho
      exact .nil
    | some n => exact .single ho
  refine .plain rfl ⟨star, xs ++ ys, rfl, rfl⟩ ?_ parts
  cases o with
  | some n => exact (Spans.ends ho).append _
  | none =>
    cases ho
    cases hl : ns.getLast? with
    | none =>
      rw [List.getLast?_eq_none_iff] at hl
      subst hl
      cases h
      exact endsAt_singleton star
    | some q =>
      have hq : EndsAt xs q.span.last := h.ends hl
      simpa [Node.spanOr, Node.between, Span.through, hl] using hq.append [star]

theorem suffix {o : Option Node} (ho : Spans? xs o) (l r : Token) (hs : Parts Spans ys ns)
    (hc : s.children = o.toList ++ ns) (hr : s.rows = [s.children]) (hb : s.base? = o)
    (hx : ∀ xs, s.Spells xs) :
    Spans (xs ++ [l] ++ ys ++ [r]) (.between (Node.spanOr o l.span) r.span s) := by
  have stretch := (Stretch.opened ho l).enclosed hs r
  refine .mk stretch.starts stretch.ends (fun row hm => ?_) (fun d hd => ?_) (hx _)
  · rw [hr, List.mem_singleton, hc] at hm
    exact hm ▸ stretch.parts
  · rw [hb] at hd
    cases hd
    rfl

theorem base (h : Spans xs ⟨sp, s⟩) : ∀ d ∈ s.base?, d.span.first = sp.first := by
  cases h
  assumption

theorem of_rows (h : Spans xs ⟨sp, s⟩) (hr : s.rows = [n :: ns]) :
    ∃ us ys zs, xs = us ++ ys ++ zs ∧ Spans ys n ∧ Parts Spans zs ns :=
  (h.rows _ (hr ▸ List.mem_singleton.mpr rfl)).of_cons

/-- The first child of a node makes way for one that covers some of its tokens. -/
theorem replace {c : Node} (s' : Shape Node) (h : Spans xs ⟨sp, s⟩) (hr : s.rows = [n :: ns])
    (hr' : s'.rows = [c :: ns]) (hx : ∀ xs, s'.Spells xs)
    (hb : ∀ d ∈ s'.base?, d.span.first = sp.first)
    (hc : ∀ {xs}, Spans xs n → (∃ us ys zs, xs = us ++ ys ++ zs ∧ Spans ys c) ∧
      Parts Spans xs ms) :
    Spans xs ⟨sp, s'⟩ ∧ Parts Spans xs ms := by
  obtain ⟨us, ys, zs, rfl, hn, hs⟩ := h.of_rows hr
  obtain ⟨⟨vs, ws, ts, rfl, hc⟩, hp⟩ := hc hn
  refine ⟨.mk h.starts h.ends (fun row hm => ?_) hb (hx _), ?_⟩
  · rw [hr', List.mem_singleton] at hm
    subst hm
    have parts := ((Parts.tokens (us ++ vs)).append (.single hc)).append
      ((Parts.tokens ts).append hs)
    simpa using parts
  · simpa using ((Parts.tokens us).append hp).append (.tokens zs)

/-- A header without its parameters covers a part of the tokens and starts where it did, and the
parameters stand among the tokens. -/
theorem detach {name : Node} {params : Option (List Node)} (h : Spans xs n)
    (hd : n.detachParams? = some (name, params)) :
    name.span.first = n.span.first ∧ (∃ us ys zs, xs = us ++ ys ++ zs ∧ Spans ys name) ∧
      Parts Spans xs (params.getD []) := by
  have whole {xs : List Token} {n : Node} (h : Spans xs n) :
      ∃ us ys zs, xs = us ++ ys ++ zs ∧ Spans ys n := ⟨[], xs, [], by simp, h⟩
  fun_induction Node.detachParams? n generalizing xs name params with
  | case1 span quals decl ih =>
    obtain ⟨⟨decl', params'⟩, hd, he⟩ := Option.map_eq_some_iff.mp hd
    cases he
    obtain ⟨as, bs, rfl, hq, hb⟩ := (h.rows _ (List.mem_singleton.mpr rfl)).of_append
    obtain ⟨us, cs, vs, rfl, hc, -⟩ := hb.of_cons
    obtain ⟨-, ⟨ws, ys, zs, rfl, hy⟩, hp⟩ := ih hc hd
    have parts : Parts Spans (as ++ (us ++ ws) ++ ys)
      (Shape.pointer quals (some decl')).children := by
      simpa [Shape.children] using (hq.append (.tokens (us ++ ws))).append (.single hy)
    have starts : StartsAt _ span.first := h.starts
    have starts : StartsAt (as ++ (us ++ ws) ++ ys ++ (zs ++ vs)) span.first := by
      simpa using starts
    refine ⟨rfl, ⟨[], as ++ (us ++ ws) ++ ys, zs ++ vs, by simp, ?_⟩, ?_⟩
    · refine .plain rfl (starts.of_append ?_) (hy.ends.append _) parts
      simp [hy.starts.ne_nil]
    · simpa using (Parts.tokens (as ++ us)).append (hp.append (.tokens vs))
  | case2 span decl size ih =>
    obtain ⟨⟨decl', params'⟩, hd, he⟩ := Option.map_eq_some_iff.mp hd
    cases he
    have first := h.base decl rfl
    obtain ⟨us, ys, zs, rfl, hc, -⟩ := h.of_rows rfl
    obtain ⟨hn, hp⟩ := h.replace (.array (some decl') size) rfl rfl (fun _ => trivial)
      (by rintro _ ⟨⟩; exact (ih hc hd).1.trans first) fun hc => (ih hc hd).2
    exact ⟨rfl, whole hn, hp⟩
  | case3 span decl ih =>
    obtain ⟨⟨decl', params'⟩, hd, he⟩ := Option.map_eq_some_iff.mp hd
    cases he
    obtain ⟨hn, hp⟩ := h.replace (.nested decl') rfl rfl (fun _ => trivial)
      (fun _ hb => by cases hb) fun hc => (ih hc hd).2
    exact ⟨rfl, whole hn, hp⟩
  | case4 span decl outer name' params' hd' ih =>
    cases hd
    have first := h.base decl rfl
    obtain ⟨us, ys, zs, rfl, hc, -⟩ := h.of_rows rfl
    obtain ⟨hn, hp⟩ := h.replace (.function (some name') outer) rfl rfl (fun _ => trivial)
      (by rintro _ ⟨⟩; exact (ih hc hd').1.trans first) fun hc => (ih hc hd').2
    exact ⟨rfl, whole hn, hp⟩
  | case5 | case6 =>
    cases hd
    have first := h.base _ rfl
    obtain ⟨us, ys, zs, rfl, hc, hp⟩ := h.of_rows rfl
    exact ⟨first, ⟨us, ys, zs, rfl, hc⟩, (Parts.tokens _).append hp⟩
  | _ => cases hd

theorem header (h : Spans xs n) : n.header.1.span.first = n.span.first ∧
    (∃ us ys zs, xs = us ++ ys ++ zs ∧ Spans ys n.header.1) ∧
    Parts Spans xs (n.header.2.getD []) := by
  rw [Node.header]
  cases hd : n.detachParams? with
  | none => exact ⟨rfl, ⟨[], xs, [], by simp, h⟩, .tokens xs⟩
  | some q => exact h.detach hd

/-- A function definition: specifiers, a declarator, declarations of its parameters and a block. -/
theorem definition {o : Option Node} {body : Node} {ws : List Token} (ho : Spans? xs o)
    (hn : Spans ys n) (hs : Parts Spans zs ns) (hb : Spans ws body) :
    Spans (xs ++ ys ++ zs ++ ws) (.between (Node.spanOr o n.header.1.span) body.span
      (.func o n.header.1 n.header.2 ns body)) := by
  obtain ⟨first, ⟨as, bs, cs, rfl, hname⟩, hp⟩ := hn.header
  have specs : Parts Spans xs o.toList := by
    cases o with
    | none => exact .tokens xs
    | some s => exact .single ho
  refine .mk ?_ (hb.ends.append _) (fun row hr => ?_) nofun trivial
  · cases o with
    | none =>
      cases ho
      have starts := hn.starts
      rw [← first] at starts
      exact (starts.append _).append _
    | some s => exact (((Spans.starts ho).append _).append _).append _
  · simp only [Shape.rows, List.mem_cons, List.not_mem_nil, or_false] at hr
    obtain rfl | rfl := hr
    · have name := ((Parts.tokens as).append (.single hname)).append (.tokens cs)
      simpa using ((specs.append name).append hs).append (.single hb)
    · exact ((specs.append hp).append hs).append (.single hb)

end Spans

end CPretty
