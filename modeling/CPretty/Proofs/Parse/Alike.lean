import CPretty.Proofs.Parse.Steps
import CPretty.Proofs.Syntax.Respan
import CPretty.Proofs.Token.Canonical
import Mathlib.Data.List.Forall2

namespace CPretty

theorem ParseError.furthest_of_tooDeep {a b : ParseError} {l : Nat} (ha : ¬ a.isTooDeep = true)
    (hb : b.fault = .tooDeep l) : a.furthest b = b := by
  rw [furthest, hb]
  cases h : a.fault with
  | tooDeep l => simp [isTooDeep, h] at ha
  | unexpected es => rfl

theorem forall₂_getLast {α β : Type} {R : α → β → Prop} {as : List α} {bs : List β} {a : α} {b : β}
    (h : List.Forall₂ R as bs) (hab : R a b) : R (as.getLast?.getD a) (bs.getLast?.getD b) := by
  induction h generalizing a b with
  | nil => exact hab
  | cons h _ ih =>
    rw [List.getLast?_cons, List.getLast?_cons]
    exact ih h

theorem forall₂_getLast? {α β : Type} {R : α → β → Prop} {as : List α} {bs : List β}
    (h : List.Forall₂ R as bs) : Option.Rel R as.getLast? bs.getLast? := by
  cases h with
  | nil => exact .none
  | cons h hs =>
    rw [List.getLast?_cons, List.getLast?_cons]
    exact .some (forall₂_getLast hs h)

theorem Span.id_through (a b : Span) : id (a.through b) = (id a).through (id b) := rfl

/-- How the tokens of two sources correspond. Runs on such sources make the same choices at every
step. -/
structure Likeness where
  token : Token → Token → Prop
  /-- Carries the ranges of the first source into the common form. -/
  left : Span → Span
  /-- Carries the ranges of the second source into the common form. -/
  right : Span → Span
  /-- The nesting limit of the first source, where the second one is allowed to nest deeper. -/
  limit? : Option Nat
  kind_eq : ∀ {t t'}, token t t' → t.kind = t'.kind
  text_eq : ∀ {t t'}, token t t' → t.kind ∉ Kind.brackets → t.text = t'.text
  span_eq : ∀ {t t'}, token t t' → left t.span = right t'.span
  left_through : ∀ a b : Span, left (a.through b) = (left a).through (left b)
  right_through : ∀ a b : Span, right (a.through b) = (right a).through (right b)

namespace Likeness

variable {L : Likeness} {α β α' β' σ σ' : Type} {V : α → α' → Prop} {W : β → β' → Prop}
  {c c' : Cursor} {k : Kind} {t t' : Token} {n n' : Node}

abbrev Nodes (L : Likeness) (n n' : Node) : Prop := n.respan L.left = n'.respan L.right

/-- Corresponding tokens of the given kind. -/
structure Taken (L : Likeness) (k : Kind) (t t' : Token) : Prop where
  token : L.token t t'
  kind : t.kind = k

/-- Positions with corresponding tokens ahead. -/
structure Cursors (L : Likeness) (c c' : Cursor) : Prop where
  ahead : List.Forall₂ L.token c.ahead c'.ahead
  finish : L.token c.finish c'.finish

/-- The same fault at corresponding tokens. -/
structure Errors (L : Likeness) (e e' : ParseError) : Prop where
  fault : e.fault = e'.fault
  found : L.token e.found e'.found
  left : e.left = e'.left

/-- Results of two runs: corresponding ones, or an excess of nesting in the first that the second
need not have. -/
inductive Outcome (L : Likeness) (V : α → α' → Prop) :
    Except ParseError (α × Cursor) → Except ParseError (α' × Cursor) → Prop
  | ok {a a' c c'} : V a a' → L.Cursors c c' → Outcome L V (.ok (a, c)) (.ok (a', c'))
  | error {e e'} : L.Errors e e' → Outcome L V (.error e) (.error e')
  | excess {e l r} : L.limit? = some l → e.fault = .tooDeep l → Outcome L V (.error e) r

def Alike (L : Likeness) (V : α → α' → Prop) (p : Parse α) (p' : Parse α') : Prop :=
  ∀ ⦃c c'⦄, L.Cursors c c' → L.Outcome V (p c) (p' c')

theorem Taken.text (h : L.Taken k t t') (hk : k ∉ Kind.brackets) : t.text = t'.text :=
  L.text_eq h.token (h.kind ▸ hk)

theorem Taken.texts {o o' : Option Token} (h : Option.Rel (L.Taken k) o o')
    (hk : k ∉ Kind.brackets) : o.map Token.text = o'.map Token.text := by
  cases h with
  | none => rfl
  | some ht => exact congrArg some (ht.text hk)

namespace Cursors

theorem length (h : L.Cursors c c') : c.ahead.length = c'.ahead.length := h.ahead.length_eq

theorem isEmpty (h : L.Cursors c c') : c.ahead.isEmpty = c'.ahead.isEmpty := by
  have := h.length
  rw [Bool.eq_iff_iff, List.isEmpty_iff_length_eq_zero, List.isEmpty_iff_length_eq_zero, this]

theorem peek (h : L.Cursors c c') : L.token c.peek c'.peek := by
  obtain ⟨ts, finish⟩ := c
  obtain ⟨ts', finish'⟩ := c'
  cases h.ahead with
  | nil => exact h.finish
  | cons ht _ => exact ht

theorem kind (h : L.Cursors c c') : c.peek.kind = c'.peek.kind := L.kind_eq h.peek

theorem advance (h : L.Cursors c c') : L.Cursors c.advance c'.advance := by
  obtain ⟨ts, finish⟩ := c
  obtain ⟨ts', finish'⟩ := c'
  cases h.ahead with
  | nil => exact ⟨.nil, h.finish⟩
  | cons _ hts => exact ⟨hts, h.finish⟩

theorem tail (h : L.Cursors c c') : List.Forall₂ L.token c.ahead.tail c'.ahead.tail :=
  h.advance.ahead

theorem failure (h : L.Cursors c c') (es : List Expected) :
    L.Errors (c.failure es) (c'.failure es) := ⟨rfl, h.peek, h.length⟩

theorem excess (h : L.Cursors c c') (l : Nat) : L.Errors (c.excess l) (c'.excess l) :=
  ⟨rfl, h.peek, h.length⟩

end Cursors

theorem Errors.isTooDeep {e e' : ParseError} (h : L.Errors e e') : e.isTooDeep = e'.isTooDeep := by
  rw [ParseError.isTooDeep, ParseError.isTooDeep, h.fault]

theorem Errors.furthest {e₁ e₂ e₁' e₂' : ParseError} (h₁ : L.Errors e₁ e₁') (h₂ : L.Errors e₂ e₂') :
    L.Errors (e₁.furthest e₂) (e₁'.furthest e₂') := by
  rw [ParseError.furthest, ParseError.furthest, ← h₁.fault, ← h₂.fault]
  split
  · exact h₁
  · exact h₂
  · rw [← h₁.left, ← h₂.left]
    split
    · exact ⟨rfl, h₁.found, rfl⟩
    · split
      · exact h₂
      · exact h₁

namespace Nodes

theorem span (h : L.Nodes n n') : L.left n.span = L.right n'.span := by
  have := congrArg Node.span h
  rwa [Node.span_respan, Node.span_respan] at this

theorem between {a b a' b' : Span} {s s' : Shape Node} (ha : L.left a = L.right a')
    (hb : L.left b = L.right b')
    (hs : s.map (Node.respan L.left) = s'.map (Node.respan L.right)) :
    L.Nodes (Node.between a b s) (Node.between a' b' s') := by
  rw [Nodes, Node.between, Node.between, Node.respan_mk, Node.respan_mk, L.left_through,
    L.right_through, ha, hb, hs]

theorem leaf {s s' : Shape Node} (ht : L.token t t')
    (hs : s.map (Node.respan L.left) = s'.map (Node.respan L.right)) :
    L.Nodes (t.leaf s) (t'.leaf s') := by
  rw [Nodes, Token.leaf, Token.leaf, Node.respan_mk, Node.respan_mk, L.span_eq ht, hs]

theorem list {ns ns' : List Node} (h : List.Forall₂ L.Nodes ns ns') :
    ns.map (Node.respan L.left) = ns'.map (Node.respan L.right) := by
  induction h with
  | nil => rfl
  | cons hn _ ih => rw [List.map_cons, List.map_cons, hn, ih]

theorem option {o o' : Option Node} (h : Option.Rel L.Nodes o o') :
    o.map (Node.respan L.left) = o'.map (Node.respan L.right) := by
  cases h with
  | none => rfl
  | some hn => exact congrArg some hn

theorem spanOr {o o' : Option Node} {sp sp' : Span} (h : Option.Rel L.Nodes o o')
    (hs : L.left sp = L.right sp') : L.left (Node.spanOr o sp) = L.right (Node.spanOr o' sp') := by
  cases h with
  | none => exact hs
  | some hn => exact hn.span

theorem spanOf {ns ns' : List Node} {sp sp' : Span} (h : List.Forall₂ L.Nodes ns ns')
    (hs : ns = [] → L.left sp = L.right sp') :
    L.left (Node.spanOf ns sp) = L.right (Node.spanOf ns' sp') := by
  cases h with
  | nil => exact hs rfl
  | @cons n n' ns ns' hn hns =>
    simp only [Node.spanOf, List.head?_cons, List.getLast?_cons]
    rw [L.left_through, L.right_through, hn.span, (forall₂_getLast hns hn).span]

theorem collect {wrap : List Node → Shape Node} {ns ns' : List Node}
    (h : List.Forall₂ L.Nodes ns ns') (hne : ns ≠ [])
    (hw : ∀ f ns, (wrap ns).map (Node.respan f) = wrap (ns.map (Node.respan f))) :
    L.Nodes (Node.collect wrap ns) (Node.collect wrap ns') := by
  cases h with
  | nil => exact absurd rfl hne
  | @cons n n' ns ns' hn hns =>
    cases hns with
    | nil => exact hn
    | @cons m m' ms ms' hm hms =>
      have hl : List.Forall₂ L.Nodes (n :: m :: ms) (n' :: m' :: ms') := .cons hn (.cons hm hms)
      have hsp : L.left (Node.spanOf _ default) = L.right (Node.spanOf _ default) := spanOf hl nofun
      rw [Nodes, Node.collect, Node.collect, Node.respan_mk, Node.respan_mk, hw, hw, list hl, hsp]
      all_goals simp

theorem nonempty? {ns ns' : List Node} (h : List.Forall₂ L.Nodes ns ns') :
    (Node.nonempty? ns).map (List.map (Node.respan L.left)) =
      (Node.nonempty? ns').map (List.map (Node.respan L.right)) := by
  cases h with
  | nil => rfl
  | cons hn hns => exact congrArg some (list (.cons hn hns))

end Nodes

open Parse

namespace Outcome

theorem pure {a : α} {a' : α'} (ha : V a a') (hc : L.Cursors c c') :
    L.Outcome V ((Pure.pure a : Parse α) c) ((Pure.pure a' : Parse α') c') := .ok ha hc

theorem fail (hc : L.Cursors c c') (es : List Expected) :
    L.Outcome V ((fail es : Parse α) c) ((Parse.fail es : Parse α') c') := .error (hc.failure es)

theorem bind {p : Parse α} {p' : Parse α'} {f : α → Parse β} {f' : α' → Parse β'}
    (h : L.Outcome V (p c) (p' c'))
    (hf : ∀ {a a' d d'}, V a a' → L.Cursors d d' → L.Outcome W (f a d) (f' a' d')) :
    L.Outcome W ((p >>= f) c) ((p' >>= f') c') := by
  rw [bind_apply, bind_apply]
  generalize p c = r, p' c' = r' at h
  cases h with
  | ok ha hd => exact hf ha hd
  | error he => exact .error he
  | excess hl he => exact .excess hl he

theorem map {p : Parse α} {p' : Parse α'} {f : α → β} {f' : α' → β'}
    (h : L.Outcome V (p c) (p' c')) (hf : ∀ {a a'}, V a a' → W (f a) (f' a')) :
    L.Outcome W ((f <$> p) c) ((f' <$> p') c') := by
  rw [map_eq_pure_bind, map_eq_pure_bind]
  exact h.bind fun ha hd => .ok (hf ha) hd

theorem peekKind {f : Kind → Parse β} {f' : Kind → Parse β'} (hc : L.Cursors c c')
    (h : ∀ k, c.peek.kind = k → L.Outcome W (f k c) (f' k c')) :
    L.Outcome W ((peekKind >>= f) c) ((Parse.peekKind >>= f') c') := by
  rw [bind_of_ok (peekKind_apply c), bind_of_ok (peekKind_apply c'), ← hc.kind]
  exact h _ rfl

theorem check {f : Bool → Parse β} {f' : Bool → Parse β'} (hc : L.Cursors c c')
    (h : L.Outcome W (f (c.peek.kind == k) c) (f' (c.peek.kind == k) c')) :
    L.Outcome W ((check k >>= f) c) ((Parse.check k >>= f') c') := by
  rw [bind_of_ok (check_apply k c), bind_of_ok (check_apply k c'), ← hc.kind]
  exact h

theorem ahead {f : List Token → Parse β} {f' : List Token → Parse β'}
    (h : L.Outcome W (f c.ahead c) (f' c'.ahead c')) :
    L.Outcome W ((ahead >>= f) c) ((Parse.ahead >>= f') c') := by
  rw [bind_of_ok (ahead_apply c), bind_of_ok (ahead_apply c')]
  exact h

theorem atEnd {f : Bool → Parse β} {f' : Bool → Parse β'} (hc : L.Cursors c c')
    (h : L.Outcome W (f c.ahead.isEmpty c) (f' c.ahead.isEmpty c')) :
    L.Outcome W ((atEnd >>= f) c) ((Parse.atEnd >>= f') c') := by
  rw [bind_of_ok (atEnd_apply c), bind_of_ok (atEnd_apply c'), ← hc.isEmpty]
  exact h

theorem advance {f : Token → Parse β} {f' : Token → Parse β'} (hc : L.Cursors c c')
    (h : ∀ {t t' d d'}, L.token t t' → t.kind = c.peek.kind → L.Cursors d d' →
      L.Outcome W (f t d) (f' t' d')) :
    L.Outcome W ((advance >>= f) c) ((Parse.advance >>= f') c') := by
  rw [bind_of_ok (advance_apply c), bind_of_ok (advance_apply c')]
  exact h hc.peek rfl hc.advance

theorem expect {f : Token → Parse β} {f' : Token → Parse β'} (hc : L.Cursors c c')
    (h : ∀ {t t' d d'}, L.token t t' → t.kind = k → L.Cursors d d' →
      L.Outcome W (f t d) (f' t' d')) :
    L.Outcome W ((expect k >>= f) c) ((Parse.expect k >>= f') c') := by
  refine bind (V := fun t t' => L.token t t' ∧ t.kind = k) ?_ fun ht hd => h ht.1 ht.2 hd
  rw [expect_apply, expect_apply, ← hc.kind]
  split
  · exact .ok ⟨hc.peek, by simp_all⟩ hc.advance
  · exact .error (hc.failure _)

theorem eat {f : Bool → Parse β} {f' : Bool → Parse β'} (hc : L.Cursors c c')
    (yes : ∀ {d d'}, L.Cursors d d' → L.Outcome W (f true d) (f' true d'))
    (no : L.Outcome W (f false c) (f' false c')) :
    L.Outcome W ((eat k >>= f) c) ((Parse.eat k >>= f') c') := by
  have h := eat_apply k c
  have h' := eat_apply k c'
  rw [← hc.kind] at h'
  split at h
  · rw [bind_of_ok h, bind_of_ok (h'.trans (if_pos ‹_›))]
    exact yes hc.advance
  · rw [bind_of_ok h, bind_of_ok (h'.trans (if_neg ‹_›))]
    exact no

theorem eat? {f : Option Token → Parse β} {f' : Option Token → Parse β'} (hc : L.Cursors c c')
    (yes : ∀ {t t' d d'}, L.token t t' → t.kind = k → L.Cursors d d' →
      L.Outcome W (f (some t) d) (f' (some t') d'))
    (no : L.Outcome W (f none c) (f' none c')) :
    L.Outcome W ((eat? k >>= f) c) ((Parse.eat? k >>= f') c') := by
  have h := eat?_apply k c
  have h' := eat?_apply k c'
  rw [← hc.kind] at h'
  split at h
  · rw [bind_of_ok h, bind_of_ok (h'.trans (if_pos ‹_›))]
    exact yes hc.peek (by simp_all) hc.advance
  · rw [bind_of_ok h, bind_of_ok (h'.trans (if_neg ‹_›))]
    exact no

theorem after {p : Parse α} {p' : Parse α'} {f : Option α → Parse β} {f' : Option α' → Parse β'}
    (h : L.Alike V p p') (hc : L.Cursors c c')
    (hf : ∀ {o o' d d'}, Option.Rel V o o' → L.Cursors d d' → L.Outcome W (f o d) (f' o' d')) :
    L.Outcome W ((Parse.eat k >>= fun b =>
        if b then some <$> p >>= f else Pure.pure none >>= f) c)
      ((Parse.eat k >>= fun b =>
        if b then some <$> p' >>= f' else Pure.pure none >>= f') c') :=
  .eat hc (fun hd => .bind (.map (h hd) fun ha => .some ha) hf) (hf .none hc)

theorem before {p : Parse α} {p' : Parse α'} {f : Option α → Parse β} {f' : Option α' → Parse β'}
    (h : L.Alike V p p') (hc : L.Cursors c c')
    (hf : ∀ {o o' d d'}, Option.Rel V o o' → L.Cursors d d' → L.Outcome W (f o d) (f' o' d')) :
    L.Outcome W ((Parse.check k >>= fun b =>
        if b then Pure.pure none >>= f else some <$> p >>= f) c)
      ((Parse.check k >>= fun b =>
        if b then Pure.pure none >>= f' else some <$> p' >>= f') c') := by
  refine .check hc ?_
  split
  · exact hf .none hc
  · exact .bind (.map (h hc) fun ha => .some ha) hf

end Outcome

namespace Alike

theorem eat? : L.Alike (Option.Rel (L.Taken k)) (eat? k) (Parse.eat? k) := by
  intro c c' hc
  rw [eat?_apply, eat?_apply, ← hc.kind]
  split
  · exact .ok (.some ⟨hc.peek, by simp_all⟩) hc.advance
  · exact .ok .none hc

theorem either {p q : Parse α} {p' q' : Parse α'} (hp : L.Alike V p p') (hq : L.Alike V q q') :
    L.Alike V (either p q) (Parse.either p' q') := by
  intro c c' hc
  have h₁ := hp hc
  have h₂ := hq hc
  rw [Parse.either, Parse.either]
  generalize p c = r, p' c' = r' at h₁
  generalize q c = s, q' c' = s' at h₂
  cases h₁ with
  | ok ha hd => exact .ok ha hd
  | @excess e l _ hl he =>
    have hd : e.isTooDeep = true := by rw [ParseError.isTooDeep, he]
    simp only [hd, if_true]
    exact .excess hl he
  | error he =>
    simp only [← he.isTooDeep]
    split
    · exact .error he
    · cases h₂ with
      | ok ha hd => exact .ok ha hd
      | error he' => exact .error (he.furthest he')
      | excess hl he' =>
        refine .excess hl ?_
        rw [ParseError.furthest_of_tooDeep ‹_› he', he']

theorem many {step : Parse (Option α)} {step' : Parse (Option α')}
    (h : L.Alike (Option.Rel V) step step') :
    L.Alike (List.Forall₂ V) (many step) (Parse.many step') := by
  have loop (n : Nat) : L.Alike (List.Forall₂ V) (manyUpTo step n) (manyUpTo step' n) := by
    induction n with
    | zero =>
      intro c c' hc
      exact .pure .nil hc
    | succ n ih =>
      intro c c' hc
      refine .bind (h hc) fun ha hd => ?_
      cases ha with
      | none => exact .pure .nil hd
      | some ha => exact .bind (ih hd) fun has hd => .pure (.cons ha has) hd
  intro c c' hc
  refine .ahead ?_
  rw [← hc.length]
  exact loop _ hc

theorem iterate {step : σ → Parse (Option σ)} {step' : σ' → Parse (Option σ')} {s : σ} {s' : σ'}
    {V : σ → σ' → Prop} (h : ∀ {s s'}, V s s' → L.Alike (Option.Rel V) (step s) (step' s'))
    (hs : V s s') : L.Alike V (iterate step s) (Parse.iterate step' s') := by
  have loop (n : Nat) : ∀ {s s'}, V s s' →
      L.Alike V (iterateUpTo step n s) (iterateUpTo step' n s') := by
    induction n with
    | zero => exact fun hs c c' hc => .pure hs hc
    | succ n ih =>
      intro s s' hs c c' hc
      refine .bind (h hs hc) fun hs' hd => ?_
      cases hs' with
      | none => exact .pure hs hd
      | some hs' => exact ih hs' hd
  intro c c' hc
  refine .ahead ?_
  rw [← hc.length]
  exact loop _ hs hc

theorem manyUntil {item : Parse α} {item' : Parse α'} (h : L.Alike V item item') (close : Kind) :
    L.Alike (List.Forall₂ V) (manyUntil close item) (Parse.manyUntil close item') := by
  refine many fun c c' hc => ?_
  refine .check hc (.atEnd hc ?_)
  split
  · exact .pure .none hc
  · exact .bind (h hc) fun ha hd => .pure (.some ha) hd

theorem commaItems {item : Parse α} {item' : Parse α'} (h : L.Alike V item item') :
    L.Alike (List.Forall₂ V) (commaItems item) (Parse.commaItems item') := by
  refine many fun c c' hc => .eat hc (fun hd => ?_) (.pure .none hc)
  exact .bind (h hd) fun ha hd => .pure (.some ha) hd

theorem commaList {item : Parse α} {item' : Parse α'} (h : L.Alike V item item') :
    L.Alike (fun as as' => List.Forall₂ V as as' ∧ as ≠ []) (commaList item)
      (Parse.commaList item') := by
  intro c c' hc
  refine .bind (h hc) fun ha hd => .bind (commaItems h hd) fun has hd => ?_
  exact .pure ⟨.cons ha has, List.cons_ne_nil _ _⟩ hd

theorem bracedItems {item : Parse α} {item' : Parse α'} (h : L.Alike V item item') :
    L.Alike (List.Forall₂ V) (bracedItems item) (Parse.bracedItems item') := by
  have loop (n : Nat) :
      L.Alike (List.Forall₂ V) (bracedItemsUpTo item n) (bracedItemsUpTo item' n) := by
    induction n with
    | zero =>
      intro c c' hc
      exact .pure .nil hc
    | succ n ih =>
      intro c c' hc
      refine .check hc ?_
      split
      · exact .pure .nil hc
      · refine .bind (h hc) fun ha hd => .eat hd (fun hd => ?_) (.pure (.cons ha .nil) hd)
        exact .bind (ih hd) fun has hd => .pure (.cons ha has) hd
  intro c c' hc
  refine .ahead ?_
  rw [← hc.length]
  exact loop _ hc

/-- Corresponding string literals have the same texts and the same ends. -/
def Strings (L : Likeness) (r r' : Token × List Token) : Prop :=
  Token.texts (r.1 :: r.2) = Token.texts (r'.1 :: r'.2) ∧ L.left r.1.span = L.right r'.1.span ∧
    L.left (r.2.getLastD r.1).span = L.right (r'.2.getLastD r'.1).span

theorem strings : L.Alike (Strings L) strings Parse.strings := by
  intro c c' hc
  refine .expect hc fun ht hk hd => .bind (many eat? hd) fun {ts ts' _ _} hts hd => .pure ?_ hd
  refine ⟨?_, L.span_eq ht, ?_⟩
  · have texts {ts ts' : List Token} (h : List.Forall₂ (L.Taken .stringLiteral) ts ts') :
        ts.map Token.text = ts'.map Token.text := by
      induction h with
      | nil => rfl
      | cons h _ ih => rw [List.map_cons, List.map_cons, h.text (by decide), ih]
    rw [Token.texts, Token.texts, texts (.cons ⟨ht, hk⟩ hts)]
  · rw [List.getLastD_eq_getLast?, List.getLastD_eq_getLast?]
    exact L.span_eq (forall₂_getLast hts ⟨ht, hk⟩).1

end Alike

theorem Outcome.commasBefore {p : Parse α} {p' : Parse α'} {f : List α → Parse β}
    {f' : List α' → Parse β'} (h : L.Alike V p p') (hc : L.Cursors c c')
    (hf : ∀ {as as' d d'}, List.Forall₂ V as as' → L.Cursors d d' →
      L.Outcome W (f as d) (f' as' d')) :
    L.Outcome W ((Parse.check k >>= fun b =>
        if b then Pure.pure [] >>= f else commaList p >>= f) c)
      ((Parse.check k >>= fun b =>
        if b then Pure.pure [] >>= f' else commaList p' >>= f') c') := by
  refine .check hc ?_
  split
  · exact hf .nil hc
  · exact .bind (Alike.commaList h hc) fun has hd => hf has.1 hd

end Likeness

end CPretty
