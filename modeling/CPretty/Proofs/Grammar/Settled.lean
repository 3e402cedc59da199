import CPretty.Proofs.Grammar.Locality
import CPretty.Proofs.Parse.Completes

namespace CPretty

open Parse Place Linked

variable {α β : Type} {P Q : Place → Prop} {p₀ : Place} {a : α} {c c' d d' : Cursor} {n : Node}
  {ns : List Node} {xs ys : List Token} {t : Token} {k : Kind} {deep : Nested}

theorem Cursor.Passes.before (xs : List Token) (d : Cursor) : (d.before xs).Passes xs d :=
  ⟨rfl, rfl⟩

theorem Cursor.Passes.eq_before (h : c.Passes xs d) : c = d.before xs := by
  obtain ⟨ts, f⟩ := c
  obtain ⟨rfl, rfl⟩ := h
  rfl

theorem Cursor.ahead_of_peek (hc : c.Ended) (hk : c.peek.kind ≠ .eof) :
    c.ahead = c.peek :: c.advance.ahead := by
  obtain ⟨_ | ⟨t, ts⟩, f⟩ := c
  · exact absurd hc hk
  · rfl

theorem Cursor.peek_before_congr (h : d'.peek = d.peek) (xs : List Token) :
    (d'.before xs).peek = (d.before xs).peek := by
  cases xs with
  | nil => exact h
  | cons t ts => rfl

theorem Cursor.head?_any_of_ended (hc : c.Ended) (hk : k ≠ .eof) :
    c.ahead.head?.any (·.kind == k) = (c.peek.kind == k) := by
  obtain ⟨_ | ⟨t, ts⟩, f⟩ := c
  · exact (beq_false_of_ne fun h => hk (h.symm.trans hc)).symm
  · rfl

theorem Cursor.Ended.second_before_congr (hd' : d'.Ended) (hd : d.Ended) (h : d'.peek = d.peek)
    (hx : xs ≠ []) (hk : k ≠ .eof) :
    (d'.before xs).ahead[1]?.any (·.kind == k) = (d.before xs).ahead[1]?.any (·.kind == k) := by
  obtain ⟨t, ts, rfl⟩ := List.exists_cons_of_ne_nil hx
  cases ts with
  | nil =>
    have next {c : Cursor} (hc : c.Ended) :
        (c.before [t]).ahead[1]?.any (·.kind == k) = (c.peek.kind == k) := by
      rw [← Cursor.head?_any_of_ended hc hk, List.head?_eq_getElem?]
      rfl
    rw [next hd', next hd, h]
  | cons u us => rfl

namespace Parse

theorem eat?_before {o : Option Token} (ho : ∀ t ∈ o, t.kind = k)
    (hn : o = none → c.peek.kind ≠ k) : eat? k (c.before o.toList) = .ok (o, c) := by
  rw [eat?_apply]
  cases o with
  | none => rw [if_neg (by simpa using hn rfl)]; rfl
  | some t => rw [if_pos (by simp [ho t rfl])]; rfl

theorem eat_before (ht : t.kind = k) : eat k (c.before [t]) = .ok (true, c) :=
  eat_of_eq (c := c.before [t]) ht

theorem peek_of_expect (h : expect k c = .ok (t, d)) : c.peek.kind = k := by
  rw [expect_apply] at h
  split at h
  next hk => exact eq_of_beq hk
  next => cases h

theorem expect_before (ht : t.kind = k) : expect k (c.before [t]) = .ok (t, c) := by
  rw [expect_apply, if_pos (by simp [ht])]
  rfl

end Parse

/-- From the tokens between two positions the parser reads the value, also where others stand behind
the next one. -/
def Settled (p : Parse α) (c : Cursor) (a : α) (d : Cursor) : Prop :=
  ∃ xs, c.Passes xs d ∧
    ∀ ⦃d' : Cursor⦄, d'.Ended → d'.peek = d.peek → p (d'.before xs) = .ok (a, d')

namespace Settled

theorem advance (hc : c.Ended) (hk : c.peek.kind ≠ .eof) (h : Parse.advance c = .ok (t, d)) :
    Settled Parse.advance c t d := by
  obtain ⟨-, px⟩ := advance_ok h hc hk
  exact ⟨[t], px, fun d' _ _ => rfl⟩

theorem bind_pure {p : Parse α} {f : α → β} {b : β} (hp : ∀ a, p c = .ok (a, d) → Settled p c a d)
    (h : (p >>= fun a => pure (f a)) c = .ok (b, d)) :
    Settled (p >>= fun a => pure (f a)) c b d := by
  obtain ⟨a, c₁, h₁, h⟩ := bind_ok h
  obtain ⟨rfl, rfl⟩ := pure_ok h
  obtain ⟨xs, px, run⟩ := hp a h₁
  exact ⟨xs, px, fun d' hd' hn => by rw [bind_of_ok (run hd' hn)]; rfl⟩

/-- A repetition is settled if each step that yields something is, and if the next token decides
whether there is one more. -/
theorem many {step : Parse (Option α)} {D : List Token → α → Prop} {as : List α}
    (hs : Reads step (StepReads D)) (hD : ∀ xs a, D xs a → xs ≠ [])
    (some : ∀ {c d a}, c.Ended → step c = .ok (some a, d) → Settled step c (some a) d)
    (none : ∀ {c c' d : Cursor}, c'.peek = c.peek → step c = .ok (none, d) →
      step c' = .ok (none, c'))
    (hc : c.Ended) (h : many step c = .ok (as, d)) : Settled (Parse.many step) c as d := by
  have loop : ∀ i {c as}, c.Ended → c.ahead.length < i → manyUpTo step i c = .ok (as, d) →
      ∃ xs, c.Passes xs d ∧ ∀ ⦃d' : Cursor⦄, d'.Ended → d'.peek = d.peek →
        ∀ j, (d'.before xs).ahead.length < j → manyUpTo step j (d'.before xs) = .ok (as, d') := by
    intro i
    induction i with
    | zero => exact fun _ hi => absurd hi (Nat.not_lt_zero _)
    | succ i ih =>
      intro c as hc hi h
      obtain ⟨o, c₁, h₁, h⟩ := bind_ok h
      obtain ⟨ys, py, hy⟩ := hs hc h₁
      cases o with
      | none =>
        obtain ⟨rfl, rfl⟩ := pure_ok h
        cases hy
        refine ⟨[], py, fun d' _ hn j hj => ?_⟩
        obtain ⟨j, rfl⟩ := Nat.exists_eq_add_one_of_ne_zero (Nat.ne_zero_of_lt hj)
        rw [Cursor.before_nil, manyUpTo, bind_of_ok (none (py.eq_before ▸ hn) h₁)]
        rfl
      | some a =>
        obtain ⟨as, c₂, h₂, h⟩ := bind_ok h
        obtain ⟨rfl, rfl⟩ := pure_ok h
        have shorter := py.length_lt (hD _ _ hy)
        obtain ⟨xs, p₁, run⟩ := some hc h₁
        have hne : xs ≠ [] := by
          rintro rfl
          rw [p₁.ahead] at shorter
          exact absurd shorter (Nat.lt_irrefl _)
        obtain ⟨zs, p₂, runs⟩ := ih (p₁.ended hc) (by omega) h₂
        refine ⟨xs ++ zs, p₁.trans p₂, fun d' hd' hn j hj => ?_⟩
        obtain ⟨j, rfl⟩ := Nat.exists_eq_add_one_of_ne_zero (Nat.ne_zero_of_lt hj)
        rw [Cursor.before_append] at hj ⊢
        have here : (d'.before zs).peek = c₁.peek := by
          rw [p₂.eq_before]
          exact Cursor.peek_before_congr hn zs
        have length : (d'.before zs).ahead.length < j := by
          have := List.length_pos_iff.mpr hne
          simp only [Cursor.ahead_before, List.length_append] at hj ⊢
          omega
        rw [manyUpTo, bind_of_ok (@run (d'.before zs) hd' here)]
        dsimp only
        rw [bind_of_ok (runs hd' hn j length)]
        rfl
  obtain ⟨ts, c₁, h₁, h⟩ := bind_ok h
  cases h₁
  obtain ⟨xs, px, run⟩ := loop _ hc (Nat.lt_succ_self _) h
  refine ⟨xs, px, fun d' hd' hn => ?_⟩
  rw [Parse.many, bind_of_ok (ahead_apply _)]
  exact run hd' hn _ (Nat.lt_succ_self _)

end Settled

/-- A part up to its last token, with one or the other text behind that token. -/
def Ending.closing (part : Portion) (d d' : Cursor) : Ending :=
  ⟨part, d.advance.ahead, d'.advance.ahead⟩

section

variable {p p' : Parse α} {D : List Token → α → Prop}

/-- Up to the last token of a part two readings are the same. -/
theorem Linked.parted (part : Portion) (hp : Reads p' D) (hc : c.Ended) (px : c.Passes xs d)
    (hr : p c = .ok (a, d)) (hd' : d'.Ended) (hn : d'.peek = d.peek) (hP : P p₀)
    (hat : ∀ q, Q q → (Ending.closing part d d').At q.within d.peek.kind)
    (hw : Walks (.closing part d d') P xs Q)
    (hb : Linked.Cursors (.closing part d d') P c (d'.before xs) →
      Outcome (Linked.Cursors (.closing part d d') Q) (p c) (p' (d'.before xs))) :
    p' (d'.before xs) = .ok (a, d') := by
  have some (k : Kind) (hk : k ∉ [Kind.rBrace, .semicolon, .rParen, .colon]) : d.peek.kind ≠ k := by
    obtain ⟨q, hq, -⟩ := hw p₀ hP
    exact Ending.kind_ne (hat q hq) hk
  have ahead : d.ahead = d.peek :: d.advance.ahead :=
    Cursor.ahead_of_peek (px.ended hc) (some _ (by decide))
  have ahead' : d'.ahead = d.peek :: d'.advance.ahead := by
    rw [← hn]
    exact Cursor.ahead_of_peek hd' (hn ▸ some _ (by decide))
  have linked : Linked.Cursors (.closing part d d') P c (d'.before xs) := by
    rw [px.eq_before, Cursor.before, Cursor.before, ahead, ahead']
    exact hw.cursors hP hat (px.ended hc) hd'
  have out := hb linked
  rw [hr] at out
  generalize hr' : p' (d'.before xs) = r at out
  cases out with
  | @ok _ _ b hb =>
    obtain ⟨zs, pz, -⟩ := hp (show (d'.before xs).Ended from hd') hr'
    have next : d.peek.kind ∉ [Kind.comma, .eof] := by
      simp [some .comma (by decide), some .eof (by decide)]
    have peek := hb.peek_eq next
    have right := hb.ended_part hat
    have whole : b.ahead = d'.ahead := by
      rw [Cursor.ahead_of_peek (pz.ended hd') (peek ▸ some _ (by decide)), peek, right, ahead']
      rfl
    rw [show b = d' from congr (congrArg Cursor.mk whole) pz.finish]

theorem Linked.enclosed (hp : Reads p' D) (hc : c.Ended) (px : c.Passes xs d)
    (hr : p c = .ok (a, d)) (hk : d.peek.kind = .rParen ∨ d.peek.kind = .rBrace) (hd' : d'.Ended)
    (hn : d'.peek = d.peek) (hP : P p₀) (hQ : ∀ q, Q q → q.within = [])
    (hw : Walks (.closing .enclosed d d') P xs Q)
    (hb : Linked.Cursors (.closing .enclosed d d') P c (d'.before xs) →
      Outcome (Linked.Cursors (.closing .enclosed d d') Q) (p c) (p' (d'.before xs))) :
    p' (d'.before xs) = .ok (a, d') :=
  Linked.parted .enclosed hp hc px hr hd' hn hP
    (fun q hq => .inr (.inr (.inl ⟨rfl, hQ q hq, hk⟩))) hw hb

end

namespace Grammar

/-- A keyword with a name, with what stands in braces, or with both. -/
def tagged (items : Parse α) (whole : Token → Option Token → α → Token → Node)
    (named : Token → Token → Node) : Parse Node := do
  let keyword ← advance
  let name ← eat? .ident
  if ← eat .lBrace then
    let items ← items
    let close ← expect .rBrace
    return whole keyword name items close
  else
    match name with
    | some name => return named keyword name
    | none => fail [.token .ident, .token .lBrace]

theorem tagged_settled {items : Parse α} {whole : Token → Option Token → α → Token → Node}
    {named : Token → Token → Node} (hc : c.Ended) (hk : c.peek.kind ≠ .eof)
    (hi : ∀ {c d a}, c.Ended → items c = .ok (a, d) → d.peek.kind = .rBrace → Settled items c a d)
    (h : tagged items whole named c = .ok (n, d)) : Settled (tagged items whole named) c n d := by
  obtain ⟨kw, c₁, h₁, h⟩ := bind_ok h
  obtain ⟨-, p₁⟩ := advance_ok h₁ hc hk
  obtain ⟨name, c₂, h₂, h⟩ := bind_ok h
  obtain ⟨p₂, hname, hnone⟩ := eat?_ok h₂ (p₁.ended hc) (by decide)
  have hc₂ := p₂.ended (p₁.ended hc)
  obtain ⟨b, c₃, h₃, h⟩ := bind_ok h
  obtain ⟨rfl, l, hl, p₃⟩ | ⟨rfl, rfl, hl⟩ := eat_ok h₃ hc₂ (by decide)
  · obtain ⟨as, c₄, h₄, h⟩ := bind_ok h
    obtain ⟨r, c₅, h₅, h⟩ := bind_ok h
    obtain ⟨xs, p₄, run⟩ := hi (p₃.ended hc₂) h₄ (peek_of_expect h₅)
    obtain ⟨hr, p₅⟩ := expect_ok h₅ (p₄.ended (p₃.ended hc₂)) (by decide)
    obtain ⟨rfl, rfl⟩ := pure_ok h
    refine ⟨_, p₁.trans (p₂.trans (p₃.trans (p₄.trans p₅))), fun d' hd' _ => ?_⟩
    have items : items ((d'.before [r]).before xs) = .ok (as, d'.before [r]) :=
      run hd' (by rw [p₅.eq_before]; rfl)
    have first : eat? .ident (((d'.before [r]).before xs).before [l] |>.before name.toList) =
        .ok (name, ((d'.before [r]).before xs).before [l]) :=
      eat?_before hname fun _ => by rw [Cursor.peek_before_cons, hl]; decide
    simp only [Cursor.before_append]
    rw [tagged, bind_of_ok (advance_apply _), Cursor.peek_before_cons, Cursor.advance_before_cons,
      Cursor.before_nil, bind_of_ok first, bind_of_ok (eat_before hl), if_pos rfl, bind_of_ok items,
      bind_of_ok (expect_before hr)]
    rfl
  · cases name with
    | none => cases h
    | some t =>
      obtain ⟨rfl, rfl⟩ := pure_ok h
      refine ⟨_, p₁.trans p₂, fun d' hd' hn => ?_⟩
      have first : eat? .ident (d'.before [t]) = .ok (some t, d') := eat?_before hname nofun
      rw [Cursor.before_append, tagged, bind_of_ok (advance_apply _), Cursor.peek_before_cons,
        Cursor.advance_before_cons, Cursor.before_nil, Option.toList_some, bind_of_ok first,
        bind_of_ok (eat_of_ne (hn ▸ hl))]
      rfl

section

variable (h : ∀ e, Linked.Nesteds e deep)
include h

theorem members_settled {ms : List Node} (hc : c.Ended)
    (hr : manyUntil .rBrace (member deep) c = .ok (ms, d)) (hk : d.peek.kind = .rBrace) :
    Settled (manyUntil .rBrace (member deep)) c ms d := by
  have reads : Reads (manyUntil .rBrace (member deep)) _ :=
    manyUntil_reads (member_reads (h ⟨.source, [], []⟩).sound)
  obtain ⟨xs, px, hm⟩ := reads hc hr
  refine ⟨xs, px, fun d' hd' hn => ?_⟩
  have apart : ¬ (Ending.closing .enclosed d d').At [] .semicolon :=
    Ending.not_at_semicolon_of nofun
  have plain : (Ending.closing .enclosed d d').PlainColon [] := Ending.plainColon_of nofun nofun
  exact Linked.enclosed (P := At [] .block) (Q := At [] .block) reads hc px hr (.inr hk) hd' hn rfl
    (by rintro _ rfl; rfl) (hm.walks (s := []) ⟨⟨by simp, plain, apart⟩, fun _ h => h⟩)
    (members_blind (h _) (by simp) plain apart ·)

theorem structSpecifier_settled (hc : c.Ended) (hk : c.peek.kind ≠ .eof)
    (hr : structSpecifier deep c = .ok (n, d)) : Settled (structSpecifier deep) c n d :=
  tagged_settled hc hk (members_settled h) hr

theorem enumerators_settled {es : List Node} (hc : c.Ended)
    (hr : bracedItems (enumerator deep) c = .ok (es, d)) (hk : d.peek.kind = .rBrace) :
    Settled (bracedItems (enumerator deep)) c es d := by
  have item := enumerator_reads (h ⟨.source, [], []⟩).sound
  have reads := bracedItems_reads item
  obtain ⟨xs, px, he⟩ := reads hc hr
  refine ⟨xs, px, fun d' hd' hn => ?_⟩
  have fits : (Phrase.braced .enumerator).Fits (.closing .enclosed d d') [] :=
    ⟨trivial, fun _ h => h.free (by decide), fun _ h => h⟩
  exact Linked.enclosed (P := At [] .list) (Q := Free []) reads hc px hr (.inr hk) hd' hn rfl
    (by rintro _ ⟨_, _, rfl⟩; rfl) (he.walks fits) (Blind.separatedItems item (by simp)
      (fun _ _ hc => enumerator_blind (h _) hc.free_list) ·)

theorem enumSpecifier_settled (hc : c.Ended) (hk : c.peek.kind ≠ .eof)
    (hr : enumSpecifier deep c = .ok (n, d)) : Settled (enumSpecifier deep) c n d :=
  tagged_settled hc hk (enumerators_settled h) hr

abbrev typeNameUpTo (deep : Nested) (n : Nat) : Parse Node := do
  typeNameOf deep (← specifiersUpTo deep n false)

theorem atomicSpecifier_settled {m : Nat} (hc : c.Ended) (hk : c.peek.kind = .kwAtomic)
    (hm : c.ahead.length ≤ m) (hr : atomicSpecifier (typeNameUpTo deep m) c = .ok (n, d)) :
    ∃ xs, c.Passes xs d ∧ ∀ ⦃d' m'⦄, d'.Ended → (d'.before xs).ahead.length ≤ m' →
      atomicSpecifier (typeNameUpTo deep m') (d'.before xs) = .ok (n, d') := by
  obtain ⟨kw, c₁, h₁, hr⟩ := bind_ok hr
  obtain ⟨-, p₁⟩ := advance_ok h₁ hc (by rw [hk]; decide)
  obtain ⟨l, c₂, h₂, hr⟩ := bind_ok hr
  obtain ⟨hl, p₂⟩ := expect_ok h₂ (p₁.ended hc) (by decide)
  have hc₂ := p₂.ended (p₁.ended hc)
  obtain ⟨t, c₃, h₃, hr⟩ := bind_ok hr
  have reads (m : Nat) := typeNameUpTo_reads (h ⟨.source, [], []⟩).sound m
  obtain ⟨xs, p₃, ht⟩ := reads m hc₂ h₃
  obtain ⟨r, c₄, h₄, hr⟩ := bind_ok hr
  obtain ⟨hrp, p₄⟩ := expect_ok h₄ (p₃.ended hc₂) (by decide)
  obtain ⟨rfl, rfl⟩ := pure_ok hr
  refine ⟨_, p₁.trans (p₂.trans (p₃.trans p₄)), fun d' m' hd' hm' => ?_⟩
  have name : typeNameUpTo deep m' ((d'.before [r]).before xs) = .ok (t, d'.before [r]) := by
    refine Linked.enclosed (P := Free []) (Q := Free []) (reads m') hc₂ p₃ h₃
      (.inl (peek_of_expect h₄)) hd' (by rw [p₄.eq_before]; rfl)
      ⟨.block, by decide, rfl⟩ (by rintro _ ⟨_, _, rfl⟩; rfl) (ht.walks trivial) fun hb => ?_
    refine .bind (specifiersUpTo_blind (h _) m ?_ ?_ hb) fun hb =>
      typeNameOf_blind (h _) (by simp) hb
    · have := (p₁.trans p₂).length_lt (by simp)
      omega
    · simp only [Cursor.ahead_before, List.length_append, List.length_cons, List.length_nil]
        at hm' ⊢
      omega
  simp only [Cursor.before_append]
  rw [atomicSpecifier, bind_of_ok (advance_apply _), Cursor.peek_before_cons,
    Cursor.advance_before_cons, Cursor.before_nil, bind_of_ok (expect_before hl), bind_of_ok name,
    bind_of_ok (expect_before hrp)]
  rfl

/-- One specifier before a token of kind `k`, where `paren` tells whether a parenthesis comes after
that token. -/
def specifierAt (deep : Nested) (typeName : Parse Node) (seenType : Bool) (k : Kind)
    (paren : Bool) : Parse (Option (Node × Bool)) := do
  if k == .kwAtomic && paren then return some (← atomicSpecifier typeName, true)
  else if k.is .storageClass || k.is .typeQualifier || k.is .functionSpecifier then
    return some ((← advance).keywordNode, seenType)
  else if k.is .typeKeyword then return some ((← advance).keywordNode, true)
  else if k.is .structOrUnion then return some (← deep.struct, true)
  else if k == .kwEnum then return some (← enumSpecifier deep, true)
  else if k == .ident && !seenType then return some ((← advance).identNode, true)
  else return none

omit h in
theorem specifier?_apply (typeName : Parse Node) (seenType : Bool) (c : Cursor) :
    specifier? deep typeName seenType c = specifierAt deep typeName seenType c.peek.kind
      (c.ahead[1]?.any (·.kind == .lParen)) c := rfl

omit h in
/-- Where a specifier is missing, the next kind alone decides. -/
theorem specifierAt_none {tn : Parse Node} {seen paren : Bool}
    (hr : specifierAt deep tn seen k paren c = .ok (none, d)) (tn' : Parse Node) (paren' : Bool)
    (c' : Cursor) : specifierAt deep tn' seen k paren' c' = .ok (none, c') := by
  have some {α : Type} {p : Parse α} {f : α → Node × Bool} :
      (p >>= fun a => pure (some (f a))) c ≠ .ok (none, d) := by
    intro hr
    obtain ⟨a, c₁, -, hr⟩ := bind_ok hr
    cases hr
  have qualifier : Kind.is .kwAtomic .typeQualifier = true := rfl
  rw [specifierAt] at hr
  split at hr
  next => exact absurd hr some
  split at hr
  next => exact absurd hr some
  next h₂ =>
  split at hr
  next => exact absurd hr some
  next h₃ =>
  split at hr
  next => exact absurd hr some
  next h₄ =>
  split at hr
  next => exact absurd hr some
  next h₅ =>
  split at hr
  next => exact absurd hr some
  next h₆ =>
    have h₁ : ¬ (k == .kwAtomic && paren') = true := by
      intro ha
      rw [eq_of_beq (Bool.and_eq_true_iff.mp ha).1] at h₂
      exact h₂ rfl
    rw [specifierAt, if_neg h₁, if_neg h₂, if_neg h₃, if_neg h₄, if_neg h₅, if_neg h₆]
    rfl

variable (hs : ∀ {c d n}, c.Ended → c.peek.kind ≠ .eof → deep.struct c = .ok (n, d) →
  Settled deep.struct c n d)
include hs

theorem specifierAt_settled {m : Nat} {seen paren : Bool} {r : Node × Bool} (hc : c.Ended)
    (hm : c.ahead.length ≤ m)
    (hr : specifierAt deep (typeNameUpTo deep m) seen c.peek.kind paren c = .ok (some r, d)) :
    ∃ xs, c.Passes xs d ∧ ∀ ⦃d' m'⦄, d'.Ended → d'.peek = d.peek →
      (d'.before xs).ahead.length ≤ m' →
      specifierAt deep (typeNameUpTo deep m') seen c.peek.kind paren (d'.before xs) =
        .ok (some r, d') := by
  have word {k : Kind} (hk : c.peek.kind = k) (hne : k ≠ .eof) {f : Token → Node × Bool}
      (hr : (advance >>= fun t => pure (some (f t))) c = .ok (some r, d)) :
      Settled (advance >>= fun t => pure (some (f t))) c (some r) d :=
    .bind_pure (fun _ h => .advance hc (hk ▸ hne) h) hr
  rw [specifierAt] at hr
  split at hr
  next ha =>
    obtain ⟨t, c₁, h₁, hr⟩ := bind_ok hr
    obtain ⟨ht, rfl⟩ := pure_ok hr
    have hk := eq_of_beq (Bool.and_eq_true_iff.mp ha).1
    obtain ⟨xs, px, run⟩ := atomicSpecifier_settled h hc hk hm h₁
    refine ⟨xs, px, fun d' m' hd' _ hm' => ?_⟩
    rw [specifierAt, if_pos ha, bind_of_ok (run hd' hm'), ht]
    rfl
  next h₁ =>
  split at hr
  next hk =>
    have hne : c.peek.kind ≠ .eof := by
      simp only [Bool.or_eq_true] at hk
      exact hk.elim (·.elim Kind.ne_eof_of_is Kind.ne_eof_of_is) Kind.ne_eof_of_is
    obtain ⟨xs, px, run⟩ := word rfl hne hr
    refine ⟨xs, px, fun d' m' hd' hn _ => ?_⟩
    rw [specifierAt, if_neg h₁, if_pos hk]
    exact run hd' hn
  next h₂ =>
  split at hr
  next hk =>
    obtain ⟨xs, px, run⟩ := word rfl (Kind.ne_eof_of_is hk) hr
    refine ⟨xs, px, fun d' m' hd' hn _ => ?_⟩
    rw [specifierAt, if_neg h₁, if_neg h₂, if_pos hk]
    exact run hd' hn
  next h₃ =>
  split at hr
  next hk =>
    obtain ⟨xs, px, run⟩ := Settled.bind_pure (fun _ h => hs hc (Kind.ne_eof_of_is hk) h) hr
    refine ⟨xs, px, fun d' m' hd' hn _ => ?_⟩
    rw [specifierAt, if_neg h₁, if_neg h₂, if_neg h₃, if_pos hk]
    exact run hd' hn
  next h₄ =>
  split at hr
  next hk =>
    have hne : c.peek.kind ≠ .eof := by rw [eq_of_beq hk]; decide
    obtain ⟨xs, px, run⟩ := Settled.bind_pure (fun _ hr => enumSpecifier_settled h hc hne hr) hr
    refine ⟨xs, px, fun d' m' hd' hn _ => ?_⟩
    rw [specifierAt, if_neg h₁, if_neg h₂, if_neg h₃, if_neg h₄, if_pos hk]
    exact run hd' hn
  next h₅ =>
  split at hr
  next hk =>
    obtain ⟨xs, px, run⟩ := word (eq_of_beq (Bool.and_eq_true_iff.mp hk).1) (by decide) hr
    refine ⟨xs, px, fun d' m' hd' hn _ => ?_⟩
    rw [specifierAt, if_neg h₁, if_neg h₂, if_neg h₃, if_neg h₄, if_neg h₅, if_pos hk]
    exact run hd' hn
  next => cases hr

theorem specifiersUpTo_settled (m : Nat) : ∀ {seen c ns}, c.Ended → c.ahead.length < m →
    specifiersUpTo deep m seen c = .ok (ns, d) → ∃ xs, c.Passes xs d ∧
      ∀ ⦃d' m'⦄, d'.Ended → d'.peek = d.peek → (d'.before xs).ahead.length < m' →
        specifiersUpTo deep m' seen (d'.before xs) = .ok (ns, d') := by
  induction m with
  | zero => exact fun _ hm => absurd hm (Nat.not_lt_zero _)
  | succ m ih =>
    intro seen c ns hc hm hr
    obtain ⟨o, c₁, h₁, hr⟩ := bind_ok hr
    have sound := (h ⟨.source, [], []⟩).sound
    have reads := specifier?_reads sound (typeNameUpTo_reads sound m) seen hc h₁
    rw [specifier?_apply] at h₁
    cases o with
    | none =>
      obtain ⟨_, px, rfl⟩ := reads
      obtain ⟨rfl, rfl⟩ := pure_ok hr
      refine ⟨[], px, fun d' m' hd' hn hm' => ?_⟩
      obtain ⟨m', rfl⟩ := Nat.exists_eq_add_one_of_ne_zero (Nat.ne_zero_of_lt hm')
      rw [Cursor.before_nil, specifiersUpTo, bind_of_ok (d := d') (a := none)]
      · rfl
      · rw [show c = d from px.eq_before] at h₁
        rw [specifier?_apply, hn]
        exact specifierAt_none h₁ _ _ _
    | some r =>
      obtain ⟨ns', c₂, h₂, hr⟩ := bind_ok hr
      obtain ⟨rfl, rfl⟩ := pure_ok hr
      obtain ⟨zs, pz, hz⟩ := reads
      have shorter := pz.length_lt hz.ne_nil
      obtain ⟨xs, p₁, run⟩ := specifierAt_settled h hs hc (Nat.le_of_lt_succ hm) h₁
      have hne : xs ≠ [] := by
        rintro rfl
        rw [p₁.ahead] at shorter
        exact absurd shorter (Nat.lt_irrefl _)
      obtain ⟨ys, p₂, runs⟩ := ih (p₁.ended hc) (by omega) h₂
      refine ⟨xs ++ ys, p₁.trans p₂, fun d' m' hd' hn hm' => ?_⟩
      obtain ⟨m', rfl⟩ := Nat.exists_eq_add_one_of_ne_zero (Nat.ne_zero_of_lt hm')
      rw [Cursor.before_append] at hm' ⊢
      have here : (d'.before ys).peek = c₁.peek := by
        rw [p₂.eq_before]
        exact Cursor.peek_before_congr hn ys
      have next := @run (d'.before ys) _ hd' here (Nat.le_of_lt_succ hm')
      have first : specifier? deep (typeNameUpTo deep m') seen ((d'.before ys).before xs) =
          .ok (some r, d'.before ys) := by
        have same : c.peek = ((d'.before ys).before xs).peek := by
          rw [p₁.eq_before]
          exact (Cursor.peek_before_congr here xs).symm
        have ended : (d'.before ys).Ended := hd'
        have second := ended.second_before_congr (k := .lParen) (p₁.ended hc) here hne (by decide)
        rw [specifier?_apply, ← same, second, ← p₁.eq_before]
        exact next
      have length : (d'.before ys).ahead.length < m' := by
        have := List.length_pos_iff.mpr hne
        simp only [Cursor.ahead_before, List.length_append] at hm' ⊢
        omega
      rw [specifiersUpTo, bind_of_ok first]
      dsimp only
      rw [bind_of_ok (runs hd' hn length)]
      rfl

theorem declSpecs_settled (hc : c.Ended) (hr : declSpecs deep c = .ok (n, d)) :
    Settled (declSpecs deep) c n d := by
  obtain ⟨ns, c₁, h₁, hr⟩ := bind_ok hr
  obtain ⟨hne, rfl, rfl⟩ := specifierNode_ok hr
  obtain ⟨xs, px, run⟩ := specifiersUpTo_settled h hs _ hc (Nat.lt_succ_self _) h₁
  refine ⟨xs, px, fun d' hd' hn => ?_⟩
  have list : specifierList deep (d'.before xs) = .ok (ns, d') := run hd' hn (Nat.lt_succ_self _)
  rw [declSpecs, bind_of_ok list, specifierNode, if_neg (by simpa using hne)]
  rfl

end

end Grammar

end CPretty
