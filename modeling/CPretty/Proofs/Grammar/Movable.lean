import CPretty.Proofs.Grammar.Attached
import CPretty.Proofs.Grammar.Settled

namespace CPretty

open Parse Place Linked

variable {α β : Type} {c d : Cursor} {k : Kind} {n : Node} {xs : List Token} {deep : Nested}

theorem Cursor.Passes.peek_before (h : c.Passes xs d) (hx : xs ≠ []) (d' : Cursor) :
    (d'.before xs).peek = c.peek := by
  obtain ⟨t, ts, rfl⟩ := List.exists_cons_of_ne_nil hx
  rw [h.eq_before]
  rfl

/-- Where the parser succeeds, it reads the same from the tokens that it passes with another text
behind them, as long as the first kind there suits the value. -/
def Movable (N : α → Kind → Prop) (p : Parse α) (c : Cursor) : Prop :=
  ∀ ⦃a d⦄, p c = .ok (a, d) → ∃ xs, c.Passes xs d ∧
    ∀ ⦃d' : Cursor⦄, d'.Ended → N a d'.peek.kind → p (d'.before xs) = .ok (a, d')

abbrev Anything (_ : α) (_ : Kind) : Prop := True

namespace Movable

variable {N : α → Kind → Prop} {M : β → Kind → Prop} {p : Parse α}

protected theorem pure (a : α) : Movable N (Pure.pure a : Parse α) c := by
  intro _ _ h
  cases h
  exact ⟨[], .refl c, fun _ _ _ => rfl⟩

theorem settled {a : α} (h : Movable N p c) (hr : p c = .ok (a, d)) (hn : N a d.peek.kind) :
    Settled p c a d := by
  obtain ⟨xs, px, run⟩ := h hr
  exact ⟨xs, px, fun d' hd' hd => run hd' (hd ▸ hn)⟩

/-- A part, and another one behind it that begins with what suits the first. -/
theorem bindNext {f : α → Parse β} (hc : c.Ended) (hp : Movable N p c)
    (hf : ∀ {a d}, p c = .ok (a, d) → d.Ended → Movable M (f a) d)
    (next : ∀ {a b d e xs}, p c = .ok (a, d) → f a d = .ok (b, e) → d.Passes xs e →
      ∀ d' : Cursor, M b d'.peek.kind → N a (d'.before xs).peek.kind) :
    Movable M (p >>= f) c := by
  intro b e h
  obtain ⟨a, d, h₁, h₂⟩ := bind_ok h
  obtain ⟨xs, px, run⟩ := hp h₁
  obtain ⟨ys, py, run'⟩ := hf h₁ (px.ended hc) h₂
  refine ⟨xs ++ ys, px.trans py, fun d' hd' hm => ?_⟩
  have first : p ((d'.before ys).before xs) = .ok (a, d'.before ys) :=
    run hd' (next h₁ h₂ py d' hm)
  rw [Cursor.before_append, bind_of_ok first]
  exact run' hd' hm

theorem bind {f : α → Parse β} (hc : c.Ended) (hp : Movable Anything p c)
    (hf : ∀ {a d}, d.Ended → Movable M (f a) d) : Movable M (p >>= f) c :=
  hp.bindNext hc (fun _ hd => hf hd) fun _ _ _ _ _ => trivial

theorem advance {f : Token → Parse β} (hc : c.Ended) (hk : c.peek.kind ≠ .eof)
    (hf : ∀ {t d}, Eats c t d → Movable M (f t) d) : Movable M (Parse.advance >>= f) c := by
  have token : Movable Anything Parse.advance c := by
    intro t d h
    exact ⟨[t], (advance_ok h hc hk).2, fun _ _ _ => rfl⟩
  exact token.bindNext hc (fun h _ => hf (.of_passes hc (advance_ok h hc hk).2))
    fun _ _ _ _ _ => trivial

theorem expect {f : Token → Parse β} (hc : c.Ended) (hk : k ≠ .eof)
    (hf : ∀ {t d}, Eats c t d → Movable M (f t) d) : Movable M (Parse.expect k >>= f) c := by
  have token : Movable Anything (Parse.expect k) c := by
    intro t d h
    obtain ⟨ht, p⟩ := expect_ok h hc hk
    exact ⟨[t], p, fun _ _ _ => expect_before ht⟩
  exact token.bindNext hc (fun h _ => hf (.of_passes hc (expect_ok h hc hk).2))
    fun _ _ _ _ _ => trivial

theorem closed {f : α → Token → Parse β} (hc : c.Ended) (hk : k ≠ .eof)
    (hp : ∀ {a d}, p c = .ok (a, d) → d.peek.kind = k → Settled p c a d)
    (hf : ∀ {a t d}, d.Ended → Movable M (f a t) d) :
    Movable M (p >>= fun a => Parse.expect k >>= f a) c := by
  intro b e h
  obtain ⟨a, c₁, h₁, h⟩ := bind_ok h
  obtain ⟨t, c₂, h₂, h⟩ := bind_ok h
  obtain ⟨xs, p₁, run⟩ := hp h₁ (peek_of_expect h₂)
  obtain ⟨ht, p₂⟩ := expect_ok h₂ (p₁.ended hc) hk
  obtain ⟨ys, p₃, run'⟩ := hf (p₂.ended (p₁.ended hc)) h
  refine ⟨xs ++ ([t] ++ ys), p₁.trans (p₂.trans p₃), fun d' hd' hm => ?_⟩
  have first : p (((d'.before ys).before [t]).before xs) = .ok (a, (d'.before ys).before [t]) :=
    run hd' (by rw [p₂.eq_before]; rfl)
  rw [Cursor.before_append, Cursor.before_append, bind_of_ok first, bind_of_ok (expect_before ht)]
  exact run' hd' hm

theorem length_le {a : α} (h : Movable N p c) (hr : p c = .ok (a, d)) :
    d.ahead.length ≤ c.ahead.length := by
  obtain ⟨xs, px, -⟩ := h hr
  exact px.length_le

theorem peekKind {f : Kind → Parse β} (h : Movable M (f c.peek.kind) c)
    (shorter : ∀ {b d}, f c.peek.kind c = .ok (b, d) → d.ahead.length < c.ahead.length) :
    Movable M (Parse.peekKind >>= f) c := by
  intro b d hr
  obtain ⟨xs, px, run⟩ := h hr
  have some : xs ≠ [] := by
    rintro rfl
    have := shorter hr
    rw [px.ahead] at this
    exact absurd this (Nat.lt_irrefl _)
  refine ⟨xs, px, fun d' hd' hm => ?_⟩
  rw [bind_of_ok (peekKind_apply _), px.peek_before some]
  exact run hd' hm

/-- A part that may be left out, up to a token that closes it. -/
theorem before {f : Option α → Token → Parse β} (hc : c.Ended) (hk : k ≠ .eof)
    (hp : ∀ {a d}, p c = .ok (a, d) → d.peek.kind = k → Settled p c a d)
    (hf : ∀ {o t d}, d.Ended → Movable M (f o t) d) :
    Movable M (Parse.check k >>= fun b =>
      if b then Pure.pure none >>= fun o => Parse.expect k >>= f o
      else some <$> p >>= fun o => Parse.expect k >>= f o) c := by
  have part {o : Option α} {d : Cursor} (h : (some <$> p) c = .ok (o, d)) (hk : d.peek.kind = k) :
      Settled (some <$> p) c o d := by
    obtain ⟨a, h₁, rfl⟩ := map_ok h
    obtain ⟨xs, px, run⟩ := hp h₁ hk
    refine ⟨xs, px, fun d' hd' hn => ?_⟩
    rw [map_eq_pure_bind, bind_of_ok (run hd' hn)]
    rfl
  -- Either way the closing token is passed.
  have closing (o : Option α) {d : Cursor} {b : β} {e : Cursor} (hd : d.Ended)
      (h : (Parse.expect k >>= f o) d = .ok (b, e)) : e.ahead.length < d.ahead.length := by
    obtain ⟨t, c₁, h₁, h⟩ := bind_ok h
    obtain ⟨-, p₁⟩ := expect_ok h₁ hd hk
    exact Nat.lt_of_le_of_lt ((hf (p₁.ended hd)).length_le h) (p₁.length_lt (List.cons_ne_nil _ _))
  refine peekKind (f := fun k' => if k' == k then _ else _) ?_ fun {b e} h => ?_
  · split
    · exact .expect hc hk fun ht => hf ht.after
    · exact .closed hc hk part hf
  · split at h
    · exact closing none hc h
    · obtain ⟨o, c₁, h₁, h⟩ := bind_ok h
      obtain ⟨t, c₂, h₂, -⟩ := bind_ok h
      obtain ⟨xs, px, -⟩ := part h₁ (peek_of_expect h₂)
      exact Nat.lt_of_lt_of_le (closing o (px.ended hc) h) px.length_le

end Movable

theorem Derives.forInit_walks (h : Derives .forInit xs [n]) {e : Ending} :
    ∃ ys t, xs = ys ++ [t] ∧ t.kind = .semicolon ∧ Walks e (Free []) ys (Free []) := by
  cases h with
  | initDeclaration h => exact h.declaration_walks
  | initStatement h =>
    cases h with
    | exprStatement h ht =>
      exact ⟨_, _, rfl, ht, h.walks ⟨by simp [Phrase.Fits], fun _ h => h⟩⟩

namespace Grammar

section

variable (h : ∀ e, Linked.Nesteds e deep)
include h

theorem expression_settled (part : Portion) (hc : c.Ended) (hr : expression deep c = .ok (n, d))
    (hat : ∀ d', (Ending.closing part d d').At [] d.peek.kind) :
    Settled (expression deep) c n d := by
  have reads := expression_reads (h ⟨.source, [], []⟩).sound
  obtain ⟨xs, px, hx⟩ := reads hc hr
  refine ⟨xs, px, fun d' hd' hn => ?_⟩
  exact Linked.parted part (P := Free []) (Q := Free []) reads hc px hr hd' hn
    ⟨.block, by decide, rfl⟩ (by rintro _ ⟨_, _, rfl⟩; exact hat d')
    (hx.walks (s := []) (by simp [Phrase.Fits])).toFree (expression_blind (h _) (by simp) ·)

theorem conditional_settled (hc : c.Ended) (hr : conditional deep c = .ok (n, d))
    (hk : d.peek.kind = .colon) : Settled (conditional deep) c n d := by
  have reads := conditional_reads (h ⟨.source, [], []⟩).sound
  obtain ⟨xs, px, hx⟩ := reads hc hr
  refine ⟨xs, px, fun d' hd' hn => ?_⟩
  exact Linked.parted .label (P := Free []) (Q := Free []) reads hc px hr hd' hn
    ⟨.block, by decide, rfl⟩ (by rintro _ ⟨_, _, rfl⟩; exact .inr (.inr (.inr ⟨rfl, rfl, hk⟩)))
    (hx.walks (s := []) trivial).toFree (conditional_blind (h _) ·)

theorem condition_movable {N : Node → Kind → Prop} (hc : c.Ended) :
    Movable N (condition deep) c := by
  refine .expect hc (by decide) fun hl =>
    .closed hl.after (by decide) (fun hr hk => ?_) fun _ => .pure _
  exact expression_settled h .enclosed hl.after hr fun _ => .inr (.inr (.inl ⟨rfl, rfl, .inl hk⟩))

theorem terminated_movable {N : Node → Kind → Prop} (hc : c.Ended)
    (f : Option Node → Token → Node) : Movable N (do
      let e ← if ← check .semicolon then pure none else some <$> expression deep
      let semi ← expect .semicolon
      return f e semi) c :=
  .before hc (by decide)
    (fun hr hk => expression_settled h .declaration hc hr fun _ => .inr (.inl ⟨rfl, rfl, hk⟩))
    fun _ => .pure _

theorem compound_movable {N : Node → Kind → Prop} (hc : c.Ended) : Movable N (compound deep) c := by
  intro n d hr
  have reads := compound_reads (h ⟨.source, [], []⟩).sound
  obtain ⟨xs, px, hx⟩ := reads hc hr
  refine ⟨xs, px, fun d' hd' _ => ?_⟩
  let e : Ending := ⟨.definition, d.ahead, d'.ahead⟩
  obtain ⟨ys, t, rfl, ht, hw⟩ := hx.compound_walks (e := e)
  have linked : Linked.Cursors e (At [] .block) c (d'.before (ys ++ [t])) :=
    cursors_append px hc hd' hw (by rintro _ rfl; exact .inl ⟨rfl, rfl, ht⟩) rfl
  have out := compound_outcome (Q := fun _ b => b.ahead = d'.ahead) (h e) linked
    fun hk hb => hb.ended_part (by rintro _ rfl; exact .inl ⟨rfl, rfl, hk⟩)
  exact out.ok_right reads hd' hr

/-- The first part of a `for`. -/
theorem forInit_movable {N : Node → Kind → Prop} (hc : c.Ended) :
    Movable N (declarationOr deep (expressionStatement deep)) c := by
  intro n d hr
  have sound := (h ⟨.source, [], []⟩).sound
  have reads : ReadsAs (declarationOr deep (expressionStatement deep)) .forInit :=
    declarationOr_reads sound (expressionStatement_reads sound) .initDeclaration .initStatement
  obtain ⟨xs, px, hx⟩ := reads hc hr
  refine ⟨xs, px, fun d' hd' _ => ?_⟩
  let e : Ending := ⟨.declaration, d.ahead, d'.ahead⟩
  obtain ⟨ys, t, rfl, ht, hw⟩ := hx.forInit_walks (e := e)
  have linked : Linked.Cursors e (At [] .block) c (d'.before (ys ++ [t])) := by
    refine cursors_append px hc hd' hw.ofFree ?_ rfl
    rintro _ ⟨_, _, rfl⟩
    exact .inr (.inl ⟨rfl, rfl, ht⟩)
  have semicolon {b b' : Cursor} (hk : b.peek.kind = .semicolon)
      (hb : Linked.Cursors e (Free []) b b') : b'.advance.ahead = d'.ahead :=
    hb.ended_part (by rintro _ ⟨_, _, rfl⟩; exact .inr (.inl ⟨rfl, rfl, hk⟩))
  have out := declarationOr_outcome (Q := fun _ b => b.ahead = d'.ahead) (by simp) linked
    (declaration_outcome (h e) (by simp) linked.free semicolon)
    (expressionStatement_outcome (h e) (by simp) linked.free semicolon)
  exact out.ok_right reads hd' hr

end

section

variable {i : Nat} {keyword t : Token} {cond yes m : Node} {cs ys : List Token}

def ifNode (keyword : Token) (cond yes : Node) (no : Option Node) : Node :=
  Node.between keyword.span (Node.spanOr no yes.span) (.ifStmt cond yes no)

/-- The rest of an `if` after its condition and its first part. -/
def ifRest (deep : Nested) (i : Nat) (keyword : Token) (cond yes : Node) : Parse Node := do
  let no ←
    if ← eat .kwElse then
      if ← check .kwIf then some <$> ifStatementUpTo deep i else some <$> deep.statement
    else pure none
  return ifNode keyword cond yes no

theorem ifStatementUpTo_arm
    (hcond : condition deep ((d.before ys).before cs) = .ok (cond, d.before ys))
    (hyes : deep.statement (d.before ys) = .ok (yes, d)) :
    ifStatementUpTo deep (i + 1) (d.before (keyword :: (cs ++ ys))) =
      ifRest deep i keyword cond yes d := by
  rw [ifStatementUpTo, bind_of_ok (advance_apply _), Cursor.advance_before_cons,
    Cursor.before_append, bind_of_ok hcond, bind_of_ok hyes]
  rfl

theorem ifRest_none (hk : d.peek.kind ≠ .kwElse) :
    ifRest deep i keyword cond yes d = .ok (ifNode keyword cond yes none, d) := by
  rw [ifRest, bind_of_ok (eat_of_ne hk)]
  rfl

theorem ifRest_ladder (ht : t.kind = .kwElse) (hk : (c.before ys).peek.kind = .kwIf)
    (h : ifStatementUpTo deep i (c.before ys) = .ok (m, d)) :
    ifRest deep i keyword cond yes (c.before (t :: ys)) =
      .ok (ifNode keyword cond yes (some m), d) := by
  have hi : (some <$> ifStatementUpTo deep i) (c.before ys) = .ok (some m, d) := by
    rw [map_eq_pure_bind, bind_of_ok h]
    rfl
  have eaten : eat .kwElse (c.before (t :: ys)) = .ok (true, c.before ys) :=
    eat_before (c := c.before ys) ht
  rw [ifRest, bind_of_ok eaten, if_pos rfl, bind_of_ok (check_apply _ _),
    if_pos (beq_iff_eq.mpr hk), bind_of_ok hi]
  rfl

theorem ifRest_last (ht : t.kind = .kwElse) (hk : (c.before ys).peek.kind ≠ .kwIf)
    (h : deep.statement (c.before ys) = .ok (m, d)) :
    ifRest deep i keyword cond yes (c.before (t :: ys)) =
      .ok (ifNode keyword cond yes (some m), d) := by
  have hs : (some <$> deep.statement) (c.before ys) = .ok (some m, d) := by
    rw [map_eq_pure_bind, bind_of_ok h]
    rfl
  have eaten : eat .kwElse (c.before (t :: ys)) = .ok (true, c.before ys) :=
    eat_before (c := c.before ys) ht
  rw [ifRest, bind_of_ok eaten, if_pos rfl, bind_of_ok (check_apply _ _),
    if_neg (by simpa using hk), bind_of_ok hs]
  rfl

theorem ifRest_cases (hc : c.Ended) (h : ifRest deep i keyword cond yes c = .ok (n, d)) :
    (c.peek.kind ≠ .kwElse ∧ d = c ∧ n = ifNode keyword cond yes none) ∨
    ∃ t m b, t.kind = .kwElse ∧ c.Passes [t] b ∧ n = ifNode keyword cond yes (some m) ∧
      (b.peek.kind = .kwIf ∧ ifStatementUpTo deep i b = .ok (m, d) ∨
        b.peek.kind ≠ .kwIf ∧ deep.statement b = .ok (m, d)) := by
  obtain ⟨_, c₁, h₁, h⟩ := bind_ok h
  obtain ⟨rfl, t, ht, p₁⟩ | ⟨rfl, rfl, hk⟩ := eat_ok h₁ hc (by decide)
  · right
    rw [if_pos rfl, bind_of_ok (check_apply _ _)] at h
    split at h
    next hk =>
      obtain ⟨o, c₂, h₂, h⟩ := bind_ok h
      obtain ⟨m, hm, rfl⟩ := map_ok h₂
      obtain ⟨rfl, rfl⟩ := pure_ok h
      exact ⟨t, m, c₁, ht, p₁, rfl, .inl ⟨eq_of_beq hk, hm⟩⟩
    next hk =>
      obtain ⟨o, c₂, h₂, h⟩ := bind_ok h
      obtain ⟨m, hm, rfl⟩ := map_ok h₂
      obtain ⟨rfl, rfl⟩ := pure_ok h
      exact ⟨t, m, c₁, ht, p₁, rfl, .inr ⟨by simpa using hk, hm⟩⟩
  · obtain ⟨rfl, rfl⟩ := pure_ok h
    exact .inl ⟨hk, rfl, rfl⟩

end

end Grammar

/-- The first kind behind the statement is no `else` that would belong to it. -/
def Node.EndsBefore (n : Node) (k : Kind) : Prop := k = .kwElse → ¬ n.EndsOpen

theorem Node.EndsBefore.of_lastPart? {m : Node} (h : n.EndsBefore k) (hm : n.lastPart? = some m) :
    m.EndsBefore k := by
  rintro hk ⟨w, hw, ho⟩
  exact h hk ⟨w, .part hm hw, ho⟩

/-- The productions of statements are read alike wherever they stand. -/
structure Nested.Moving (deep : Nested) : Prop where
  linked : ∀ e, Linked.Nesteds e deep
  finishing : ∀ ts, deep.Finishing ts
  statement : ∀ {c}, c.Ended → Movable Node.EndsBefore deep.statement c

theorem Nested.Moving.sound (h : deep.Moving) : deep.Sound := (h.finishing []).sound

namespace Grammar

variable (hm : deep.Moving)
include hm

theorem governed_movable (hc : c.Ended) {f : Node → Node} (hf : ∀ m, (f m).lastPart? = some m) :
    Movable Node.EndsBefore (deep.statement >>= fun m => pure (f m)) c := by
  refine (hm.statement hc).bindNext hc (fun _ _ => .pure _) ?_
  rintro m n d e xs - h px d' hn
  obtain ⟨rfl, rfl⟩ := pure_ok h
  cases px.eq_nil
  exact hn.of_lastPart? (hf m)

/-- The rest of an `if`, with any bounds beyond the number of tokens left. An `else` stands behind
the first part only where one did before. -/
theorem ifRest_movable {i : Nat} {keyword : Token} {cond yes : Node} (hc : c.Ended)
    (ladder : ∀ {b m d}, b.Ended → b.ahead.length < c.ahead.length → b.peek.kind = .kwIf →
      ifStatementUpTo deep i b = .ok (m, d) → ∃ xs, b.Passes xs d ∧ ∀ ⦃d' : Cursor⦄, d'.Ended →
        m.EndsBefore d'.peek.kind → ∀ j, (d'.before xs).ahead.length < j →
          ifStatementUpTo deep j (d'.before xs) = .ok (m, d'))
    (h : ifRest deep i keyword cond yes c = .ok (n, d)) :
    ∃ xs, c.Passes xs d ∧ ∀ ⦃d' : Cursor⦄, d'.Ended → n.EndsBefore d'.peek.kind →
      ((d'.before xs).peek.kind = .kwElse → c.peek.kind = .kwElse) ∧
        ∀ j, (d'.before xs).ahead.length < j →
          ifRest deep j keyword cond yes (d'.before xs) = .ok (n, d') := by
  obtain ⟨hne, rfl, rfl⟩ | ⟨t, m, b, ht, p₁, rfl, hr⟩ := ifRest_cases hc h
  · refine ⟨[], .refl d, fun d' hd' hn => ?_⟩
    have next : d'.peek.kind ≠ .kwElse := fun he => hn he ⟨_, .refl, rfl⟩
    exact ⟨fun he => absurd he next, fun j _ => ifRest_none next⟩
  · have hb := p₁.ended hc
    have start (zs : List Token) (d' : Cursor) :
        (d'.before (t :: zs)).peek.kind = .kwElse → c.peek.kind = .kwElse := by
      rw [p₁.eq_before]
      exact id
    obtain ⟨hif, hr⟩ | ⟨hif, hr⟩ := hr
    · obtain ⟨zs, p₂, run⟩ := ladder hb (p₁.length_lt (List.cons_ne_nil _ _)) hif hr
      obtain ⟨_, q, hz⟩ := ifStatementUpTo_reads hm.sound hb hif hr
      cases p₂.unique q
      refine ⟨t :: zs, p₁.trans p₂, fun d' hd' hn => ⟨start zs d', fun j hj => ?_⟩⟩
      have next : (d'.before zs).peek.kind = .kwIf := by rw [p₂.peek_before hz.ne_nil, hif]
      have fewer : (d'.before zs).ahead.length < j := Nat.lt_of_succ_lt hj
      exact ifRest_ladder ht next (run hd' (hn.of_lastPart? rfl) j fewer)
    · obtain ⟨zs, p₂, run⟩ := hm.statement hb hr
      obtain ⟨_, q, hz⟩ := hm.sound.statement hb hr
      cases p₂.unique q
      refine ⟨t :: zs, p₁.trans p₂, fun d' hd' hn => ⟨start zs d', fun j _ => ?_⟩⟩
      have next : (d'.before zs).peek.kind ≠ .kwIf := by rwa [p₂.peek_before hz.ne_nil]
      exact ifRest_last ht next (run hd' (hn.of_lastPart? rfl))

/-- A ladder, with any bounds beyond the number of tokens left. -/
theorem ifStatementUpTo_movable (i : Nat) (hc : c.Ended) (hi : c.ahead.length < i)
    (hk : c.peek.kind = .kwIf) (h : ifStatementUpTo deep i c = .ok (n, d)) :
    ∃ xs, c.Passes xs d ∧ ∀ ⦃d' : Cursor⦄, d'.Ended → n.EndsBefore d'.peek.kind →
      ∀ j, (d'.before xs).ahead.length < j →
        ifStatementUpTo deep j (d'.before xs) = .ok (n, d') := by
  induction i generalizing c n d with
  | zero => exact absurd hi (Nat.not_lt_zero _)
  | succ i ih =>
    obtain ⟨kw, c₁, h₁, h⟩ := bind_ok h
    obtain ⟨-, p₁⟩ := advance_of_kind h₁ hc hk (by decide)
    obtain ⟨cond, c₂, h₂, h⟩ := bind_ok h
    obtain ⟨cs, p₂, run₂⟩ := condition_movable (N := Anything) hm.linked (p₁.ended hc) h₂
    have hc₂ := p₂.ended (p₁.ended hc)
    obtain ⟨yes, c₃, h₃, h⟩ := bind_ok h
    obtain ⟨ys, p₃, run₃⟩ := hm.statement hc₂ h₃
    have front : c.Passes (kw :: (cs ++ ys)) c₃ := p₁.trans (p₂.trans p₃)
    have fewer := front.length_lt (List.cons_ne_nil _ _)
    obtain ⟨zs, p₄, run₄⟩ := ifRest_movable hm (p₃.ended hc₂)
      (fun hb hlt hif hr => ih hb (by omega) hif hr) h
    refine ⟨_, front.trans p₄, fun d' hd' hn j hj => ?_⟩
    obtain ⟨j, rfl⟩ := Nat.exists_eq_add_one_of_ne_zero (Nat.ne_zero_of_lt hj)
    obtain ⟨same, rest⟩ := run₄ hd' hn
    -- Behind the first part an `else` stood before, so that it does not take another one.
    have next : yes.EndsBefore (d'.before zs).peek.kind := fun he =>
      ((hm.finishing c₂.ahead).statement ⟨hc₂, List.suffix_rfl⟩ h₃).next (same he)
    have bound : (d'.before zs).ahead.length < j := by
      simp only [Cursor.ahead_before, List.length_append, List.length_cons] at hj ⊢
      omega
    have cond_eq : condition deep (((d'.before zs).before ys).before cs) =
        .ok (cond, (d'.before zs).before ys) := run₂ hd' trivial
    rw [Cursor.before_append, ifStatementUpTo_arm cond_eq (run₃ hd' next)]
    exact rest j bound

theorem ifStatement_movable (hc : c.Ended) (hk : c.peek.kind = .kwIf) :
    Movable Node.EndsBefore (do ifStatementUpTo deep ((← ahead).length + 1)) c := by
  intro n d h
  rw [bind_of_ok (ahead_apply c)] at h
  obtain ⟨xs, px, run⟩ := ifStatementUpTo_movable hm _ hc (Nat.lt_succ_self _) hk h
  refine ⟨xs, px, fun d' hd' hn => ?_⟩
  rw [bind_of_ok (ahead_apply _)]
  exact run hd' hn _ (Nat.lt_succ_self _)

theorem forStatement_movable (hc : c.Ended) (hk : c.peek.kind = .kwFor) :
    Movable Node.EndsBefore (forStatement deep) c := by
  refine .advance hc (by simp [hk]) fun ht => .expect ht.after (by decide) fun hl => ?_
  refine .bind hl.after (forInit_movable hm.linked hl.after) fun hi => ?_
  refine .bind hi (terminated_movable hm.linked hi _) fun hd => ?_
  refine .before hd (by decide) (fun hr hk => expression_settled hm.linked .enclosed hd hr
    fun _ => .inr (.inr (.inl ⟨rfl, rfl, .inl hk⟩))) fun hb => ?_
  exact governed_movable hm hb fun _ => rfl

omit hm in
theorem jump_movable {N : Node → Kind → Prop} {shape : Shape Node} (hc : c.Ended)
    (hk : c.peek.kind ≠ .eof) : Movable N (jump shape) c :=
  .advance hc hk fun ht => .expect ht.after (by decide) fun _ => .pure _

theorem labelled_movable (hc : c.Ended) (hk : c.peek.kind ≠ .eof) :
    Movable Node.EndsBefore (labelled deep) c :=
  .advance hc hk fun ht => .expect ht.after (by decide) fun hq =>
    governed_movable hm hq.after fun _ => rfl

/-- A statement that starts with a name. -/
theorem named_movable (hc : c.Ended) (hk : c.peek.kind = .ident) :
    Movable Node.EndsBefore (do
      if (← ahead)[1]?.any (·.kind == .colon) then labelled deep
        else expressionStatement deep) c := by
  intro n d h
  rw [bind_of_ok (ahead_apply c)] at h
  have hne : c.peek.kind ≠ .eof := by simp [hk]
  -- The second token is one of those passed, so that it stays what it is.
  suffices ∃ xs, c.Passes xs d ∧ 2 ≤ xs.length ∧ ∀ ⦃d' : Cursor⦄, d'.Ended →
      n.EndsBefore d'.peek.kind → (if c.ahead[1]?.any (·.kind == .colon) then labelled deep
        else expressionStatement deep) (d'.before xs) = .ok (n, d') by
    obtain ⟨xs, px, two, run⟩ := this
    refine ⟨xs, px, fun d' hd' hn => ?_⟩
    have second : (d'.before xs).ahead[1]? = c.ahead[1]? := by
      rw [px.ahead, Cursor.ahead_before, List.getElem?_append_left two,
        List.getElem?_append_left two]
    rw [bind_of_ok (ahead_apply _), second]
    exact run hd' hn
  split at h
  next hq =>
    obtain ⟨xs, px, run⟩ := labelled_movable hm hc hne h
    refine ⟨xs, px, ?_, by rwa [if_pos hq]⟩
    obtain ⟨t, c₁, h₁, h⟩ := bind_ok h
    obtain ⟨q, c₂, h₂, h⟩ := bind_ok h
    obtain ⟨m, c₃, h₃, h⟩ := bind_ok h
    obtain ⟨rfl, rfl⟩ := pure_ok h
    obtain ⟨-, p₁⟩ := advance_ok h₁ hc hne
    obtain ⟨-, p₂⟩ := expect_ok h₂ (p₁.ended hc) (by decide)
    obtain ⟨ys, p₃, -⟩ := hm.statement (p₂.ended (p₁.ended hc)) h₃
    rw [px.unique (p₁.trans (p₂.trans p₃))]
    simp
  next hq =>
    have plain : Movable Node.EndsBefore (expressionStatement deep) c :=
      terminated_movable hm.linked hc _
    obtain ⟨xs, px, run⟩ := plain h
    refine ⟨xs, px, ?_, by rwa [if_neg hq]⟩
    obtain ⟨_, q, hx⟩ := expressionStatement_reads hm.sound hc h
    cases px.unique q
    cases hx with
    | @exprStatement ys es t _ hy ht =>
      cases hy with
      | absent =>
        rw [px.eq_before] at hk
        exact absurd (hk.symm.trans ht) nofun
      | present hy =>
        obtain ⟨e, rfl⟩ : ∃ e, es = [e] := by
          cases hy
          exact ⟨_, rfl⟩
        have := List.length_pos_iff.mpr hy.ne_nil
        rw [List.length_append, List.length_singleton]
        omega

theorem statement_movable (hc : c.Ended) : Movable Node.EndsBefore (statement deep) c := by
  have plain := terminated_movable (N := Node.EndsBefore) hm.linked hc
  refine .peekKind ?_ fun h => ?_
  · generalize hk : c.peek.kind = k
    split
    case h_1 => exact named_movable hm hc hk
    case h_2 =>
      refine .advance hc (by simp [hk]) fun ht => .closed ht.after (by decide) ?_ fun hq => ?_
      · exact conditional_settled hm.linked ht.after
      · exact governed_movable hm hq fun _ => rfl
    case h_3 =>
      exact .advance hc (by simp [hk]) fun ht => .expect ht.after (by decide) fun hq =>
        governed_movable hm hq.after fun _ => rfl
    case h_4 => exact compound_movable hm.linked hc
    case h_5 => exact ifStatement_movable hm hc hk
    case h_6 | h_7 =>
      refine .advance hc (by simp [hk]) fun ht => ?_
      refine .bind ht.after (condition_movable hm.linked ht.after) fun hd => ?_
      exact governed_movable hm hd fun _ => rfl
    case h_8 =>
      refine .advance hc (by simp [hk]) fun ht => ?_
      refine .closed ht.after (by decide) (fun hr hk => ?_) fun hw => ?_
      · exact (hm.statement ht.after).settled hr (by simp [Node.EndsBefore, hk])
      · exact .bind hw (condition_movable hm.linked hw) fun hd =>
          .expect hd (by decide) fun _ => .pure _
    case h_9 => exact forStatement_movable hm hc hk
    case h_10 =>
      exact .advance hc (by simp [hk]) fun ht => .expect ht.after (by decide) fun hn =>
        .expect hn.after (by decide) fun _ => .pure _
    case h_11 | h_12 => exact jump_movable hc (by simp [hk])
    case h_13 => exact .advance hc (by simp [hk]) fun ht => terminated_movable hm.linked ht.after _
    case h_14 => exact plain _
  · obtain ⟨xs, px, hx⟩ := statement_reads hm.sound hc h
    exact px.length_lt hx.ne_nil

end Grammar

namespace Nested.Moving

theorem around (h : deep.Moving) : deep.around.Moving where
  linked e := (h.linked e).around
  finishing ts := (h.finishing ts).around
  statement := Grammar.statement_movable h

theorem levels (limit m : Nat) : (Nested.levels limit m).Moving := by
  induction m with
  | zero =>
    refine ⟨fun e => .levels limit 0, fun ts => .levels ts limit 0, fun _ _ _ h => by cases h⟩
  | succ m ih => exact ih.around

end Nested.Moving

end CPretty
