import CPretty.Proofs.Grammar.Movable

namespace CPretty

open Parse Grammar

variable {c d : Cursor} {deep : Nested} {a : Arm} {cs ys : List Token} {cond yes : Node} {sp : Span}

/-- An arm of a ladder: the tokens of a condition and of a statement, and the trees of both. -/
structure Arm where
  condKeys : List Key
  bodyKeys : List Key
  cond : Node
  body : Node

def Arm.keys (a : Arm) : List Key :=
  .of .kwIf :: .of .lParen :: (a.condKeys ++ .of .rParen :: a.bodyKeys)

/-- The tokens of a ladder and of its last alternative, if it has one. -/
def ladderKeys (a : Arm) : List Arm → Option (List Key) → List Key
  | [], none => a.keys
  | [], some ks => a.keys ++ .of .kwElse :: ks
  | b :: arms, ks => a.keys ++ .of .kwElse :: ladderKeys b arms ks

def Node.ladder (a : Arm) : List Arm → Option Node → Node
  | [], no => ⟨default, .ifStmt a.cond a.body no⟩
  | b :: arms, no => ⟨default, .ifStmt a.cond a.body (some (ladder b arms no))⟩

/-- From the tokens of the arm its condition and its body are read, whatever comes behind. -/
structure Arm.Reads (deep : Nested) (a : Arm) (cs ys : List Token) : Prop where
  condKeys : cs.map Token.key = .of .lParen :: (a.condKeys ++ [.of .rParen])
  bodyKeys : ys.map Token.key = a.bodyKeys
  ne_nil : ys ≠ []
  cond : ∀ ⦃d : Cursor⦄, d.Ended → condition deep (d.before cs) = .ok (a.cond, d)
  body : ∀ ⦃d : Cursor⦄, d.Ended → a.body.EndsBefore d.peek.kind →
    deep.statement (d.before ys) = .ok (a.body, d)

namespace Grammar

/-- What an `if` without an `else` is read from. -/
theorem ifStatementUpTo_cases {i : Nat} (hm : deep.Moving) (hc : c.Ended) (hk : c.peek.kind = .kwIf)
    (h : ifStatementUpTo deep (i + 1) c = .ok (⟨sp, .ifStmt cond yes none⟩, d)) :
    ∃ kw l xs r ys, c.Passes (kw :: (l :: xs ++ [r] ++ ys)) d ∧ Spans xs cond ∧ Spans ys yes ∧
      (∀ ⦃b : Cursor⦄, b.Ended → condition deep (b.before (l :: xs ++ [r])) = .ok (cond, b)) ∧
      ∀ ⦃b : Cursor⦄, b.Ended → yes.EndsBefore b.peek.kind →
        deep.statement (b.before ys) = .ok (yes, b) := by
  have covering := (hm.finishing []).covering
  obtain ⟨kw, c₁, h₁, h⟩ := bind_ok h
  obtain ⟨-, p₁⟩ := advance_of_kind h₁ hc hk (by decide)
  have hc₁ := p₁.ended hc
  obtain ⟨cond', c₂, h₂, h⟩ := bind_ok h
  obtain ⟨cs, p₂, run₂⟩ := condition_movable (N := Anything) hm.linked hc₁ h₂
  obtain ⟨l, b, r, b', ⟨-, _, q₁, rfl⟩, ⟨-, xs, q₂, hx⟩, -, _, q₃, rfl⟩ :=
    condition_spans covering hc₁ h₂
  obtain rfl := p₂.unique (q₁.trans (q₂.trans q₃))
  have hc₂ := p₂.ended hc₁
  obtain ⟨yes', c₃, h₃, h⟩ := bind_ok h
  obtain ⟨ys, p₃, run₃⟩ := hm.statement hc₂ h₃
  obtain ⟨_, q, hy⟩ := covering.statement hc₂ h₃
  obtain rfl := p₃.unique q
  obtain ⟨-, rfl, he⟩ | ⟨t, m, b, -, -, he, -⟩ := ifRest_cases (p₃.ended hc₂) h
  · cases he
    exact ⟨kw, l, xs, r, ys, p₁.trans (p₂.trans p₃), hx, hy, fun b hb => run₂ hb trivial, run₃⟩
  · cases he

theorem bare_ifNode (keyword : Token) (cond yes : Node) (no : Option Node) :
    (ifNode keyword cond yes no).bare =
      ⟨default, .ifStmt cond.bare yes.bare (no.map Node.bare)⟩ := by
  rw [ifNode, Node.between, Node.bare_mk]
  rfl

end Grammar

namespace Arm.Reads

variable {i : Nat} (ha : a.Reads deep cs ys)
include ha

theorem ifKeys : (Token.of .kwIf :: (cs ++ ys)).map Token.key = a.keys := by
  simp [Arm.keys, ha.condKeys, ha.bodyKeys, Key.of, Token.of, Token.key]

theorem first (hd : d.Ended) (hn : a.body.EndsBefore d.peek.kind) :
    ifStatementUpTo deep (i + 1) (d.before (Token.of .kwIf :: (cs ++ ys))) =
      ifRest deep i (.of .kwIf) a.cond a.body d :=
  ifStatementUpTo_arm (ha.cond (d := d.before ys) hd) (ha.body hd hn)

theorem last {keyword : Token} {cond yes : Node} (hk : ∀ k ∈ a.bodyKeys.head?, k.kind ≠ .kwIf)
    (hd : d.Ended) (hn : d.peek.kind ≠ .kwElse) :
    ifRest deep i keyword cond yes (d.before (.of .kwElse :: ys)) =
      .ok (ifNode keyword cond yes (some a.body), d) := by
  obtain ⟨t, ts, rfl⟩ := List.exists_cons_of_ne_nil ha.ne_nil
  have next : t.kind ≠ .kwIf := by
    rw [← ha.bodyKeys] at hk
    exact hk t.key rfl
  exact ifRest_last (c := d) (t := .of .kwElse) rfl next
    (ha.body hd fun he => absurd he hn)

end Arm.Reads

/-- A ladder is read from the tokens of its arms, up to source ranges. -/
theorem Node.ladder_reads {arms : List Arm} {alt : Option Arm}
    (h : ∀ b ∈ a :: arms, ¬ b.body.EndsOpen ∧ ∃ cs ys, b.Reads deep cs ys)
    (halt : ∀ b ∈ alt, (∀ k ∈ b.bodyKeys.head?, k.kind ≠ .kwIf) ∧ ∃ cs ys, b.Reads deep cs ys) :
    ∃ xs, (Token.of .kwIf :: xs).map Token.key = ladderKeys a arms (alt.map Arm.bodyKeys) ∧
      ∀ ⦃d : Cursor⦄, d.Ended → d.peek.kind ≠ .kwElse →
        ∀ i, (d.before (Token.of .kwIf :: xs)).ahead.length < i →
          ∃ n, ifStatementUpTo deep i (d.before (Token.of .kwIf :: xs)) = .ok (n, d) ∧
            n.bare = (Node.ladder a arms (alt.map Arm.body)).bare := by
  have keyword : (Token.of .kwElse).key = .of .kwElse := rfl
  induction arms generalizing a with
  | nil =>
    obtain ⟨closed, cs, ys, ha⟩ := h a List.mem_cons_self
    cases alt with
    | none =>
      refine ⟨cs ++ ys, ha.ifKeys, fun d hd hne i hi => ?_⟩
      obtain ⟨i, rfl⟩ := Nat.exists_eq_add_one_of_ne_zero (Nat.ne_zero_of_lt hi)
      rw [ha.first hd fun _ => closed, ifRest_none hne]
      exact ⟨_, rfl, bare_ifNode _ _ _ _⟩
    | some b =>
      obtain ⟨hif, _, zs, hb⟩ := halt b rfl
      refine ⟨cs ++ ys ++ .of .kwElse :: zs, ?_, fun d hd hne i hi => ?_⟩
      · rw [← List.cons_append, List.map_append, ha.ifKeys, List.map_cons, hb.bodyKeys, keyword]
        rfl
      · obtain ⟨i, rfl⟩ := Nat.exists_eq_add_one_of_ne_zero (Nat.ne_zero_of_lt hi)
        rw [← List.cons_append, Cursor.before_append,
          ha.first (d := d.before (.of .kwElse :: zs)) hd fun _ => closed, hb.last hif hd hne]
        exact ⟨_, rfl, bare_ifNode _ _ _ _⟩
  | cons b arms ih =>
    obtain ⟨closed, cs, ys, ha⟩ := h a List.mem_cons_self
    obtain ⟨zs, keys, run⟩ := ih fun b hb => h b (List.mem_cons_of_mem a hb)
    refine ⟨cs ++ ys ++ .of .kwElse :: .of .kwIf :: zs, ?_, fun d hd hne i hi => ?_⟩
    · rw [← List.cons_append, List.map_append, ha.ifKeys, List.map_cons, keys, keyword]
      rfl
    · obtain ⟨i, rfl⟩ := Nat.exists_eq_add_one_of_ne_zero (Nat.ne_zero_of_lt hi)
      have shorter : (d.before (.of .kwIf :: zs)).ahead.length < i := by
        simp only [Cursor.ahead_before, List.length_append, List.length_cons] at hi ⊢
        omega
      obtain ⟨n, hn, hb⟩ := run hd hne i shorter
      rw [← List.cons_append, Cursor.before_append,
        ha.first (d := d.before (.of .kwElse :: .of .kwIf :: zs)) hd fun _ => closed]
      refine ⟨_, ifRest_ladder (t := .of .kwElse) rfl rfl hn, ?_⟩
      rw [bare_ifNode, Option.map_some, hb]
      rfl

end CPretty
