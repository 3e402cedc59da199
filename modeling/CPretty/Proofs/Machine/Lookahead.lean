import CPretty.Proofs.Machine.Agreement

namespace CPretty

theorem Cursor.kindAt_drop (c : Cursor) (i : Nat) :
    c.kindAt i = (c.ahead.drop i).head?.elim .eof Token.kind := by
  rw [kindAt, List.head?_drop]

namespace Machine

open Program hiding pure bind
open Lookahead

variable {x : Input} {limit d n i : Nat} {s : State} {c : Cursor} {ts : List Token}

theorem run_look (hs : Stands x d n s c) (i : Nat) :
    x.run limit (kindAt i) s = some (.ok (c.kindAt i), s) :=
  hs.kindAt i ▸ run_kindAt i s

theorem kindAt_cons {t : Token} (h : c.ahead.drop i = t :: ts) : c.kindAt i = t.kind := by
  rw [Cursor.kindAt_drop, h]
  rfl

theorem kindAt_nil (h : c.ahead.drop i = []) : c.kindAt i = .eof := by
  rw [Cursor.kindAt_drop, h]
  rfl

theorem drop_succ {t : Token} (h : c.ahead.drop i = t :: ts) : c.ahead.drop (i + 1) = ts := by
  rw [← List.tail_drop, h, List.tail_cons]

theorem run_starsFrom (hs : Stands x d n s c) (i : Nat) :
    x.run limit (starsFrom i) s =
      some (.ok (i + ((c.ahead.drop i).takeWhile isStar).length), s) := by
  generalize hl : c.ahead.drop i = ts
  induction ts generalizing i with
  | nil =>
    rw [starsFrom, run_loop, run_bind_ok (run_look hs i), kindAt_nil hl]
    exact congrArg (Option.bind · _) (run_pure _ s)
  | cons t ts ih =>
    rw [starsFrom, run_loop, run_bind_ok (run_look hs i), kindAt_cons hl, List.takeWhile_cons]
    by_cases ht : t.kind = .star
    · have more := ih (i + 1) (drop_succ hl)
      have star : isStar t = true := beq_iff_eq.mpr ht
      rw [if_pos (beq_iff_eq.mpr ht), if_pos star, run_pure]
      rw [List.length_cons, ← Nat.add_assoc, Nat.add_right_comm]
      exact more
    · have other : ¬ isStar t = true := fun h => ht (beq_iff_eq.mp h)
      rw [if_neg (by simpa using ht), if_neg other, run_pure]
      rfl

theorem drop_stars (ts : List Token) :
    ts.drop (ts.takeWhile isStar).length = ts.dropWhile isStar := by
  induction ts with
  | nil => rfl
  | cons t ts ih =>
    rw [List.takeWhile_cons, List.dropWhile_cons]
    split
    · exact ih
    · rfl

theorem drop_starsFrom (c : Cursor) (i : Nat) :
    c.ahead.drop (i + ((c.ahead.drop i).takeWhile isStar).length) =
      (c.ahead.drop i).dropWhile isStar := by
  rw [← List.drop_drop, drop_stars]

theorem takeWhile_pos (ts : List Token) :
    0 < (ts.takeWhile isStar).length ↔ ts.head?.any isStar = true := by
  cases ts with
  | nil => simp
  | cons t ts =>
    rw [List.takeWhile_cons]
    split <;> simp_all

theorem head?_any_kind (ts : List Token) {p : Kind → Bool} (hp : p .eof = false) :
    ts.head?.any (fun t => p t.kind) = p (ts.head?.elim .eof Token.kind) := by
  cases ts with
  | nil => exact hp.symm
  | cons t ts => rfl

theorem run_startsTypeName (hs : Stands x d n s c) (i : Nat) (inCast : Bool) :
    x.run limit (startsTypeName i !inCast) s =
      some (.ok (Lookahead.startsTypeName inCast (c.ahead.drop i)), s) := by
  rw [startsTypeName, run_bind_ok (run_look hs i)]
  cases hl : c.ahead.drop i with
  | nil =>
    rw [kindAt_nil hl]
    exact run_pure _ s
  | cons t ts =>
    have next := drop_succ hl
    have behind := drop_starsFrom c (i + 1)
    rw [next] at behind
    rw [kindAt_cons hl, Lookahead.startsTypeName]
    by_cases ht : startsType t.kind = true
    · rw [if_pos ht, ht, Bool.true_or]
      exact run_pure _ s
    by_cases hi : t.kind = .ident
    · rw [if_neg ht, if_neg (by simp [hi]), run_bind_ok (run_starsFrom hs (i + 1)), next,
        run_bind_ok (run_look hs _)]
      have ident : (t.kind == .ident) = true := by simp [hi]
      rw [eq_false_of_ne_true ht, Bool.false_or, ident, Bool.true_and]
      cases hd : ts.dropWhile isStar with
      | nil =>
        rw [hd] at behind
        rw [kindAt_nil behind]
        exact run_pure _ s
      | cons close rest =>
        rw [hd] at behind
        rw [kindAt_cons behind]
        dsimp only
        have last := Cursor.kindAt_drop c (i + 1 + (ts.takeWhile isStar).length + 1)
        rw [drop_succ behind] at last
        by_cases hc : close.kind = .rParen
        · rw [if_neg (by simp [hc])]
          have paren : (close.kind == .rParen) = true := by simp [hc]
          rw [paren, Bool.true_and]
          by_cases star : ts.head?.any isStar = true
          · have := (takeWhile_pos ts).mpr star
            rw [if_pos (by omega), star]
            exact run_pure _ s
          · have := mt (takeWhile_pos ts).mp star
            rw [if_neg (by omega), eq_false_of_ne_true star, Bool.false_or,
              run_bind_ok (run_look hs _), last, head?_any_kind rest rfl, Bool.not_not]
            exact run_pure _ s
        · rw [if_pos (by simpa using hc), beq_eq_false_iff_ne.mpr hc]
          exact run_pure _ s
    · rw [if_neg ht, if_pos (by simpa using hi), eq_false_of_ne_true ht, beq_eq_false_iff_ne.mpr hi]
      exact run_pure _ s

theorem run_startsDeclaration (hs : Stands x d n s c) :
    x.run limit startsDeclaration s = some (.ok (Lookahead.startsDeclaration c.ahead), s) := by
  have zero := hs.kindAt 0
  rw [startsDeclaration, run_bind_ok (run_peekKind s), hs.peek]
  cases hl : c.ahead with
  | nil =>
    have last : c.peek.kind = .eof := by simpa [hl] using hs.isEmpty.symm
    rw [last]
    exact run_pure _ s
  | cons t ts =>
    have first : c.peek = t := by rw [Cursor.peek, hl, List.headD_cons]
    have behind := drop_starsFrom c 1
    rw [first, Lookahead.startsDeclaration]
    have rest : c.ahead.drop 1 = ts := by rw [hl, List.drop_one, List.tail_cons]
    rw [rest] at behind
    by_cases ht : (startsType t.kind || t.kind.is .storageClass || t.kind.is .functionSpecifier ||
        t.kind == .kwStaticAssert) = true
    · rw [if_pos ht, ht, Bool.true_or]
      exact run_pure _ s
    rw [if_neg ht, eq_false_of_ne_true ht, Bool.false_or]
    by_cases hi : t.kind = .ident
    · have ident : (t.kind == .ident) = true := by simp [hi]
      rw [if_neg (by simp [hi]), run_bind_ok (run_starsFrom hs 1), rest,
        run_bind_ok (run_look hs _), Cursor.kindAt_drop, behind, ident, Bool.true_and,
        head?_any_kind _ (p := (· == .ident)) rfl]
      exact run_pure _ s
    · rw [if_pos (by simpa using hi), beq_eq_false_iff_ne.mpr hi]
      exact run_pure _ s

theorem run_isIdentifierList (hs : Stands x d n s c) :
    x.run limit isIdentifierList s = some (.ok (Lookahead.isIdentifierList c.ahead), s) := by
  have from_place (i : Nat) : x.run limit (loop identifierStep i) s =
      some (.ok (Lookahead.isIdentifierList (c.ahead.drop i)), s) := by
    generalize hl : c.ahead.drop i = ts
    induction ts using Lookahead.isIdentifierList.induct generalizing i with
    | case1 a b ts ih =>
      rw [Lookahead.isIdentifierList, run_loop, identifierStep, run_bind_ok (run_look hs i),
        kindAt_cons hl]
      have next := drop_succ hl
      by_cases ha : a.kind = .ident
      · rw [if_neg (by simp [ha]), run_bind_ok (run_look hs (i + 1)), kindAt_cons next]
        have ident : (a.kind == .ident) = true := by simp [ha]
        rw [ident, Bool.true_and]
        split
        next hb =>
          rw [run_pure, hb]
          rfl
        next hb =>
          rw [run_pure, hb]
          exact ih (i + 2) (drop_succ next)
        next paren comma =>
          rw [run_pure, beq_eq_false_iff_ne.mpr paren, beq_eq_false_iff_ne.mpr comma]
          rfl
      · rw [if_pos (by simpa using ha), beq_eq_false_iff_ne.mpr ha, run_pure]
        rfl
    | case2 ts short =>
      rw [run_loop, identifierStep, run_bind_ok (run_look hs i)]
      match ts with
      | [] =>
        rw [kindAt_nil hl, if_pos (by decide), run_pure]
        rfl
      | [a] =>
        rw [kindAt_cons hl]
        split
        · rw [run_pure]
          rfl
        · rw [run_bind_ok (run_look hs (i + 1)), kindAt_nil (drop_succ hl)]
          dsimp only
          rw [run_pure]
          rfl
      | a :: b :: ts => exact absurd rfl (short a b ts)
  exact from_place 0

end Machine

end CPretty
