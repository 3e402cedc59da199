import CPretty.Proofs.Grammar.Concat

namespace CPretty

open Parse Place Linked Grammar

variable {e : Ending} {p q : Place} {xs ts : List Token} {t : Token} {deep : Nested}

/-- The tokens without the commas directly before a closing brace. -/
def dropTrailing : List Token → List Token
  | [] => []
  | t :: ts =>
    if t.kind = .comma ∧ ts.head?.any (·.kind == .rBrace) then dropTrailing ts
    else t :: dropTrailing ts

theorem dropTrailing_cons (h : t.kind ≠ .comma) (ts : List Token) :
    dropTrailing (t :: ts) = t :: dropTrailing ts := by
  rw [dropTrailing, if_neg fun hc => h hc.1]

theorem map_canonicalKey_dropTrailing (ts : List Token) :
    (dropTrailing ts).map Token.canonicalKey = canonicalKeys ts := by
  induction ts with
  | nil => rfl
  | cons t ts ih =>
    rw [dropTrailing, canonicalKeys]
    split
    · exact ih
    · rw [List.map_cons, ih]

theorem after?_comma_rBrace {r : Place} (h : p.after? .comma = some q)
    (hq : q.after? .rBrace = some r) : ∃ s, p = ⟨.list :: s, .block⟩ ∧ q = ⟨.list :: s, .list⟩ := by
  obtain ⟨within, opening⟩ := p
  rw [after?] at h
  split at h
  · cases h
  next hn =>
    cases h
    obtain _ | ⟨b, s⟩ := within
    · cases hq
    cases b with
    | list =>
      have ho : opening = .block := by simpa using hn
      exact ⟨s, by rw [ho], rfl⟩
    | _ => cases hq

/-- The tokens of a whole source are linked to those without the trailing commas. -/
theorem Runs.dropTrailing (he : e.part = .source) (h : Runs e p xs q) :
    Linked e p xs (dropTrailing xs) := by
  have never (s : List Bracket) (k : Kind) : ¬ e.At s k := by
    rintro (⟨hp, -⟩ | ⟨hp, -⟩ | ⟨hp, -⟩ | ⟨hp, -⟩) <;> cases he.symm.trans hp
  induction h with
  | nil => exact .nil
  | @cons p q _ t ts hn hq _ ih =>
    rw [CPretty.dropTrailing]
    split
    next ht =>
      obtain ⟨r, ts, rfl⟩ := List.exists_cons_of_ne_nil (l := ts) (by rintro rfl; simp at ht)
      have hr : r.kind = .rBrace := by simpa using ht.2
      rw [ht.1] at hq
      rw [dropTrailing_cons (by rw [hr]; decide)] at ih ⊢
      cases ih with
      | token _ hq' rest =>
        rw [hr] at hq'
        obtain ⟨s, rfl, rfl⟩ := after?_comma_rBrace hq hq'
        exact .trailing ht.1 hr (.token (never _ _) (hr ▸ hq') rest)
      | last hat => exact absurd hat (never _ _)
      | trailing hk => cases hr.symm.trans hk
    next => exact .token hn hq ih

namespace Grammar

theorem externals_blind (h : Linked.Nesteds e deep) (he : e.part = .source) :
    Blind e (At [] .block) (At [] .block) (many (external? deep)) := by
  refine Blind.many (.of_reads (external?_reads h.sound) fun _ _ hx => hx.ne_nil) fun c c' hc => ?_
  refine .atEnd hc ?_
  split
  · exact .pure hc
  · have brace : ¬ e.At [.block] .rBrace := Ending.not_at_brace_of (by rw [he]; decide)
    have next := externalDeclaration_outcome h (by rw [he]; decide) hc
      (fun hk hd => (hd.advance (hk ▸ .closeBlock brace)).2) fun hd => hd
    exact .bind next fun hd => .pure hd

end Grammar

/-- Without the trailing commas the declarations of a source are the same. -/
theorem TokenStream.parse_dropTrailing {s : TokenStream} {n : Node} {l : Nat}
    (h : s.parse l = .ok n) :
    ∃ n', { s with tokens := dropTrailing s.tokens }.parse l = .ok n' ∧ n'.shape = n.shape := by
  let e : Ending := ⟨.source, [], []⟩
  obtain ⟨sp, ns, hroot, hder⟩ := TokenStream.derives_of_parse h
  obtain ⟨q, -, walk⟩ := hder.walks (e := e) (s := []) ⟨⟨rfl, rfl⟩, fun _ h => h⟩ ⟨[], .block⟩ rfl
  have linked : Linked.Cursors e (At [] .block) ⟨s.tokens, Token.eof s.finish⟩
      ⟨dropTrailing s.tokens, Token.eof s.finish⟩ := ⟨⟨_, rfl, walk.dropTrailing rfl⟩, rfl, rfl⟩
  obtain ⟨d, hr⟩ := sourceFile_of_parse h
  have ended : (⟨s.tokens, Token.eof s.finish⟩ : Cursor).Ended := rfl
  obtain ⟨-, sp, ns, hm, rfl⟩ := sourceFile_cases (.levels l l) ended hr
  have out := externals_blind (.levels l l) rfl linked
  rw [hm] at out
  generalize hm' : many (external? (.levels l l)) ⟨dropTrailing s.tokens, _⟩ = r at out
  cases out with
  | @ok _ _ d' =>
    refine ⟨⟨Node.spanOf ns d'.peek.span, .root ns⟩, ?_, rfl⟩
    rw [parse, sourceFile_of_externals hm']
    rfl

end CPretty
