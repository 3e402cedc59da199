import CPretty.Proofs.Token.Segments

namespace CPretty

variable {loc : Location} {b : Bool} {gap rest : List Char} {ss : List Segment} {ts : List Token}

theorem lexemesFrom_blank (h : gap.all Text.isBlank = true) (loc : Location) (b : Bool)
    (cs : List Char) :
    ∃ loc' b', lexemesFrom loc b 0 (gap ++ cs) = lexemesFrom loc' b' 0 cs := by
  induction gap generalizing loc b with
  | nil => exact ⟨loc, b, rfl⟩
  | cons c gap ih =>
    rw [List.all_cons, Bool.and_eq_true] at h
    obtain ⟨loc', b', ih⟩ := ih h.2 (loc.next c) (b || c == '\n')
    exact ⟨loc', b', by rw [List.cons_append, lexemesFrom, if_pos h.1, ih]⟩

theorem Token.Lexed.lexemesFrom_ends {t : Token} (h : t.Lexed) {cs : List Char}
    (ends : Ends t.kind t.text.toList cs) (loc : Location) (b : Bool) :
    lexemesFrom loc b 0 (t.text.toList ++ cs) = ⟨.token t.kind, t.text, loc⟩ ::
      lexemesFrom (loc.after t.text.toList) (t.text.toList.tail.contains '\n') 0 cs := by
  have text := t.text.ofList_toList
  have plain : (Lexeme.token t.kind).isComment = false := rfl
  rw [Token.Lexed] at h
  obtain ⟨c, xs, hcs⟩ := List.exists_cons_of_ne_nil h.ne_nil
  rw [hcs] at h ends text ⊢
  rw [← text, List.cons_append, lexemesFrom_lexeme h.not_isBlank (h.lexeme ends) loc, plain,
    Bool.and_false, Bool.false_or, List.tail_cons]

theorem Token.Lexed.lexemesFrom {t : Token} (h : t.Lexed) {cs : List Char}
    (hc : ∀ x ∈ cs.head?, Text.isBlank x = true) (loc : Location) (b : Bool) :
    ∃ loc' b', lexemesFrom loc b 0 (t.text.toList ++ cs) =
      ⟨.token t.kind, t.text, loc⟩ :: lexemesFrom loc' b' 0 cs :=
  ⟨_, _, h.lexemesFrom_ends (fun x hx => h.apart_blank (hc x hx)) loc b⟩

theorem Segment.head?_joined (hb : ∀ s ∈ ss, s.gap.all Text.isBlank = true)
    (hr : rest.all Text.isBlank = true) (hg : ∀ s ∈ ss, s.gap ≠ []) :
    ∀ x ∈ (Segment.joined ss ++ rest).head?, Text.isBlank x = true := by
  intro x hx
  cases ss with
  | nil => exact List.all_eq_true.mp hr x (List.mem_of_mem_head? hx)
  | cons s ss =>
    obtain ⟨c, gap, hc⟩ := List.exists_cons_of_ne_nil (hg s List.mem_cons_self)
    have blank := hb s List.mem_cons_self
    rw [hc, List.all_cons, Bool.and_eq_true] at blank
    rw [joined, List.flatMap_cons, hc] at hx
    cases hx
    exact blank.1

theorem Segment.areTokens (hs : ss.map Segment.lexeme = ts.map Token.located)
    (ht : ∀ t ∈ ts, t.Lexed) (hb : ∀ s ∈ ss, s.gap.all Text.isBlank = true)
    (hr : rest.all Text.isBlank = true) (hg : ∀ s ∈ ss.tail, s.gap ≠ []) (loc : Location)
    (b : Bool) : AreTokens (lexemesFrom loc b 0 (Segment.joined ss ++ rest))
    (ts.map Token.key) := by
  induction ss generalizing ts loc b with
  | nil =>
    obtain rfl := List.map_eq_nil_iff.mp hs.symm
    obtain ⟨loc', b', h⟩ := lexemesFrom_blank hr loc b []
    rw [List.append_nil] at h
    rw [joined, List.flatMap_nil, List.nil_append, h, lexemesFrom]
    rfl
  | cons s ss ih =>
    cases ts with
    | nil => cases hs
    | cons t ts =>
      obtain ⟨hst, hs⟩ := List.cons.inj hs
      rw [List.forall_mem_cons] at ht hb
      have next := Segment.head?_joined hb.2 hr hg
      obtain ⟨loc₁, b₁, gap⟩ := lexemesFrom_blank hb.1 loc b (t.text.toList ++ (joined ss ++ rest))
      obtain ⟨loc₂, b₂, token⟩ := ht.1.lexemesFrom next loc₁ b₁
      have text : joined (s :: ss) ++ rest = s.gap ++ (t.text.toList ++ (joined ss ++ rest)) := by
        rw [joined, List.flatMap_cons, hst]
        simp only [List.append_assoc, Token.located, joined]
      rw [text, gap, token]
      exact congrArg (_ :: ·) (ih hs ht.2 hb.2 (fun s hm => hg s (List.mem_of_mem_tail hm)) loc₂ b₂)

/-- The tokens of a source with any blanks around them, at least one between two of them, are read
as the same tokens, with no comments, and the end marker behind them. -/
theorem tokenize_respaced {source : String} {stream : TokenStream}
    (h : tokenize source = .ok stream) (ss : List Segment) (rest : List Char)
    (hs : ss.map Segment.lexeme = stream.tokens.map Token.located)
    (hb : ∀ s ∈ ss, s.gap.all Text.isBlank = true) (hr : rest.all Text.isBlank = true)
    (hg : ∀ s ∈ ss.tail, s.gap ≠ []) :
    ∃ stream', tokenize (String.ofList (Segment.joined ss ++ rest)) = .ok stream' ∧
      stream'.comments = [] ∧
      stream'.terminated.map Token.key = stream.tokens.map Token.key ++ [⟨.eof, ""⟩] := by
  have tokens := Segment.areTokens hs (lexed_of_tokenize h) hb hr hg .start true
  obtain ⟨hk, he, hc⟩ := tokens.tokenKeys
  rw [tokenize, lexemes, String.toList_ofList, he]
  refine ⟨_, rfl, hc, ?_⟩
  rw [TokenStream.terminated, List.map_append]
  exact congrArg (· ++ _) hk

theorem exists_tokenize (ht : ∀ t ∈ ts, t.Lexed) : ∃ source stream,
    tokenize source = .ok stream ∧ stream.tokens.map Token.key = ts.map Token.key := by
  let ss := ts.map fun t => Segment.mk [' '] t.located
  have lexemes_eq : ss.map Segment.lexeme = ts.map Token.located := by
    rw [List.map_map]
    rfl
  have blank : ∀ s ∈ ss, s.gap = [' '] := by simp [ss]
  have tokens : AreTokens (lexemesFrom .start true 0 (Segment.joined ss ++ [])) _ :=
    Segment.areTokens lexemes_eq ht (fun s hs => by rw [blank s hs]; rfl) rfl
      (fun s hs => by simp [blank s (List.mem_of_mem_tail hs)]) _ _
  obtain ⟨hk, he, -⟩ := tokens.tokenKeys
  refine ⟨String.ofList (Segment.joined ss ++ []), ?_⟩
  rw [tokenize, lexemes, String.toList_ofList, he]
  exact ⟨_, rfl, hk⟩

/-- A literal's mark, two slashes and an exponent that comments or blanks set apart stay apart. -/
theorem tokenize_respaced_marks :
    ∃ stream stream', tokenize "L/**/\"a\"/ /1/**/e5" = .ok stream ∧
      tokenize "L \"a\"\u2003/\t/\n1 e5\r\n" = .ok stream' ∧ stream'.comments = [] ∧
      stream'.terminated.map Token.key = stream.tokens.map Token.key ++ [⟨.eof, ""⟩] := by
  let tokens : List Token := [⟨.ident, "L", ⟨1, 1⟩⟩, ⟨.stringLiteral, "\"a\"", ⟨1, 6⟩⟩,
    ⟨.slash, "/", ⟨1, 9⟩⟩, ⟨.slash, "/", ⟨1, 11⟩⟩, ⟨.constant, "1", ⟨1, 12⟩⟩,
    ⟨.ident, "e5", ⟨1, 17⟩⟩]
  let gaps : List (List Char) := [[], [' '], ['\u2003'], ['\t'], ['\n'], [' ']]
  obtain ⟨stream, h, hk⟩ := exists_ok_of_any (x := tokenize "L/**/\"a\"/ /1/**/e5")
    (p := fun s => s.tokens == tokens) (by decide +kernel)
  have hs : (gaps.zipWith (fun g t => Segment.mk g t.located) tokens).map Segment.lexeme =
      stream.tokens.map Token.located := by
    rw [eq_of_beq hk]
    rfl
  obtain ⟨stream', h'⟩ := tokenize_respaced h _ ['\r', '\n'] hs (by decide) (by decide) (by decide)
  exact ⟨stream, stream', h, h'⟩

end CPretty
