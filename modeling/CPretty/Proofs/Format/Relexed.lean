import CPretty.Proofs.Format.Tokens

namespace CPretty

open Scan

variable {b : Bool} {k : Kind} {c : Char} {cs : List Char} {ms ms' : List Mark} {p : Option Key}
  {loc : Location}

def Key.isDigits (k : Key) : Bool := k.kind == .constant && k.text.toList.all isDigit

/-- No constant of digits alone stands directly before a dot. -/
def dotsApart : List Key → Bool
  | [] => true
  | k :: ks => !(k.isDigits && ks.head?.any (·.kind == .dot)) && dotsApart ks

/-- Tokens that no gap parts may stand side by side, and a dot stands directly after a token. The
token that the next one may touch is given, with a flag that no line may break between them. -/
def Abutting : Option Key → Bool → List Mark → Prop
  | _, _, [] => True
  | p, b, .word k :: ms =>
    (∀ j ∈ p, (if b then j.kind.abuts k.kind else j.kind.breaks k.kind) = true) ∧
      (k.kind = .dot → b = true) ∧ Abutting (some k) true ms
  | p, _, .soft :: ms => Abutting p false ms
  | _, _, .gap :: ms => Abutting none false ms

theorem Kind.abuts_of_ite {k k' : Kind} (h : (if b then k.abuts k' else k.breaks k') = true) :
    k.abuts k' = true := by
  cases b with
  | false => exact Kind.abuts_of_breaks h
  | true => exact h

theorem Run.abutting {a z : Kind} (h : Run a ms z)
    (hp : ∀ j ∈ p, (if b then j.kind.abuts a else j.kind.breaks a) = true)
    (hb : a = .dot → b = true) (hk : ∀ k : Key, k.kind = z → Abutting (some k) true ms') :
    Abutting p b (ms ++ ms') := by
  induction h generalizing p b ms' with
  | word k => exact ⟨hp, hb, hk k rfl⟩
  | join _ _ hbc ih₁ ih₂ =>
    rw [List.append_assoc]
    refine ih₁ hp hb fun k hkb => ih₂ ?_ (fun _ => rfl) hk
    rintro j ⟨⟩
    rwa [hkb]
  | gap _ _ hc ih₁ ih₂ =>
    rw [List.append_assoc]
    exact ih₁ hp hb fun k _ => ih₂ (p := none) (by simp) (fun h => absurd h hc) hk
  | soft _ _ hbc hc ih₁ ih₂ =>
    rw [List.append_assoc]
    refine ih₁ hp hb fun k hkb => ih₂ (p := some k) ?_ (fun h => absurd h hc) hk
    rintro j ⟨⟩
    rwa [hkb]

theorem isBlank_of_blank (h : c = ' ' ∨ c = '\n') : Text.isBlank c = true := by
  obtain rfl | rfl := h <;> decide

theorem Spread.ends {j : Key} (h : Spread b ms cs) (hj : j.Canonical)
    (hc : ∀ k ∈ words ms, k.Canonical) (ha : ∃ b', Abutting (some j) b' ms)
    (hd : ∀ k ∈ (words ms).head?, k.kind = .dot → j.isDigits = false) :
    Ends j.kind j.text.toList cs := by
  induction h with
  | nil => simp [Ends]
  | @word b k ms cs _ _ =>
    obtain ⟨b', hab, -, -⟩ := ha
    have hk := hc k (by simp)
    intro x hx
    rw [List.head?_append, Option.mem_def, Option.or_eq_some_iff] at hx
    obtain hx | ⟨hx, -⟩ := hx
    · refine hj.apart hk (Kind.abuts_of_ite (hab j rfl)) (fun hdot hcon => ?_) x hx
      simpa [Key.isDigits, hcon] using hd k rfl hdot
    · exact absurd (List.head?_eq_none_iff.mp hx) hk.lexical.ne_nil
  | blank hx _ _ =>
    rintro x ⟨⟩
    exact hj.lexical.apart_blank (isBlank_of_blank hx)
  | soft _ ih =>
    obtain ⟨b', ha⟩ := ha
    exact ih hc ⟨false, ha⟩ hd
  | gap _ hb _ => exact fun x hx => hj.lexical.apart_blank (isBlank_of_blank (hb x hx))

theorem Spread.lexeme {k : Key} (h : Spread false ms cs) (hk : k.Canonical)
    (hc : ∀ j ∈ words ms, j.Canonical) (ha : Abutting (some k) true ms)
    (hd : ∀ j ∈ (words ms).head?, j.kind = .dot → k.isDigits = false) (loc : Location) (b : Bool) :
    ∃ loc' b', lexemesFrom loc b 0 (k.text.toList ++ cs) =
      ⟨.token k.kind, k.text, loc⟩ :: lexemesFrom loc' b' 0 cs := by
  have he := h.ends hk hc ⟨true, ha⟩ hd
  have hl := hk.lexical
  obtain ⟨c, xs, hcs⟩ := List.exists_cons_of_ne_nil hl.ne_nil
  rw [hcs] at he hl
  have ht : k.text = String.ofList (c :: xs) := by rw [← hcs, String.ofList_toList]
  rw [hcs, ht]
  exact ⟨_, _, lexemesFrom_lexeme hl.not_isBlank (hl.lexeme he) loc⟩

theorem Spread.areTokens (h : Spread b ms cs) (hc : ∀ k ∈ words ms, k.Canonical) {b' : Bool}
    (ha : Abutting p b' ms) (hd : dotsApart (words ms) = true) (loc : Location) (start : Bool) :
    AreTokens (lexemesFrom loc start 0 cs) (words ms) := by
  induction h generalizing p b' loc start with
  | nil => rfl
  | @word b k ms cs h ih =>
    obtain ⟨-, -, ha⟩ := ha
    have hcs : ∀ j ∈ words ms, j.Canonical := fun j hj => hc j (by simp [hj])
    rw [words_word, dotsApart, Bool.and_eq_true] at hd
    have hk : ∀ j ∈ (words ms).head?, j.kind = .dot → k.isDigits = false := by
      intro j hj hdot
      rw [Option.mem_def] at hj
      simpa [hj, hdot] using hd.1
    obtain ⟨loc', b', he⟩ := h.lexeme (hc k (by simp)) hcs ha hk loc start
    rw [he]
    exact congrArg (_ :: ·) (ih hcs ha hd.2 loc' b')
  | blank hx _ ih =>
    rw [lexemesFrom, if_pos (isBlank_of_blank hx)]
    exact ih hc ha hd _ _
  | soft _ ih => exact ih hc ha hd loc start
  | gap _ _ ih => exact ih hc ha hd loc start

theorem Spread.tokenize {text : String} (h : Spread true ms text.toList)
    (hc : ∀ k ∈ words ms, k.Canonical) (ha : Abutting none false ms)
    (hd : dotsApart (words ms) = true) : ∃ stream, CPretty.tokenize text = .ok stream ∧
      stream.tokens.map Token.key = words ms ∧ stream.comments = [] := by
  obtain ⟨hk, he, hn⟩ := (h.areTokens hc ha hd .start true).tokenKeys
  rw [CPretty.tokenize, lexemes, he]
  exact ⟨_, rfl, hk, hn⟩

theorem abutting_of_run (h : ms = [] ∨ ∃ ms' a z, ms = ms' ++ [.gap] ∧ Run a ms' z ∧ a ≠ .dot) :
    Abutting none false ms := by
  obtain rfl | ⟨ms', a, z, rfl, r, hdot⟩ := h
  · trivial
  · exact r.abutting (by simp) (fun h => absurd h hdot) fun _ _ => trivial

theorem Abutting.dot_cases {j : Key} {ks : List Key} (ha : Abutting p b ms)
    (hw : words ms = j :: ks)
    (hj : j.kind = .dot) : b = true ∧ ∃ ms', ms = .word j :: ms' := by
  induction ms generalizing p b with
  | nil => cases hw
  | cons m ms ih =>
    cases m with
    | word k =>
      cases hw
      exact ⟨ha.2.1 hj, ms, rfl⟩
    | gap => cases (ih ha hw).1
    | soft => cases (ih ha hw).1

/-- Digits and a dot directly after them are read as one number. -/
theorem lexeme_digits_dot {xs : List Char} (hx : ∀ x ∈ c :: xs, isDigit x = true) (b : Bool)
    (rest : List Char) : ∃ tail,
      Scan.lexeme b c (xs ++ '.' :: rest) = (.token .constant, c :: xs ++ '.' :: tail) := by
  have hc : isDigit c = true := hx c (by simp)
  have ne {y : Char} (hy : isDigit y = false) : c ≠ y := by
    rintro rfl
    rw [hc] at hy
    cases hy
  -- The second character is a digit or the dot.
  have mark {y : Char} (hy : y ≠ '.' ∧ isDigit y = false) (ds : List Char) :
      c :: xs ++ '.' :: rest ≠ '0' :: y :: ds := by
    intro he
    cases xs with
    | nil =>
      cases he
      exact hy.1 rfl
    | cons x xs =>
      cases he
      rw [hx y (by simp)] at hy
      cases hy.2
  have starts : startsNumber (c :: (xs ++ '.' :: rest)) = true := by
    rw [startsNumber.eq_2]
    · exact hc
    · rintro x ds rfl -
      exact ne (y := '.') (by decide) rfl
  rw [lexeme_eq_token (ne (by decide)) (fun h => absurd h (ne (by decide))),
    token_of_startsNumber starts, ← List.cons_append, number.eq_3]
  · have whole : (c :: xs ++ '.' :: rest).takeWhile isDigit = c :: xs :=
      takeWhile_eq_left hx (by rintro x ⟨⟩; decide)
    have drop : (c :: xs ++ '.' :: rest).drop (c :: xs).length = '.' :: rest := List.drop_left
    rw [decimal, whole, drop, fraction]
    exact ⟨_, by simp only [List.append_assoc, List.cons_append]; rfl⟩
  · exact fun ds he => mark (by decide) ds he
  · exact fun ds he => mark (by decide) ds he

/-- Where digits alone stand before a dot, other tokens are read back. -/
theorem Spread.tokenKeys_ne (h : Spread b ms cs) (hc : ∀ k ∈ words ms, k.Canonical) {b' : Bool}
    (ha : Abutting p b' ms) (hd : dotsApart (words ms) = false) (loc : Location) (start : Bool) :
    tokenKeys (lexemesFrom loc start 0 cs) ≠ words ms := by
  induction h generalizing p b' loc start with
  | nil => cases hd
  | @word b k ms cs h ih =>
    obtain ⟨-, -, ha⟩ := ha
    have hcs : ∀ j ∈ words ms, j.Canonical := fun j hj => hc j (by simp [hj])
    rw [words_word, dotsApart, Bool.and_eq_false_iff] at hd
    by_cases hbad : (k.isDigits && (words ms).head?.any (·.kind == .dot)) = true
    · cases hw : words ms with
      | nil => simp [hw] at hbad
      | cons j ks =>
        -- The digits go on with the dot, so the first token is another one.
        simp only [hw, List.head?_cons, Option.any_some, Bool.and_eq_true, beq_iff_eq,
          Key.isDigits] at hbad
        obtain ⟨⟨-, hdig⟩, hj⟩ := hbad
        obtain ⟨-, ms', rfl⟩ := ha.dot_cases hw hj
        have hk := hc k (by simp)
        obtain ⟨c, xs, hcx⟩ := List.exists_cons_of_ne_nil hk.lexical.ne_nil
        rw [hcx, List.all_eq_true] at hdig
        have hdot : j.text.toList = ['.'] := by
          rw [(hcs j (by simp)).spelled "." (by rw [hj]; rfl)]
          rfl
        cases h with
        | @word _ _ _ rest _ =>
          obtain ⟨tail, he⟩ := lexeme_digits_dot hdig start rest
          have hb := not_isBlank_of_isWordChar (isWordChar_of_isDigit (hdig c (by simp)))
          intro hks
          rw [hcx, hdot, List.cons_append, lexemesFrom, if_neg (by simp [hb])] at hks
          simp only [List.cons_append, List.nil_append] at he hks
          rw [he] at hks
          have htext := congrArg (fun k => k.text.toList) (List.cons.inj hks).1
          rw [hcx] at htext
          simp [Token.key] at htext
    · have hk : ∀ j ∈ (words ms).head?, j.kind = .dot → k.isDigits = false := by
        intro j hj hdot
        rw [Option.mem_def] at hj
        simpa [hj, hdot] using hbad
      obtain ⟨loc', b', he⟩ := h.lexeme (hc k (by simp)) hcs ha hk loc start
      rw [he]
      intro hks
      refine ih hcs ha (hd.resolve_left fun h => hbad ?_) loc' b' (List.cons.inj hks).2
      simpa using h
  | blank hx _ ih =>
    rw [lexemesFrom, if_pos (isBlank_of_blank hx)]
    exact ih hc ha hd _ _
  | soft _ ih => exact ih hc ha hd loc start
  | gap _ _ ih => exact ih hc ha hd loc start

theorem Token.isDigits_canonicalKey (t : Token) : t.canonicalKey.isDigits = t.key.isDigits := by
  rw [Token.canonicalKey]
  split
  · rename_i h
    have brackets : ∀ k ∈ Kind.brackets, (k == .constant) = false := by decide
    simp [Key.isDigits, Token.key, brackets _ h]
  · rfl

theorem dotsApart_canonicalKeys (ts : List Token) :
    dotsApart (canonicalKeys ts) = dotsApart (ts.map Token.key) := by
  have head (ts : List Token) : (canonicalKeys ts).head?.any (·.kind == .dot) =
      (ts.map Token.key).head?.any (·.kind == .dot) := by
    induction ts with
    | nil => rfl
    | cons t ts ih =>
      rw [canonicalKeys]
      split
      · rename_i h
        obtain ⟨ht, hb⟩ := h
        cases ts with
        | nil => cases hb
        | cons u us =>
          have hu : u.kind = .rBrace := by simpa using hb
          rw [ih, List.map_cons, List.map_cons, List.head?_cons, List.head?_cons]
          simp only [Option.any_some, Token.key, hu, ht]
          decide
      · simp [t.canonicalKey_kind, Token.key]
  induction ts with
  | nil => rfl
  | cons t ts ih =>
    rw [canonicalKeys]
    split
    · rename_i h
      have ht : t.key.isDigits = false := by simp [Key.isDigits, Token.key, h.1]
      rw [ih, List.map_cons, dotsApart, ht, Bool.false_and, Bool.not_false, Bool.true_and]
    · rw [dotsApart, List.map_cons, dotsApart, t.isDigits_canonicalKey, head, ih]

/-- Formatting a source with plain headers never joins two tokens: its text is read as the tokens of
the source, up to commas before closing braces and the spelling of brackets, exactly when no
constant of digits alone stands before a dot. -/
theorem tokenize_format_iff {source text : String} {o : Options} {parsed : Parsed}
    {stream : TokenStream} (hs : tokenize source = .ok stream) (hp : parse source o = .ok parsed)
    (hh : parsed.tree.hasPlainHeaders = true) (hf : format source o = .ok text) :
    (∃ stream', tokenize text = .ok stream' ∧
      stream'.tokens.map Token.key = canonicalKeys stream.tokens) ↔
      dotsApart (stream.tokens.map Token.key) = true := by
  obtain ⟨ms, hsp, hw, hr⟩ := format_spread hs hp hh hf
  have hc : ∀ k ∈ words ms, k.Canonical :=
    hw ▸ canonical_of_mem_canonicalKeys (lexed_of_tokenize hs)
  have ha : Abutting none false ms := abutting_of_run hr
  rw [← dotsApart_canonicalKeys, ← hw]
  constructor
  · rintro ⟨stream', ht, hks⟩
    rw [tokenize] at ht
    split at ht
    · cases ht
      cases hd : dotsApart (words ms) with
      | true => rfl
      | false => exact absurd hks (hsp.tokenKeys_ne hc ha hd .start true)
    · cases ht
  · intro hd
    obtain ⟨stream', ht, hk, -⟩ := hsp.tokenize hc ha hd
    exact ⟨stream', ht, hk⟩

/-- Digits that a dot follows are joined with it, other operands are not. -/
theorem tokenize_format_iff_digits :
    (∃ s s', tokenize "int a = b .x;" = .ok s ∧ tokenize "int a = b.x;\n" = .ok s' ∧
      s'.tokens.map Token.key = canonicalKeys s.tokens) ∧
    (∃ s, tokenize "int a = 1 .x;" = .ok s ∧ ¬ ∃ s', tokenize "int a = 1.x;\n" = .ok s' ∧
      s'.tokens.map Token.key = canonicalKeys s.tokens) := by
  have formatted (source text : String) (b : Bool)
      (hs : (tokenize source).toOption.any (fun s => dotsApart (s.tokens.map Token.key) == b) =
        true)
      (hp : (parse source {}).toOption.any (fun q => q.tree.hasPlainHeaders) = true)
      (hf : (format source {}).toOption.any (· == text) = true) :
      ∃ s, tokenize source = .ok s ∧ ((∃ s', tokenize text = .ok s' ∧
        s'.tokens.map Token.key = canonicalKeys s.tokens) ↔ b = true) := by
    obtain ⟨stream, hs, hd⟩ := exists_ok_of_any hs
    obtain ⟨parsed, hp, hh⟩ := exists_ok_of_any hp
    obtain ⟨text', hf, ht⟩ := exists_ok_of_any hf
    rw [← eq_of_beq hd, ← eq_of_beq ht]
    exact ⟨stream, hs, tokenize_format_iff hs hp hh hf⟩
  obtain ⟨s, hs, h⟩ := formatted "int a = b .x;" "int a = b.x;\n" true (by decide +kernel)
    (by decide +kernel) (by decide +kernel)
  obtain ⟨s₁, hs₁, h₁⟩ := formatted "int a = 1 .x;" "int a = 1.x;\n" false (by decide +kernel)
    (by decide +kernel) (by decide +kernel)
  obtain ⟨s', hs', hk⟩ := h.mpr rfl
  exact ⟨⟨s, s', hs, hs', hk⟩, s₁, hs₁, fun hn => by cases h₁.mp hn⟩

end CPretty
