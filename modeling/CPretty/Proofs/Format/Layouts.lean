import CPretty.Proofs.Format.Independence
import CPretty.Proofs.Grammar.Dots
import CPretty.Proofs.Token.Glued
import CPretty.Proofs.Token.Respaced

namespace CPretty

open Scan

variable {b b' : Bool} {f : Bool} {k : Key} {c : Char} {cs cs' : List Char} {ms : List Mark}
  {p : Option Key}

theorem Blanks.cons {w : List Char} (hc : c = ' ' ∨ c = '\n') (hw : Blanks w) : Blanks (c :: w) :=
  fun x hx => (List.mem_cons.mp hx).elim (fun h => h ▸ hc) (hw x)

theorem Blanks.all_isBlank {w : List Char} (h : Blanks w) : w.all Text.isBlank = true :=
  List.all_eq_true.mpr fun c hc => isBlank_of_blank (h c hc)

namespace Spread

theorem nil_cases (h : Spread b [] cs) : Blanks cs := by
  generalize hm : ([] : List Mark) = ms at h
  induction h with
  | nil => exact .nil
  | blank hc _ ih => exact (ih hm).cons hc
  | _ => cases hm

theorem word_cases (h : Spread b (.word k :: ms) cs) :
    ∃ w rest, cs = w ++ (k.text.toList ++ rest) ∧ Blanks w ∧ Spread false ms rest := by
  generalize hm : Mark.word k :: ms = ms' at h
  induction h with
  | word h =>
    cases hm
    exact ⟨[], _, rfl, .nil, h⟩
  | @blank c _ _ hc _ ih =>
    obtain ⟨w, rest, rfl, hw, h⟩ := ih hm
    exact ⟨c :: w, rest, rfl, hw.cons hc, h⟩
  | _ => cases hm

theorem place_cases {m : Mark} (h : Spread b (m :: ms) cs) (hk : m.key? = none) :
    ∃ w rest, cs = w ++ rest ∧ Blanks w ∧ Spread true ms rest := by
  generalize hm : m :: ms = ms' at h
  induction h with
  | nil => cases hm
  | word =>
    cases hm
    cases hk
  | @blank c _ _ hc _ ih =>
    obtain ⟨w, rest, rfl, hw, h⟩ := ih hm
    exact ⟨c :: w, rest, rfl, hw.cons hc, h⟩
  | soft h | gap h _ =>
    cases hm
    exact ⟨[], _, rfl, .nil, h⟩

end Spread

/-- A mark that digits and a dot go on with: a name or another dot. -/
def Mark.isLink : Mark → Bool
  | .word k => k.kind == .ident || k.kind == .dot
  | .gap | .soft => false

theorem severs_of_blankAhead (h : BlankAhead cs) : Severs cs := by
  refine ⟨fun c hc => ?_, ?_⟩
  · obtain rfl | rfl := h c hc <;> decide
  · rintro c cs rfl hs
    obtain rfl | rfl := h c rfl <;> simp at hs

/-- What may follow a name, a number or a dot directly stops it, but for names and dots. -/
theorem Key.Canonical.severs {j : Key} (hj : j.Canonical) (hk : k.kind ∈ [.ident, .constant, .dot])
    (hab : (if f then k.kind.abuts j.kind else k.kind.breaks j.kind) = true)
    (hl : f = true → (Mark.word j).isLink = false) (cs : List Char) :
    Severs (j.text.toList ++ cs) := by
  have kinds : j.kind ∈ [Kind.lParen, .rParen, .lBracket, .rBracket, .lBrace, .rBrace, .semicolon,
      .comma, .arrow, .plusPlus, .minusMinus, .colon] := by
    have plain : ∀ k ∈ [Kind.ident, .constant, .dot], k.isWhole = false ∧ k ≠ .star := by decide
    obtain ⟨hw, hs⟩ := plain _ hk
    cases f with
    | false =>
      simp only [Kind.breaks, hw, Kind.isQuiet, List.contains_eq_mem] at hab
      simp_all
      grind
    | true =>
      have hl := hl rfl
      simp only [Mark.isLink, Bool.or_eq_false_iff, beq_eq_false_iff_ne] at hl
      simp only [Kind.abuts, hw, Kind.isQuiet, Kind.isAccess, List.contains_eq_mem] at hab
      simp_all
      grind
  have stops : ∀ k ∈ [Kind.lParen, .rParen, .lBracket, .rBracket, .lBrace, .rBrace, .semicolon,
      .comma, .arrow, .plusPlus, .minusMinus, .colon],
      ((k.spelling.getD "").toList.head?.any fun c => !isWordChar c &&
        !(['.', '"', '\''].contains c) && (!(['+', '-'].contains c) ||
          (k.spelling.getD "").toList.tail.head?.any fun d => !isDigit d)) = true := by decide
  have spelled : ∀ k ∈ [Kind.lParen, .rParen, .lBracket, .rBracket, .lBrace, .rBrace, .semicolon,
      .comma, .arrow, .plusPlus, .minusMinus, .colon], k.spelling.isSome = true := by decide
  have text : j.text = j.kind.spelling.getD "" := by
    rw [hj.eq_of (spelled _ kinds)]
    rfl
  have stops := stops _ kinds
  rw [← text] at stops
  obtain ⟨c, xs, hx⟩ := List.exists_cons_of_ne_nil hj.lexical.ne_nil
  rw [hx] at stops ⊢
  obtain ⟨⟨hw, hq⟩, hsign⟩ : (isWordChar c = false ∧ c ∉ ['.', '"', '\'']) ∧
      (c = '+' ∨ c = '-' → ∃ d ds, xs = d :: ds ∧ isDigit d = false) := by
    cases xs <;> simp_all
    grind
  refine ⟨?_, ?_⟩
  · rintro x ⟨⟩
    exact ⟨hw, hq⟩
  · rintro x ys he hs
    cases he
    obtain ⟨d, ds, rfl, hd⟩ := hsign hs
    simpa using hd

namespace Spread

theorem severs (h : Spread b ms cs) (hc : ∀ j ∈ words ms, j.Canonical)
    (hk : k.kind ∈ [.ident, .constant, .dot]) (ha : Abutting (some k) f ms)
    (hl : f = true → ∀ m ∈ ms.head?, m.isLink = false) : Severs cs := by
  induction h generalizing f with
  | nil => exact severs_of_blankAhead (by simp [BlankAhead])
  | @word b j ms cs _ _ =>
    exact (hc j List.mem_cons_self).severs hk (ha.1 k rfl) (fun hf => hl hf _ rfl) cs
  | blank hx _ _ => exact severs_of_blankAhead (by simpa [BlankAhead] using hx)
  | soft _ ih => exact ih hc ha (by simp)
  | gap _ hb _ => exact severs_of_blankAhead hb

theorem chained (h : Spread false ms cs) (hc : ∀ j ∈ words ms, j.Canonical)
    (hk : k.kind ∈ [.ident, .constant, .dot]) (ha : Abutting (some k) true ms) :
    ∃ rest b p f, cs = (ms.takeWhile Mark.isLink).flatMap Mark.chars ++ rest ∧ Severs rest ∧
      Spread b (ms.dropWhile Mark.isLink) rest ∧ Abutting p f (ms.dropWhile Mark.isLink) := by
  induction ms generalizing k cs with
  | nil => exact ⟨cs, _, _, _, rfl, h.severs hc hk ha (by simp), h, ha⟩
  | cons m ms ih =>
    cases hl : m.isLink with
    | false =>
      rw [List.takeWhile_cons_of_neg (by simp [hl]), List.dropWhile_cons_of_neg (by simp [hl])]
      exact ⟨cs, _, _, _, rfl, h.severs hc hk ha fun _ => by simpa using hl, h, ha⟩
    | true =>
      rw [List.takeWhile_cons_of_pos hl, List.dropWhile_cons_of_pos hl]
      cases m with
      | gap | soft => cases hl
      | word j =>
        have hj : j.kind ∈ [.ident, .constant, .dot] := by
          simp only [Mark.isLink, Bool.or_eq_true, beq_iff_eq] at hl
          obtain hl | hl := hl <;> simp [hl]
        cases h with
        | word h =>
          obtain ⟨rest, b, p, f, rfl, hr⟩ := ih h (fun i hi => hc i (by simp [hi])) hj ha.2.2
          exact ⟨rest, b, p, f, by simp [Mark.chars], hr⟩

end Spread

theorem Key.Canonical.isWordOrDot {j : Key} (hj : j.Canonical) (hl : (Mark.word j).isLink = true) :
    ∀ x ∈ j.text.toList, isWordOrDot x = true := by
  simp only [Mark.isLink, Bool.or_eq_true, beq_iff_eq] at hl
  obtain hl | hl := hl
  · obtain ⟨c, xs, hx⟩ := List.exists_cons_of_ne_nil hj.lexical.ne_nil
    obtain ⟨hc, hd⟩ := (hx ▸ hl ▸ hj.lexical : Lexical .ident (c :: xs)).ident_chars
    rw [hx, List.forall_mem_cons]
    exact ⟨by simp [Scan.isWordOrDot, isWordChar, hc],
      fun d hm => by simp [Scan.isWordOrDot, hd d hm]⟩
  · rw [hj.spelled "." (by rw [hl]; rfl)]
    exact List.forall_mem_singleton.mpr rfl

/-- Marks spread over two texts are read alike. -/
theorem Spread.readAlike (h : Spread b ms cs) (h' : Spread b' ms cs')
    (hc : ∀ k ∈ words ms, k.Canonical) (ha : Abutting p f ms) (loc loc' : Location)
    (start start' : Bool) :
    ReadAlike (lexemesFrom loc start 0 cs) (lexemesFrom loc' start' 0 cs') := by
  induction hn : ms.length using Nat.strongRecOn
    generalizing ms p f b b' cs cs' loc loc' start start'
    with
  | ind n ih =>
  subst hn
  obtain _ | ⟨m, ms⟩ := ms
  · obtain ⟨_, _, he⟩ := lexemesFrom_blank h.nil_cases.all_isBlank loc start []
    obtain ⟨_, _, he'⟩ := lexemesFrom_blank h'.nil_cases.all_isBlank loc' start' []
    rw [List.append_nil] at he he'
    rw [he, he']
    exact .nil
  have shorter : ms.length < (m :: ms).length := Nat.lt_succ_self _
  cases m with
  | gap | soft =>
    obtain ⟨w, rest, rfl, hw, hr⟩ := h.place_cases rfl
    obtain ⟨w', rest', rfl, hw', hr'⟩ := h'.place_cases rfl
    obtain ⟨_, _, he⟩ := lexemesFrom_blank hw.all_isBlank loc start rest
    obtain ⟨_, _, he'⟩ := lexemesFrom_blank hw'.all_isBlank loc' start' rest'
    rw [he, he']
    exact ih _ shorter hr hr' hc ha _ _ _ _ rfl
  | word k =>
    obtain ⟨w, rest, rfl, hw, hr⟩ := h.word_cases
    obtain ⟨w', rest', rfl, hw', hr'⟩ := h'.word_cases
    obtain ⟨_, _, he⟩ := lexemesFrom_blank hw.all_isBlank loc start (k.text.toList ++ rest)
    obtain ⟨_, _, he'⟩ := lexemesFrom_blank hw'.all_isBlank loc' start' (k.text.toList ++ rest')
    rw [he, he']
    have hk := hc k List.mem_cons_self
    have hcs : ∀ j ∈ words ms, j.Canonical := fun j hj => hc j (List.mem_cons_of_mem k hj)
    by_cases hd : k.isDigits = true
    · -- The digits may go on with a dot, so they are read together with what follows them.
      rw [Key.isDigits, Bool.and_eq_true, beq_iff_eq, List.all_eq_true] at hd
      have hkind : k.kind ∈ [.ident, .constant, .dot] := by simp [hd.1]
      obtain ⟨s, _, _, _, rfl, hs, hsp, hab⟩ := hr.chained hcs hkind ha.2.2
      obtain ⟨s', _, _, _, rfl, hs', hsp', -⟩ := hr'.chained hcs hkind ha.2.2
      rw [← List.append_assoc, ← List.append_assoc]
      refine hs.readAlike hs' ?_ (fun _ _ _ _ => ih _ ?_ hsp hsp' ?_ hab _ _ _ _ rfl)
        (Nat.zero_le _) _ _ _ _
      · intro x hx
        obtain hx | hx := List.mem_append.mp hx
        · simp [Scan.isWordOrDot, isWordChar_of_isDigit (hd.2 x hx)]
        · obtain ⟨m, hm, hx⟩ := List.mem_flatMap.mp hx
          have hl := List.mem_takeWhile_imp hm
          cases m with
          | gap | soft => cases hl
          | word j =>
            have hj : j ∈ words ms :=
              List.mem_filterMap.mpr ⟨_, (List.takeWhile_prefix _).subset hm, rfl⟩
            exact (hcs j hj).isWordOrDot hl x hx
      · have := (List.dropWhile_suffix Mark.isLink (l := ms)).length_le
        rw [List.length_cons]
        omega
      · exact fun j hj => hcs j (((List.dropWhile_suffix _).sublist.filterMap _).subset hj)
    · have apart : ∀ j ∈ (words ms).head?, j.kind = .dot → k.isDigits = false :=
        fun _ _ _ => Bool.eq_false_iff.mpr hd
      obtain ⟨l, s, he⟩ := hr.lexeme hk hcs ha.2.2 apart _ _
      obtain ⟨l', s', he'⟩ := hr'.lexeme hk hcs ha.2.2 apart _ _
      rw [he, he']
      exact .cons rfl rfl (ih _ shorter hr hr' hcs ha.2.2 _ _ _ _ rfl)

theorem ReadAlike.tokenize {text text' : String} (h : ReadAlike (lexemes text) (lexemes text')) :
    (∃ stream stream', CPretty.tokenize text = .ok stream ∧ CPretty.tokenize text' = .ok stream' ∧
      stream.tokens.map Token.key = stream'.tokens.map Token.key ∧
      stream.comments = [] ∧ stream'.comments = []) ∨
    ∃ es es', CPretty.tokenize text = .error es ∧ CPretty.tokenize text' = .error es' ∧
      es.map LexError.fault = es'.map LexError.fault := by
  have keys := h.filterMap_eq Located.map_key_token?
  have faults := h.filterMap_eq Located.map_fault_error?
  rw [CPretty.tokenize, CPretty.tokenize]
  cases he : (lexemes text).filterMap Located.error? with
  | nil =>
    rw [he, List.map_nil, eq_comm, List.map_eq_nil_iff] at faults
    rw [faults]
    exact .inl ⟨_, _, rfl, rfl, keys, h.comments, h.symm.comments⟩
  | cons e es =>
    rw [he] at faults
    cases he' : (lexemes text').filterMap Located.error? with
    | nil =>
      rw [he'] at faults
      cases faults
    | cons e' es' =>
      rw [he'] at faults
      exact .inr ⟨_, _, rfl, rfl, faults⟩

theorem Printout.undotted {xs : List Token} {ns : List Node} (h : Printout xs ns)
    (hx : AllLexed xs) (hn : ∀ n ∈ ns, n.Every Shape.KeepsDots) : Undotted xs := by
  induction h with
  | nil => exact .nil
  | declaration h _ ih =>
    rw [List.forall_mem_cons] at hn
    rw [allLexed_append] at hx
    exact (h.keepDots hx.1 (List.forall_mem_singleton.mpr hn.1)).append (ih hx.2 hn.2)
  | definition hs hh hd hb _ ih =>
    rw [List.forall_mem_cons] at hn
    simp only [allLexed_append] at hx
    obtain ⟨⟨⟨⟨hxs, hys⟩, hzs⟩, hws⟩, hts⟩ := hx
    have hc := (Node.Every.mk_iff.mp hn.1).2
    simp only [Shape.children, List.forall_mem_append, List.forall_mem_singleton,
      toList_head?_of_cases (hs.optional_cases rfl)] at hc
    obtain ⟨⟨⟨⟨hspecs, hname⟩, hparams⟩, hds⟩, hbody⟩ := hc
    have header := (Node.every_attachParams_iff Node.lenient_keepsDots _).mpr ⟨hname, hparams⟩
    have declarator := hh.keepDots hys (List.forall_mem_singleton.mpr header)
    have block := hb.keepDots hws (List.forall_mem_singleton.mpr hbody)
    exact ((((hs.keepDots hxs hspecs).append declarator).append (hd.keepDots hzs hds)).append
      block).append (ih hts hn.2)

variable {source : String} {o o' : Options} {parsed : Parsed}

theorem format_marks (h : parse source o = .ok parsed)
    (ho : o.maxNestingDepth = o'.maxNestingDepth) :
    ∃ text text' ms, format source o = .ok text ∧ format source o' = .ok text' ∧
      Spread true ms text.toList ∧ Spread true ms text'.toList ∧
      (∀ k ∈ words ms, k.Canonical) ∧ Abutting none false ms ∧
      (parsed.tree.Every Shape.KeepsDots → dotsApart (words ms) = true) := by
  have h' : parse source o' = .ok parsed := by
    rw [← h, parse, parse, Options.nestingLimit, Options.nestingLimit, ho]
  obtain ⟨stream, hs, htree, -⟩ := parse_cases h
  obtain ⟨sp, ns, hroot, hder⟩ := TokenStream.derives_of_parse htree
  obtain ⟨ys, hp, hy⟩ := hder.printout (lexed_of_tokenize hs)
  obtain ⟨doc, ms, hd, hm, hw, hr⟩ := hp.toDoc hy sp
  rw [← hroot] at hd
  obtain ⟨doc₁, hd₁, hf⟩ := format_of_parse h
  obtain ⟨doc₂, hd₂, hf'⟩ := format_of_parse h'
  obtain rfl : doc = doc₁ := Except.ok.inj (hd.symm.trans hd₁)
  obtain rfl : doc = doc₂ := Except.ok.inj (hd.symm.trans hd₂)
  have hc : ∀ k ∈ words ms, k.Canonical := hw ▸ canonical_of_mem_canonicalKeys hy
  have solid : ∀ k ∈ words ms, k.Solid := fun k hk => (hc k hk).solid
  refine ⟨_, _, ms, hf, hf', hm.render solid o, hm.render solid o', hc, abutting_of_run hr, ?_⟩
  intro hk
  rw [hroot, Node.Every.mk_iff] at hk
  rw [hw, dotsApart_canonicalKeys]
  exact (hp.undotted hy hk.2).apart

/-- Widths do not change what a source is formatted to but for its blanks. The two texts have the
same tokens and no comments; only where digits alone stand before a dot may they have none, and then
they have the same faults. -/
theorem format_layouts (source : String) (ho : o.maxNestingDepth = o'.maxNestingDepth) :
    (∃ e, format source o = .error e ∧ format source o' = .error e) ∨
    ∃ parsed text text', parse source o = .ok parsed ∧ format source o = .ok text ∧
      format source o' = .ok text' ∧
      ((∃ stream stream', tokenize text = .ok stream ∧ tokenize text' = .ok stream' ∧
          stream.tokens.map Token.key = stream'.tokens.map Token.key ∧
          stream.comments = [] ∧ stream'.comments = []) ∨
        ¬ parsed.tree.Every Shape.KeepsDots ∧ ∃ es es', tokenize text = .error es ∧
          tokenize text' = .error es' ∧ es.map LexError.fault = es'.map LexError.fault) := by
  cases h : parse source o with
  | error es =>
    have h' : parse source o' = .error es := by
      rw [← h, parse, parse, Options.nestingLimit, Options.nestingLimit, ho]
    exact .inl ⟨_, format_of_error h, format_of_error h'⟩
  | ok parsed =>
    obtain ⟨text, text', ms, hf, hf', hsp, hsp', hc, ha, hk⟩ := format_marks h ho
    refine .inr ⟨parsed, text, text', rfl, hf, hf', ?_⟩
    obtain htok | ⟨es, es', he, he', hes⟩ :=
      (hsp.readAlike hsp' hc ha .start .start true true).tokenize
    · exact .inl htok
    · refine .inr ⟨fun hkeep => ?_, es, es', he, he', hes⟩
      obtain ⟨stream, hs, -⟩ := hsp.tokenize hc ha (hk hkeep)
      rw [hs] at he
      cases he

/-- A sum on one line and on two, read as the same tokens; and one with digits that a dot and a name
make malformed in both layouts. -/
theorem format_layouts_narrow :
    (∃ stream stream', tokenize "int a = b + c;\n" = .ok stream ∧
      tokenize "int a = b +\n  c;\n" = .ok stream' ∧
      stream.tokens.map Token.key = stream'.tokens.map Token.key) ∧
    ∃ es es', tokenize "int a = 1.f0x + 2;\n" = .error es ∧
      tokenize "int a = 1.f0x +\n  2;\n" = .error es' ∧
      es.map LexError.fault = es'.map LexError.fault := by
  have layouts (source text text' : String)
      (hf : (format source {}).toOption.any (· == text) = true)
      (hf' : (format source { printWidth := 1 }).toOption.any (· == text') = true) :
      (∃ stream stream', tokenize text = .ok stream ∧ tokenize text' = .ok stream' ∧
        stream.tokens.map Token.key = stream'.tokens.map Token.key) ∨
      ∃ es es', tokenize text = .error es ∧ tokenize text' = .error es' ∧
        es.map LexError.fault = es'.map LexError.fault := by
    obtain ⟨t, hf, ht⟩ := exists_ok_of_any hf
    obtain ⟨t', hf', ht'⟩ := exists_ok_of_any hf'
    obtain ⟨e, he, -⟩ | ⟨_, t₁, t₂, -, h₁, h₂, h⟩ :=
      @format_layouts {} { printWidth := 1 } source rfl
    · rw [hf] at he
      cases he
    · obtain rfl : t = t₁ := Except.ok.inj (hf.symm.trans h₁)
      obtain rfl : t' = t₂ := Except.ok.inj (hf'.symm.trans h₂)
      rw [← eq_of_beq ht, ← eq_of_beq ht']
      obtain ⟨s, s', hs, hs', hk, -⟩ | ⟨-, h⟩ := h
      · exact .inl ⟨s, s', hs, hs', hk⟩
      · exact .inr h
  have valid : (tokenize "int a = b + c;\n").toOption.isSome = true := by decide +kernel
  have faulty : (tokenize "int a = 1.f0x + 2;\n").toOption.isSome = false := by decide +kernel
  constructor
  · obtain h | ⟨_, _, he, -⟩ := layouts "int a=b+c;" "int a = b + c;\n" "int a = b +\n  c;\n"
      (by decide +kernel) (by decide +kernel)
    · exact h
    · rw [he] at valid
      cases valid
  · obtain ⟨_, _, hs, -⟩ | h := layouts "int a=1 .f0x+2;" "int a = 1.f0x + 2;\n"
      "int a = 1.f0x +\n  2;\n" (by decide +kernel) (by decide +kernel)
    · rw [hs] at faulty
      cases faulty
    · exact h

end CPretty
