import CPretty.Proofs.Token.Pattern
import CPretty.Proofs.Token.Segments

namespace CPretty

open Scan

variable {c : Char} {cs v text rest : List Char} {k k' : Kind}

theorem prefix_takeWhile {p : Char → Bool} (h : ∀ c ∈ v, p c = true) (rest : List Char) :
    v <+: (v ++ rest).takeWhile p := by
  rw [List.takeWhile_append_of_pos h]
  exact List.prefix_append v _

theorem IsFraction.prefix_fraction (h : IsFraction v) : v <+: fraction (v ++ rest) := by
  obtain rfl | ⟨ds, rfl, hd⟩ := h
  · exact List.nil_prefix
  · exact (List.prefix_cons_inj _).mpr (prefix_takeWhile hd _)

theorem IsExponent.prefix_exponent (h : IsExponent v) : v <+: exponent (v ++ rest) := by
  obtain rfl | ⟨e, sign, d, ds, rfl, he, hs, hd⟩ := h
  · exact List.nil_prefix
  · have mark : (e == 'e' || e == 'E') = true := by simpa using he
    have first : isDigit d = true := hd d List.mem_cons_self
    have digits : d :: ds <+: (d :: ds ++ rest).takeWhile isDigit := prefix_takeWhile hd _
    have signs : isDigit '+' = false ∧ isDigit '-' = false := by decide
    obtain rfl | rfl | rfl := hs
    · simpa [exponent, mark, first] using digits
    · simpa [exponent, mark, first, signs] using digits
    · simpa [exponent, mark, first, signs] using digits

theorem IsSuffix.prefix_numberSuffix {isFloat : Bool} (h : IsSuffix isFloat v) :
    v <+: numberSuffix isFloat (v ++ rest) := by
  cases isFloat with
  | false => exact prefix_takeWhile h _
  | true =>
    obtain ⟨hl, hv⟩ := h
    match v, hl, hv with
    | [], _, _ => exact List.nil_prefix
    | [c], _, hv => simp [numberSuffix, hv c]

theorem Halts.append_of_ne_nil {p : Char → Bool} (h : Halts p v) (hne : v ≠ [])
    (rest : List Char) : Halts p (v ++ rest) := by
  obtain ⟨c, cs, rfl⟩ := List.exists_cons_of_ne_nil hne
  exact h

theorem append_prefix_append {xs ys part tail : List Char} (hx : xs <+: part)
    (he : ys ≠ [] → part = xs) (hy : part = xs → ys <+: tail) : xs ++ ys <+: part ++ tail := by
  by_cases h : part = xs
  · rw [h]
    exact (List.prefix_append_right_inj xs).mpr (hy h)
  · obtain rfl : ys = [] := by_contra fun hne => h (he hne)
    rw [List.append_nil]
    exact hx.trans (List.prefix_append part tail)

/-- A decimal number at the head of a text is part of the one that is read there. -/
theorem prefix_decimal {whole point power suffix : List Char}
    (hw : ∀ c ∈ whole, isDigit c = true) (hp : IsFraction point) (he : IsExponent power)
    (hs : IsSuffix (!point.isEmpty || !power.isEmpty) suffix) (rest : List Char) :
    whole ++ (point ++ (power ++ suffix)) <+:
      decimal (whole ++ (point ++ (power ++ (suffix ++ rest)))) := by
  have tail {p : Char → Bool} (hp : ['f', 'F', 'l', 'L', 'u', 'U'].all (!p ·) = true)
      (he' : p 'e' = false) (hE : p 'E' = false) : Halts p (power ++ suffix) :=
    (he.halts he' hE).append (hs.halts hp)
  have head : Halts isDigit (point ++ (power ++ suffix)) := by
    refine Halts.append ?_ (tail (by decide) (by decide) (by decide))
    obtain rfl | ⟨ds, rfl, -⟩ := hp
    · exact nofun
    · rintro _ ⟨⟩
      decide
  simp only [decimal, List.append_assoc]
  apply append_prefix_append (prefix_takeWhile hw _) fun hne => takeWhile_eq_left hw ?_
  · intro digits
    simp only [digits, List.drop_left]
    apply append_prefix_append hp.prefix_fraction fun hne => hp.fraction_append ?_ fun _ => ?_
    · intro point_eq
      have drop : (whole ++ (point ++ (power ++ (suffix ++ rest)))).drop (whole ++ point).length =
          power ++ (suffix ++ rest) := by
        rw [← List.append_assoc, List.drop_left]
      simp only [point_eq, drop]
      apply append_prefix_append he.prefix_exponent fun hne => he.exponent_append ?_ fun _ => ?_
      · intro power_eq
        have drop' : (whole ++ (point ++ (power ++ (suffix ++ rest)))).drop
            (whole ++ (point ++ power)).length = suffix ++ rest := by
          rw [← List.append_assoc, ← List.append_assoc, ← List.append_assoc, List.drop_left]
        simp only [power_eq, drop']
        exact hs.prefix_numberSuffix
      · exact (hs.halts (by decide)).append_of_ne_nil hne rest
      · exact (hs.halts (by decide)).append_of_ne_nil hne rest
    · rw [← List.append_assoc]
      exact (tail (by decide) (by decide) (by decide)).append_of_ne_nil hne rest
    · rw [← List.append_assoc]
      exact (tail (by decide) (by decide) (by decide)).append_of_ne_nil hne rest
  · simpa using head.append_of_ne_nil hne rest

theorem Lexical.unique (h : Lexical k v) (h' : Lexical k' v) : k = k' := by
  obtain ⟨c, cs, rfl⟩ := List.exists_cons_of_ne_nil h.ne_nil
  have ends {k : Kind} : Ends k (c :: cs) [] := by simp [Ends]
  have one := h.lexeme (b := false) ends
  rw [h'.lexeme ends] at one
  simpa using (congrArg Prod.fst one).symm

theorem token_stringLiteral {m : List Char} (hm : m = [] ∨ String.ofList m ∈ literalMarks)
    (hr : m ++ '"' :: rest = c :: cs) :
    Scan.token c cs = (stringTail rest).map id (m ++ '"' :: ·) := by
  obtain rfl | hm := hm
  · cases hr
    rfl
  · have marked := word_mark hm (q := '"') (by decide) rest
    obtain ⟨d, ds, rfl, hd, hd', -, -⟩ := literalMarks_chars hm
    cases hr
    exact (token_of_wordStart hd hd' _).trans marked

theorem token_char {m : List Char} (hm : m = [] ∨ String.ofList m ∈ literalMarks)
    (hr : m ++ '\'' :: rest = c :: cs) :
    Scan.token c cs = (charTail rest).map id (m ++ '\'' :: ·) := by
  obtain rfl | hm := hm
  · cases hr
    rfl
  · have marked := word_mark hm (q := '\'') (by decide) rest
    obtain ⟨d, ds, rfl, hd, hd', -, -⟩ := literalMarks_chars hm
    cases hr
    exact (token_of_wordStart hd hd' _).trans marked

theorem prefix_hexadecimal (mark : List Char) {digits suffix : List Char}
    (hd : ∀ c ∈ digits, isHexDigit c = true) (hne : digits ≠ [])
    (hs : ∀ c ∈ suffix, isIntegerSuffix c = true) (rest : List Char) :
    mark ++ (digits ++ suffix) <+: (hexadecimal mark (digits ++ (suffix ++ rest))).2 := by
  have filled : (digits ++ (suffix ++ rest)).takeWhile isHexDigit ≠ [] :=
    fun h => hne (List.prefix_nil.mp (h ▸ prefix_takeWhile hd _))
  have halts : Halts isHexDigit suffix := by
    intro x hx
    have letter := hs x (List.mem_of_mem_head? hx)
    simp only [isIntegerSuffix, Bool.or_eq_true, beq_iff_eq] at letter
    obtain ((rfl | rfl) | rfl) | rfl := letter <;> decide
  rw [hexadecimal, if_neg (by simpa using filled), List.append_assoc,
    List.prefix_append_right_inj]
  apply append_prefix_append (prefix_takeWhile hd _) fun hne => takeWhile_eq_left hd ?_
  · intro digits_eq
    rw [digits_eq, List.drop_left]
    exact prefix_takeWhile hs _
  · exact halts.append_of_ne_nil hne rest

/-- The sizes of punctuators are tried from the greatest to the least. -/
theorem length_le_punctuator (hv : Kind.ofPunctuator? (String.ofList v) = some k') (hp : v <+: cs)
    (h : punctuator? cs = some (k, text)) : v.length ≤ text.length := by
  have sizes : ∀ p ∈ Kind.punctuatorSpellings, p.1.toList.length ∈ [3, 2, 1] := by decide
  have size : v.length ∈ [3, 2, 1] := by simpa using sizes _ (mem_punctuatorSpellings hv)
  have descending : [3, 2, 1].Pairwise (· > ·) := by decide
  obtain ⟨before, n, after, hn, hf, hb⟩ := List.findSome?_eq_some_iff.mp h
  obtain ⟨k'', -, hk⟩ := Option.map_eq_some_iff.mp hf
  cases hk
  rw [hn] at size descending
  rw [List.length_take]
  refine le_min ?_ hp.length_le
  obtain hm | hm := List.mem_append.mp size
  · have none := hb _ hm
    rw [← List.prefix_iff_eq_take.mp hp, hv] at none
    cases none
  · obtain rfl | hm := List.mem_cons.mp hm
    · exact le_rfl
    · have later := (List.pairwise_append.mp descending).2.1
      exact Nat.le_of_lt ((List.pairwise_cons.mp later).1 _ hm)

theorem decimal_mark {x : Char} (hx : x = 'x' ∨ x = 'X') (cs : List Char) :
    decimal ('0' :: x :: cs) = ['0'] := by
  obtain rfl | rfl := hx <;> rfl

theorem length_le_number (hp : v <+: decimal cs) (hne : (number cs).2 ≠ []) :
    v.length ≤ (number cs).2.length := by
  have one : 1 ≤ (number cs).2.length := List.length_pos_iff.mpr hne
  revert hp one
  fun_cases number cs with
  | case1 cs =>
    intro hp one
    rw [decimal_mark (.inl rfl)] at hp
    exact hp.length_le.trans one
  | case2 cs =>
    intro hp one
    rw [decimal_mark (.inr rfl)] at hp
    exact hp.length_le.trans one
  | case3 => exact fun hp _ => hp.length_le

theorem takeWhile_prefix_word (cs : List Char) : cs.takeWhile isWordChar <+: (word cs).2 := by
  rw [word]
  split
  · split
    · exact List.prefix_append _ _
    · exact List.prefix_append _ _
    · exact List.prefix_rfl
  · exact List.prefix_rfl

theorem punctuator_head (hv : Kind.ofPunctuator? (String.ofList v) = some k')
    (hp : v <+: c :: cs) :
    (c ≠ '"' ∧ c ≠ '\'') ∧ isWordStart c = false ∧ isDigit c = false := by
  have heads : ∀ p ∈ Kind.punctuatorSpellings, (p.1.toList.head?.any fun x =>
      x != '"' && x != '\'' && (!isWordStart x && !isDigit x)) = true := by decide
  have head := heads _ (mem_punctuatorSpellings hv)
  rw [String.toList_ofList] at head
  cases v with
  | nil => cases head
  | cons d ds =>
    obtain ⟨rfl, -⟩ := List.cons_prefix_cons.mp hp
    simpa using head

theorem startsNumber_cases (h : startsNumber (c :: cs) = true) :
    isDigit c = true ∨ c = '.' ∧ cs.head?.any isDigit = true := by
  generalize hx : c :: cs = xs at h
  fun_cases startsNumber xs with
  | case1 d ds =>
    cases hx
    exact .inr ⟨rfl, h⟩
  | case2 d ds hn =>
    cases hx
    rw [startsNumber.eq_2 _ _ hn] at h
    exact .inl h
  | case3 => cases hx

theorem eq_point (hv : Kind.ofPunctuator? (String.ofList v) = some k') (hp : v <+: c :: cs)
    (h : startsNumber (c :: cs) = true) : v = ['.'] := by
  have dots : ∀ p ∈ Kind.punctuatorSpellings, p.1.toList.head? = some '.' →
      p.1.toList = ['.'] ∨ p.1.toList = ['.', '.', '.'] := by decide
  have dot := dots _ (mem_punctuatorSpellings hv)
  rw [String.toList_ofList] at dot
  obtain hd | ⟨rfl, hd⟩ := startsNumber_cases h
  · rw [(punctuator_head hv hp).2.2] at hd
    cases hd
  · obtain ⟨d, ds, rfl⟩ := List.exists_cons_of_ne_nil (Lexical.punctuator hv).ne_nil
    obtain ⟨rfl, hs⟩ := List.cons_prefix_cons.mp hp
    refine (dot rfl).resolve_right fun he => ?_
    cases he
    obtain ⟨r, rfl⟩ := hs
    have point : isDigit '.' = true := hd
    revert point
    decide

/-- No text of a token at the head of a source is longer than the token that is read there. -/
theorem Lexical.length_le (hv : Lexical k' v) (hp : v <+: c :: cs)
    (h : Scan.token c cs = (.token k, text)) : v.length ≤ text.length := by
  obtain ⟨rest, hr⟩ := id hp
  have filled : text ≠ [] := (token_ok h).ne_nil
  cases hv with
  | string hm ht =>
    rw [List.append_assoc, List.cons_append] at hr
    rw [token_stringLiteral hm hr, stringTail_append ht] at h
    cases h
    exact le_rfl
  | char hm ht hne =>
    rw [List.append_assoc, List.cons_append] at hr
    rw [token_char hm hr, charTail_append ht hne] at h
    cases h
    exact le_rfl
  | @decimal whole point power suffix hw hpoint hne he hs =>
    have starts := startsNumber_append hw hpoint hne (power ++ suffix ++ rest)
    have part := prefix_decimal hw hpoint he hs rest
    simp only [← List.append_assoc] at starts part
    rw [hr] at starts part
    rw [token_of_startsNumber starts] at h
    have longest := length_le_number part
    rw [h] at longest
    exact longest filled
  | @hexadecimal x digits suffix hx hne hd hs =>
    have part := prefix_hexadecimal ['0', x] hd hne hs rest
    simp only [List.cons_append, List.append_assoc] at hr
    obtain ⟨rfl, rfl⟩ := List.cons.inj hr
    have marked : number ('0' :: x :: (digits ++ (suffix ++ rest))) =
        Scan.hexadecimal ['0', x] (digits ++ (suffix ++ rest)) := by
      obtain rfl | rfl := hx <;> rfl
    rw [token_of_startsNumber rfl, marked] at h
    rw [h] at part
    exact part.length_le
  | @word d ds hc hw =>
    rw [List.cons_append] at hr
    obtain ⟨rfl, rfl⟩ := List.cons.inj hr
    rw [token_of_wordStart hc (isDigit_eq_false_of_isWordStart hc)] at h
    have letters : ∀ e ∈ d :: ds, isWordChar e = true :=
      List.forall_mem_cons.mpr ⟨by simp [isWordChar, hc], hw⟩
    have part := (prefix_takeWhile letters rest).trans (takeWhile_prefix_word _)
    rw [List.cons_append, h] at part
    exact part.length_le
  | punctuator hk =>
    by_cases hn : startsNumber (c :: cs) = true
    · rw [eq_point hk hp hn]
      exact List.length_pos_iff.mpr filled
    · obtain ⟨hq, hw⟩ := punctuator_head hk hp
      rw [Scan.token, if_neg hq.1, if_neg hq.2, if_neg hn, if_neg (by simp [hw.1])] at h
      split at h
      next hf =>
        cases h
        exact length_le_punctuator hk hp hf
      next => cases h

/-- The text is the longest one of the language at the head of a source. -/
def IsLongest (l : Language Char) (cs text : List Char) : Prop :=
  text <+: cs ∧ text ∈ l ∧ ∀ v ∈ l, v <+: cs → v.length ≤ text.length

theorem isLongest_token (h : Scan.token c cs = (.token k, text)) :
    IsLongest Pattern.token (c :: cs) text ∧ ∀ k', text ∈ k'.pattern ↔ k' = k := by
  have hx := token_ok h
  refine ⟨⟨?_, mem_token_iff.mpr ⟨k, hx⟩, fun v hv hp => ?_⟩, fun k' => ?_⟩
  · obtain ⟨tail, ht, hp⟩ := exists_token c cs
    rw [h] at ht
    obtain rfl : text = c :: tail := ht
    exact (List.prefix_cons_inj c).mpr hp
  · obtain ⟨k', hv⟩ := mem_token_iff.mp hv
    exact hv.length_le hp h
  · constructor
    · intro hk
      exact (lexical_iff.mpr hk).unique hx
    · rintro rfl
      exact lexical_iff.mp hx

/-- Every token of a source is the longest text that a token can have at its place, and it is of the
one kind that can have this text. -/
theorem tokenize_longest {source : String} {stream : TokenStream}
    (h : tokenize source = .ok stream) : ∀ t ∈ stream.tokens, ∃ before rest,
      source.toList = before ++ rest ∧ t.location = .behind before ∧
      IsLongest Pattern.token rest t.text.toList ∧ ∀ k, t.text.toList ∈ k.pattern ↔ k = t.kind := by
  intro t ht
  have hl : t.located ∈ stream.located := by
    rw [TokenStream.located, List.mem_merge]
    exact .inl (List.mem_map_of_mem ht)
  obtain ⟨ss, rest, hls, hs, -, -, hat⟩ := (located_of_tokenize h).segments
  rw [← hls, List.mem_map] at hl
  obtain ⟨s, hm, he⟩ := hl
  obtain ⟨before, after, rfl⟩ := List.append_of_mem hm
  obtain ⟨hloc, c, tail, htext, -, hread⟩ := hat before s after rfl
  rw [he] at hloc htext hread
  obtain ⟨longest, kind⟩ := isLongest_token (token_of_lexeme hread)
  have text : t.text.toList = c :: tail := htext
  refine ⟨Segment.joined before ++ s.gap, c :: (tail ++ (Segment.joined after ++ rest)), ?_, ?_, ?_⟩
  · rw [hs, Segment.joined, List.flatMap_append, List.flatMap_cons, he]
    simp [Segment.joined, htext]
  · exact hloc.trans (Location.start_after _)
  · rw [text]
    exact ⟨longest, kind⟩

/-- A number with a suffix, names next to operators, and a literal with its mark. -/
theorem tokenize_longest_run : ∃ stream, tokenize "x+++=.5e+L\"a\\\"b\"<:0x1fUL" = .ok stream ∧
    stream.tokens.map Token.text =
      ["x", "++", "+=", ".5", "e", "+", "L\"a\\\"b\"", "<:", "0x1fUL"] ∧
    ∀ t ∈ stream.tokens, ∃ before rest,
      "x+++=.5e+L\"a\\\"b\"<:0x1fUL".toList = before ++ rest ∧ t.location = .behind before ∧
      IsLongest Pattern.token rest t.text.toList ∧ ∀ k, t.text.toList ∈ k.pattern ↔ k = t.kind := by
  obtain ⟨stream, h, hs⟩ := exists_ok_of_any (x := tokenize "x+++=.5e+L\"a\\\"b\"<:0x1fUL")
    (p := fun s => s.tokens.map Token.text ==
      ["x", "++", "+=", ".5", "e", "+", "L\"a\\\"b\"", "<:", "0x1fUL"]) (by decide +kernel)
  exact ⟨stream, h, eq_of_beq hs, tokenize_longest h⟩

end CPretty
