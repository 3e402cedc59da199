import CPretty.Proofs.Token.Lexical

namespace CPretty

open Scan

variable {b : Bool} {c x : Char} {cs rest tail text mark : List Char} {k : Kind}

/-- The character ends the token: it cannot go on with it. -/
structure Apart (k : Kind) (text : List Char) (x : Char) : Prop where
  number : k = .constant → isWordChar x = false ∧ (x = '.' → text.all isDigit = false)
  word : text.all isWordChar = true → isWordChar x = false ∧ x ≠ '"' ∧ x ≠ '\''
  punctuator : Kind.ofPunctuator? (String.ofList text) = some k →
    (∀ p ∈ Kind.punctuatorSpellings, ¬ text ++ [x] <+: p.1.toList) ∧
      (text = ['.'] → isDigit x = false) ∧ (text = ['/'] → x ≠ '/' ∧ x ≠ '*')

def Ends (k : Kind) (text rest : List Char) : Prop := ∀ x ∈ rest.head?, Apart k text x

theorem Ends.halts {p : Char → Bool} (h : Ends k text rest) (hk : k = .constant)
    (hp : ∀ {x}, p x = true → isWordChar x = true) : Halts p rest := by
  intro x hx
  have hw := ((h x hx).number hk).1
  cases hp' : p x with
  | false => rfl
  | true => rw [hp hp'] at hw; cases hw

theorem stringTail_append (h : Closed '"' tail) (rest : List Char) :
    stringTail (tail ++ rest) = (.token .stringLiteral, tail) := by
  rw [stringTail, quotedTail_append h rest]
  rfl

theorem charTail_append (h : Closed '\'' tail) (hne : tail ≠ ['\'']) (rest : List Char) :
    charTail (tail ++ rest) = (.token .constant, tail) := by
  have hq := quotedTail_append h rest
  cases tail with
  | nil => simp [Closed, quotedTail] at h
  | cons x tail =>
    have hx : x ≠ '\'' := by
      rintro rfl
      rw [Closed, quotedTail_cons (by decide)] at h
      exact hne (by simpa using h.symm)
    rw [charTail_cons (by simpa using hx), hq]
    rfl

theorem literalMarks_chars (h : String.ofList mark ∈ literalMarks) :
    ∃ c cs, mark = c :: cs ∧ isWordStart c = true ∧ isDigit c = false ∧ c ≠ '.' ∧
      ∀ d ∈ mark, isWordChar d = true := by
  have marks : ∀ m ∈ literalMarks, ((m.toList.head?.any fun c =>
      isWordStart c && !isDigit c && c != '.') && m.toList.all isWordChar) = true := by decide
  have hm := marks _ h
  rw [String.toList_ofList] at hm
  cases mark with
  | nil => simp at hm
  | cons d ds =>
    simp only [List.head?_cons, Option.any_some, Bool.and_eq_true, Bool.not_eq_true', bne_iff_ne,
      List.all_eq_true] at hm
    obtain ⟨⟨⟨h₁, h₂⟩, h₃⟩, h₄⟩ := hm
    exact ⟨d, ds, rfl, h₁, h₂, h₃, h₄⟩

theorem word_mark (h : String.ofList mark ∈ literalMarks) {q : Char} (hq : isWordChar q = false)
    (rest : List Char) : word (mark ++ q :: rest) = match q :: rest with
      | '"' :: rest => (stringTail rest).map id (mark ++ '"' :: ·)
      | '\'' :: rest => (charTail rest).map id (mark ++ '\'' :: ·)
      | _ => (.token (Kind.ofWord (String.ofList mark)), mark) := by
  obtain ⟨c, ds, -, -, -, -, hw⟩ := literalMarks_chars h
  have ht : (mark ++ q :: rest).takeWhile isWordChar = mark :=
    takeWhile_eq_left hw (by simpa [Halts] using hq)
  rw [word, ht, List.drop_left]
  exact if_pos (by simpa using h)

theorem token_of_wordStart (h : isWordStart c = true) (hd : isDigit c = false) (cs : List Char) :
    Scan.token c cs = word (c :: cs) := by
  have hq : c ≠ '"' ∧ c ≠ '\'' ∧ c ≠ '.' := by
    refine ⟨?_, ?_, ?_⟩ <;> (rintro rfl; revert h; decide)
  have hn : startsNumber (c :: cs) = false := by
    rw [startsNumber.eq_2]
    · exact hd
    · rintro d ds h -
      exact hq.2.2 h
  simp [Scan.token, hq, hn, h]

theorem Halts.append {p : Char → Bool} {xs ys : List Char} (hx : Halts p xs) (hy : Halts p ys) :
    Halts p (xs ++ ys) := by
  cases xs with
  | nil => exact hy
  | cons c cs => exact hx

theorem isDigit_eq_false_of_isWordStart (h : isWordStart c = true) : isDigit c = false := by
  simp only [isWordStart, isDigit, Bool.or_eq_true, Bool.and_eq_true, decide_eq_true_eq,
    beq_iff_eq, Bool.and_eq_false_iff, decide_eq_false_iff_not] at h ⊢
  refine .inr fun hc => ?_
  obtain (h | h) | rfl := h
  · exact absurd (Char.le_trans h.1 hc) (by decide)
  · exact absurd (Char.le_trans h.1 hc) (by decide)
  · exact absurd hc (by decide)

/-- The classes of characters that go on with a part of a number are all word characters. -/
theorem IsSuffix.halts {p : Char → Bool} {isFloat : Bool} (h : IsSuffix isFloat cs)
    (hp : ['f', 'F', 'l', 'L', 'u', 'U'].all (!p ·) = true) : Halts p cs := by
  intro x hx
  have hm := List.mem_of_mem_head? hx
  rw [List.all_eq_true] at hp
  rw [← Bool.not_eq_true']
  apply hp
  cases isFloat with
  | false =>
    have := h x hm
    simp only [isIntegerSuffix, Bool.or_eq_true, beq_iff_eq] at this
    obtain ((rfl | rfl) | rfl) | rfl := this <;> decide
  | true =>
    have := h.2 x hm
    simp only [isFloatSuffix, Bool.or_eq_true, beq_iff_eq] at this
    obtain ((rfl | rfl) | rfl) | rfl := this <;> decide

theorem IsExponent.halts {p : Char → Bool} (h : IsExponent cs) (he : p 'e' = false)
    (hE : p 'E' = false) : Halts p cs := by
  obtain rfl | ⟨e, sign, d, ds, rfl, rfl | rfl, -, -⟩ := h
  · simp [Halts]
  · simpa [Halts] using he
  · simpa [Halts] using hE

theorem IsFraction.fraction_append (h : IsFraction cs) (hd : Halts isDigit rest)
    (hp : cs = [] → Halts (· == '.') rest) : fraction (cs ++ rest) = cs := by
  obtain rfl | ⟨ds, rfl, hx⟩ := h
  · rw [List.nil_append, fraction.eq_2]
    rintro ds rfl
    exact absurd (hp rfl '.' rfl) (by decide)
  · simp [fraction, takeWhile_eq_left hx hd]

theorem IsExponent.exponent_append (h : IsExponent cs) (hd : Halts isDigit rest)
    (he : cs = [] → Halts (fun x => x == 'e' || x == 'E') rest) : exponent (cs ++ rest) = cs := by
  obtain rfl | ⟨e, sign, d, ds, rfl, hx, hs, hds⟩ := h
  · cases rest with
    | nil => rfl
    | cons x xs => simp_all [Halts, exponent]
  · have hx' : (e == 'e' || e == 'E') = true := by simpa using hx
    have digits := takeWhile_eq_left hds hd
    have hdd : isDigit d = true := hds d (by simp)
    obtain rfl | rfl | rfl := hs
    · simp only [List.cons_append, List.nil_append, exponent, hx', hdd, if_true] at digits ⊢
      rw [digits]
    · have hp : isDigit '+' = false := by decide
      simp only [List.cons_append, List.nil_append, exponent, hx', hp, if_true] at digits ⊢
      simp [hdd, digits]
    · have hp : isDigit '-' = false := by decide
      simp only [List.cons_append, List.nil_append, exponent, hx', hp, if_true] at digits ⊢
      simp [hdd, digits]

theorem IsSuffix.numberSuffix_append {isFloat : Bool} (h : IsSuffix isFloat cs)
    (hf : Halts isFloatSuffix rest) (hi : Halts isIntegerSuffix rest) :
    numberSuffix isFloat (cs ++ rest) = cs := by
  cases isFloat with
  | false => exact takeWhile_eq_left h hi
  | true =>
    obtain ⟨hl, hc⟩ := h
    match cs, hl, hc with
    | [], _, _ =>
      cases rest with
      | nil => rfl
      | cons x xs => simp [numberSuffix, hf x rfl]
    | [x], _, hc => simp [numberSuffix, hc x]

theorem decimal_append {whole point power suffix : List Char}
    (hw : ∀ c ∈ whole, isDigit c = true) (hp : IsFraction point) (he : IsExponent power)
    (hs : IsSuffix (!point.isEmpty || !power.isEmpty) suffix)
    (h : Ends .constant (whole ++ point ++ power ++ suffix) rest) :
    decimal (whole ++ point ++ power ++ suffix ++ rest) = whole ++ point ++ power ++ suffix := by
  have hrest {p : Char → Bool} (hp : ∀ {x}, p x = true → isWordChar x = true) : Halts p rest :=
    h.halts rfl hp
  have hdigit : Halts isDigit (suffix ++ rest) :=
    (hs.halts (by decide)).append (hrest isWordChar_of_isDigit)
  have hdigit' : Halts isDigit (power ++ (suffix ++ rest)) :=
    (he.halts (by decide) (by decide)).append hdigit
  have hdigit'' : Halts isDigit (point ++ (power ++ (suffix ++ rest))) := by
    refine Halts.append ?_ hdigit'
    obtain rfl | ⟨ds, rfl, -⟩ := hp
    · simp [Halts]
    · intro x hx
      cases hx
      decide
  -- Only a number that is digits alone could go on with a point.
  have hpoint : point = [] → Halts (· == '.') (power ++ (suffix ++ rest)) := by
    rintro rfl
    by_cases hne : power = [] ∧ suffix = []
    · obtain ⟨rfl, rfl⟩ := hne
      intro x hx
      have := ((h x hx).number rfl).2
      simp only [List.append_nil, List.all_eq_false, beq_eq_false_iff_ne] at this ⊢
      rintro rfl
      obtain ⟨d, hd, hnd⟩ := this rfl
      exact hnd (hw d hd)
    · rw [← List.append_assoc]
      have hh := (he.halts (p := (· == '.')) (by decide) (by decide)).append
        (hs.halts (p := (· == '.')) (by decide))
      cases hps : power ++ suffix with
      | nil => exact absurd (List.append_eq_nil_iff.mp hps) hne
      | cons x xs => rwa [hps] at hh
  have hexp : power = [] → Halts (fun x => x == 'e' || x == 'E') (suffix ++ rest) := by
    intro _
    refine (hs.halts (by decide)).append (hrest ?_)
    intro x hx
    simp only [Bool.or_eq_true, beq_iff_eq] at hx
    obtain rfl | rfl := hx <;> decide
  have drop₂ : (whole ++ (point ++ (power ++ (suffix ++ rest)))).drop (whole ++ point).length =
      power ++ (suffix ++ rest) := by
    rw [← List.append_assoc, List.drop_left]
  have drop₃ : (whole ++ (point ++ (power ++ (suffix ++ rest)))).drop
      (whole ++ point ++ power).length = suffix ++ rest := by
    rw [← List.append_assoc, ← List.append_assoc, List.drop_left]
  simp only [List.append_assoc] at drop₃ ⊢
  rw [decimal, takeWhile_eq_left hw hdigit'']
  simp only [List.drop_left, hp.fraction_append hdigit' hpoint, drop₂,
    he.exponent_append hdigit hexp, List.append_assoc, drop₃,
    hs.numberSuffix_append (hrest isWordChar_of_isFloatSuffix)
      (hrest isWordChar_of_isIntegerSuffix)]

theorem hexadecimal_append (mark : List Char) {digits suffix : List Char} (hne : digits ≠ [])
    (hd : ∀ c ∈ digits, isHexDigit c = true) (hs : ∀ c ∈ suffix, isIntegerSuffix c = true)
    (h : Ends .constant text rest) : hexadecimal mark (digits ++ (suffix ++ rest)) =
      (.token .constant, mark ++ digits ++ suffix) := by
  have hsuffix : Halts isHexDigit suffix := by
    intro x hx
    have := hs x (List.mem_of_mem_head? hx)
    simp only [isIntegerSuffix, Bool.or_eq_true, beq_iff_eq] at this
    obtain ((rfl | rfl) | rfl) | rfl := this <;> decide
  have hdigits : (digits ++ (suffix ++ rest)).takeWhile isHexDigit = digits :=
    takeWhile_eq_left hd (hsuffix.append (h.halts rfl isWordChar_of_isHexDigit))
  rw [hexadecimal, hdigits, List.drop_left,
    takeWhile_eq_left hs (h.halts rfl isWordChar_of_isIntegerSuffix)]
  simp [hne]

theorem number_append {whole point power suffix : List Char}
    (hw : ∀ c ∈ whole, isDigit c = true) (hp : IsFraction point) (he : IsExponent power)
    (hs : IsSuffix (!point.isEmpty || !power.isEmpty) suffix)
    (h : Ends .constant (whole ++ point ++ power ++ suffix) rest) :
    number (whole ++ point ++ power ++ suffix ++ rest) =
      (.token .constant, whole ++ point ++ power ++ suffix) := by
  -- After a first zero there is no hexadecimal mark.
  have mark {x : Char} {ds : List Char} (hx : x = 'x' ∨ x = 'X') :
      whole ++ point ++ power ++ suffix ++ rest ≠ '0' :: x :: ds := by
    intro heq
    have halts : Halts (fun y => y == '0' || y == 'x' || y == 'X')
        (point ++ power ++ suffix ++ rest) := by
      refine Halts.append (Halts.append (Halts.append ?_ ?_) ?_) (h.halts rfl ?_)
      · obtain rfl | ⟨ds, rfl, -⟩ := hp
        · simp [Halts]
        · intro y hy
          cases hy
          decide
      · exact he.halts (by decide) (by decide)
      · exact hs.halts (by decide)
      · intro y hy
        simp only [Bool.or_eq_true, beq_iff_eq] at hy
        obtain (rfl | rfl) | rfl := hy <;> decide
    simp only [List.append_assoc] at heq halts
    rcases whole with _ | ⟨d, _ | ⟨d', ds'⟩⟩
    · rw [List.nil_append] at heq
      exact absurd (halts '0' (by rw [heq]; rfl)) (by decide)
    · rw [List.cons_append, List.nil_append, List.cons.injEq] at heq
      have := halts x (by rw [heq.2]; rfl)
      obtain rfl | rfl := hx <;> exact absurd this (by decide)
    · rw [List.cons_append, List.cons_append, List.cons.injEq, List.cons.injEq] at heq
      have := hw d' (by simp)
      obtain rfl | rfl := hx <;> (rw [heq.2.1] at this; exact absurd this (by decide))
  rw [number.eq_3, decimal_append hw hp he hs h]
  · exact fun ds heq => mark (.inl rfl) heq
  · exact fun ds heq => mark (.inr rfl) heq

theorem lexeme_eq_token (hh : c ≠ '#') (hs : c = '/' → ∀ x ∈ cs.head?, x ≠ '/' ∧ x ≠ '*') :
    Scan.lexeme b c cs = Scan.token c cs := by
  rw [Scan.lexeme, if_neg (by simp [hh])]
  · rintro tail rfl rfl
    exact (hs rfl '/' rfl).1 rfl
  · rintro tail rfl rfl
    exact (hs rfl '*' rfl).2 rfl

theorem token_of_startsNumber (h : startsNumber (c :: cs) = true) :
    Scan.token c cs = number (c :: cs) := by
  have hq : c ≠ '"' ∧ c ≠ '\'' := by
    refine ⟨?_, ?_⟩ <;>
      (rintro rfl; rw [startsNumber.eq_2 _ _ (by intros; contradiction)] at h; revert h; decide)
  simp [Scan.token, hq, h]

theorem punctuator?_append (hk : Kind.ofPunctuator? (String.ofList text) = some k)
    (hx : ∀ x ∈ rest.head?, ∀ p ∈ Kind.punctuatorSpellings, ¬ text ++ [x] <+: p.1.toList) :
    punctuator? (text ++ rest) = some (k, text) := by
  -- A longer piece of the source is no spelling, and a piece of the same length is the text.
  have longer {n : Nat} (hn : text.length < n) (hne : rest ≠ []) :
      Kind.ofPunctuator? (String.ofList ((text ++ rest).take n)) = none := by
    cases rest with
    | nil => exact absurd rfl hne
    | cons x xs =>
      refine Option.eq_none_iff_forall_ne_some.mpr fun k' hk' => ?_
      refine hx x rfl _ (mem_punctuatorSpellings hk') ?_
      rw [String.toList_ofList, List.take_append, List.take_of_length_le (Nat.le_of_lt hn)]
      obtain ⟨m, hm⟩ := Nat.exists_eq_add_of_lt hn
      simp [hm, Nat.add_assoc, List.prefix_append_right_inj]
  have same {n : Nat} (hn : text.length ≤ n) (hne : text.length = n ∨ rest = []) :
      (text ++ rest).take n = text := by
    obtain rfl | rfl := hne
    · exact List.take_left
    · simpa using List.take_of_length_le hn
  have size : text.length = 1 ∨ text.length = 2 ∨ text.length = 3 := by
    have sizes : ∀ p ∈ Kind.punctuatorSpellings,
        p.1.toList.length = 1 ∨ p.1.toList.length = 2 ∨ p.1.toList.length = 3 := by decide
    simpa using sizes _ (mem_punctuatorSpellings hk)
  have found {n : Nat} (hn : text.length ≤ n) :
      (Kind.ofPunctuator? (String.ofList ((text ++ rest).take n))).map (·, (text ++ rest).take n) =
        if text.length = n ∨ rest = [] then some (k, text) else none := by
    split
    · rename_i hne
      rw [same hn hne, hk]
      rfl
    · rename_i hne
      rw [longer (by omega) fun hr => hne (.inr hr)]
      rfl
  rw [punctuator?, List.findSome?_cons, found (by omega)]
  by_cases h₃ : text.length = 3 ∨ rest = []
  · rw [if_pos h₃]
  · rw [if_neg h₃]
    dsimp only
    rw [List.findSome?_cons, found (by omega)]
    by_cases h₂ : text.length = 2 ∨ rest = []
    · rw [if_pos h₂]
    · rw [if_neg h₂]
      dsimp only
      rw [List.findSome?_cons, found (by omega), if_pos (by omega)]

theorem startsNumber_append {whole point : List Char} (hw : ∀ c ∈ whole, isDigit c = true)
    (hp : IsFraction point) (hne : whole ≠ [] ∨ 1 < point.length) (rest : List Char) :
    startsNumber (whole ++ point ++ rest) = true := by
  cases whole with
  | cons d ds =>
    have hd := hw d (by simp)
    rw [List.cons_append, List.cons_append, startsNumber.eq_2]
    · exact hd
    · rintro x xs rfl -
      revert hd
      decide
  | nil =>
    obtain rfl | ⟨ds, rfl, hd⟩ := hp
    · simp at hne
    · cases ds with
      | nil => simp at hne
      | cons d ds => simp [startsNumber, hd d]

/-- A token starts with a word character, a point, a quote or a punctuator. -/
theorem Lexical.head (h : Lexical k (c :: cs)) :
    (isWordChar c = true ∨ c = '.' ∨ c = '"' ∨ c = '\'') ∨
      Kind.ofPunctuator? (String.ofList (c :: cs)) = some k := by
  generalize hcs : c :: cs = text at h
  cases h with
  | @string mark tail hm _ =>
    obtain rfl | hm := hm
    · cases hcs
      simp
    · obtain ⟨d, ds, rfl, -, -, -, hw⟩ := literalMarks_chars hm
      cases hcs
      exact .inl (.inl (hw c (by simp)))
  | @char mark tail hm _ _ =>
    obtain rfl | hm := hm
    · cases hcs
      simp
    · obtain ⟨d, ds, rfl, -, -, -, hw⟩ := literalMarks_chars hm
      cases hcs
      exact .inl (.inl (hw c (by simp)))
  | @decimal whole point power suffix hw hp hne _ _ =>
    cases whole with
    | cons d ds =>
      cases hcs
      exact .inl (.inl (isWordChar_of_isDigit (hw c (by simp))))
    | nil =>
      obtain rfl | ⟨ds, rfl, -⟩ := hp
      · simp at hne
      · cases hcs
        simp
  | hexadecimal _ _ _ _ =>
    cases hcs
    exact .inl (.inl (by decide))
  | word hc _ =>
    cases hcs
    exact .inl (.inl (by simp [isWordChar, hc]))
  | punctuator hk => exact .inr hk

theorem Lexical.head_ne (h : Lexical k (c :: cs)) : c ≠ '#' ∧
    (c = '/' → Kind.ofPunctuator? (String.ofList (c :: cs)) = some k) := by
  obtain hc | hk := h.head
  · constructor
    · rintro rfl
      revert hc
      decide
    · rintro rfl
      exact absurd hc (by decide)
  · refine ⟨?_, fun _ => hk⟩
    have heads : ∀ p ∈ Kind.punctuatorSpellings, p.1.toList.head? ≠ some '#' := by decide
    rintro rfl
    exact heads _ (mem_punctuatorSpellings hk) (by simp)

theorem token_punctuator (hk : Kind.ofPunctuator? (String.ofList (c :: cs)) = some k)
    (h : Ends k (c :: cs) rest) : Scan.token c (cs ++ rest) = (.token k, c :: cs) := by
  have heads : ∀ p ∈ Kind.punctuatorSpellings, (p.1.toList.head?.all fun x =>
      x != '"' && x != '\'' && !isWordChar x) = true := by decide
  obtain ⟨⟨h₁, h₂⟩, h₃⟩ : (c ≠ '"' ∧ c ≠ '\'') ∧ isWordChar c = false := by
    simpa using heads _ (mem_punctuatorSpellings hk)
  have h₄ : isDigit c = false ∧ isWordStart c = false := by
    simpa [isWordChar, and_comm] using h₃
  have hn : startsNumber (c :: (cs ++ rest)) = false := by
    by_cases hd : c = '.'
    · subst hd
      -- A point is a token of its own only where no digit follows.
      have dots : ∀ p ∈ Kind.punctuatorSpellings, p.1.toList.head? = some '.' →
          p.1.toList = ['.'] ∨ p.1.toList = ['.', '.', '.'] := by decide
      have := dots _ (mem_punctuatorSpellings hk) (by simp)
      simp only [String.toList_ofList, List.cons.injEq, true_and] at this
      obtain rfl | rfl := this
      · cases rest with
        | nil => decide
        | cons x xs => exact ((h x rfl).punctuator hk).2.1 rfl
      · rfl
    · rw [startsNumber.eq_2]
      · exact h₄.1
      · rintro x xs hc -
        exact hd hc
  rw [Scan.token, if_neg h₁, if_neg h₂, hn, h₄.2, ← List.cons_append,
    punctuator?_append hk fun x hx => ((h x hx).punctuator hk).1]
  rfl

/-- A token's text is read as that token, whatever the source goes on with that ends it. -/
theorem Lexical.lexeme (h : Lexical k (c :: cs)) (he : Ends k (c :: cs) rest) :
    Scan.lexeme b c (cs ++ rest) = (.token k, c :: cs) := by
  obtain ⟨hh, hs⟩ := h.head_ne
  rw [lexeme_eq_token hh]
  · generalize hcs : c :: cs = text at h
    cases h with
    | @string mark tail hm ht =>
      obtain rfl | hm := hm
      · cases hcs
        simp [Scan.token, stringTail_append ht]
      · obtain ⟨d, ds, rfl, hd, hd', -, -⟩ := literalMarks_chars hm
        obtain ⟨rfl, rfl⟩ : c = d ∧ cs = ds ++ '"' :: tail := by simpa using hcs
        have hword := word_mark hm (q := '"') (by decide) (tail ++ rest)
        rw [token_of_wordStart hd hd', ← hcs]
        simpa [stringTail_append ht] using hword
    | @char mark tail hm ht hne =>
      obtain rfl | hm := hm
      · cases hcs
        simp [Scan.token, charTail_append ht hne]
      · obtain ⟨d, ds, rfl, hd, hd', -, -⟩ := literalMarks_chars hm
        obtain ⟨rfl, rfl⟩ : c = d ∧ cs = ds ++ '\'' :: tail := by simpa using hcs
        have hword := word_mark hm (q := '\'') (by decide) (tail ++ rest)
        rw [token_of_wordStart hd hd', ← hcs]
        simpa [charTail_append ht hne] using hword
    | @decimal whole point power suffix hw hp hne hx hsuf =>
      have hn := startsNumber_append hw hp hne (power ++ suffix ++ rest)
      have hnum := number_append hw hp hx hsuf (hcs ▸ he)
      simp only [← List.append_assoc] at hn
      rw [← hcs, List.cons_append] at hn hnum
      rw [token_of_startsNumber hn, hnum, hcs]
    | @hexadecimal x digits suffix hx hne hd hsuf =>
      cases hcs
      have hhex := hexadecimal_append ['0', x] hne hd hsuf he
      have hnum : number ('0' :: x :: (digits ++ suffix) ++ rest) =
          (.token .constant, '0' :: x :: digits ++ suffix) := by
        obtain rfl | rfl := hx <;> simpa [number] using hhex
      rw [token_of_startsNumber rfl]
      simpa using hnum
    | word hc hd =>
      cases hcs
      have hall : ∀ d ∈ c :: cs, isWordChar d = true := by
        simpa [isWordChar, hc] using hd
      have ht : (c :: cs ++ rest).takeWhile isWordChar = c :: cs := by
        refine takeWhile_eq_left hall fun x hx => ?_
        exact ((he x hx).word (List.all_eq_true.mpr hall)).1
      rw [token_of_wordStart hc (isDigit_eq_false_of_isWordStart hc), Scan.word,
        ← List.cons_append, ht,
        List.drop_left]
      split
      · split
        · exact absurd rfl ((he '"' rfl).word (List.all_eq_true.mpr hall)).2.1
        · exact absurd rfl ((he '\'' rfl).word (List.all_eq_true.mpr hall)).2.2
        · rfl
      · rfl
    | punctuator hk =>
      subst hcs
      exact token_punctuator hk he
  · rintro rfl x hx
    have hk := hs rfl
    cases cs with
    | nil => exact ((he x hx).punctuator hk).2.2 rfl
    | cons y ys =>
      cases hx
      have slashes : ∀ p ∈ Kind.punctuatorSpellings, p.1.toList.head? = some '/' →
          p.1.toList = ['/'] ∨ p.1.toList = ['/', '='] := by decide
      have := slashes _ (mem_punctuatorSpellings hk) (by simp)
      simp at this
      simp [this]

end CPretty
