import CPretty.Proofs.Token.Canonical
import CPretty.Token.Lexer
import Mathlib.Data.List.TakeWhile

namespace CPretty

open Scan

def Halts (p : Char → Bool) (rest : List Char) : Prop := ∀ c ∈ rest.head?, p c = false

theorem takeWhile_eq_left {p : Char → Bool} {xs rest : List Char} (hx : ∀ c ∈ xs, p c = true)
    (hr : Halts p rest) : (xs ++ rest).takeWhile p = xs := by
  rw [List.takeWhile_append_of_pos hx]
  cases rest with
  | nil => simp
  | cons c cs => simp [hr c rfl]

def Closed (quote : Char) (tail : List Char) : Prop := quotedTail quote tail = (true, tail)

def IsFraction (cs : List Char) : Prop :=
  cs = [] ∨ ∃ ds, cs = '.' :: ds ∧ ∀ d ∈ ds, isDigit d = true

def IsExponent (cs : List Char) : Prop :=
  cs = [] ∨ ∃ e sign d ds, cs = e :: sign ++ d :: ds ∧ (e = 'e' ∨ e = 'E') ∧
    (sign = [] ∨ sign = ['+'] ∨ sign = ['-']) ∧ ∀ x ∈ d :: ds, isDigit x = true

def IsSuffix (isFloat : Bool) (cs : List Char) : Prop :=
  if isFloat then cs.length ≤ 1 ∧ ∀ c ∈ cs, isFloatSuffix c = true
  else ∀ c ∈ cs, isIntegerSuffix c = true

/-- The texts of the tokens of each kind. -/
inductive Lexical : Kind → List Char → Prop
  | string {mark tail : List Char} : mark = [] ∨ String.ofList mark ∈ literalMarks →
      Closed '"' tail → Lexical .stringLiteral (mark ++ '"' :: tail)
  | char {mark tail : List Char} : mark = [] ∨ String.ofList mark ∈ literalMarks →
      Closed '\'' tail → tail ≠ ['\''] → Lexical .constant (mark ++ '\'' :: tail)
  | decimal {whole point power suffix : List Char} : (∀ c ∈ whole, isDigit c = true) →
      IsFraction point → whole ≠ [] ∨ 1 < point.length → IsExponent power →
      IsSuffix (!point.isEmpty || !power.isEmpty) suffix →
      Lexical .constant (whole ++ point ++ power ++ suffix)
  | hexadecimal {x : Char} {digits suffix : List Char} : x = 'x' ∨ x = 'X' → digits ≠ [] →
      (∀ c ∈ digits, isHexDigit c = true) → (∀ c ∈ suffix, isIntegerSuffix c = true) →
      Lexical .constant ('0' :: x :: digits ++ suffix)
  | word {c : Char} {cs : List Char} : isWordStart c = true → (∀ d ∈ cs, isWordChar d = true) →
      Lexical (Kind.ofWord (String.ofList (c :: cs))) (c :: cs)
  | punctuator {k : Kind} {cs : List Char} : Kind.ofPunctuator? (String.ofList cs) = some k →
      Lexical k cs

variable {c : Char} {cs rest tail text : List Char} {k : Kind} {quote : Char}

theorem quotedTail_cons (h : c ≠ '\\') (cs : List Char) :
    quotedTail quote (c :: cs) =
      if c = '\n' then (false, [])
      else if c = quote then (true, [c])
      else ((quotedTail quote cs).1, c :: (quotedTail quote cs).2) := by
  rw [quotedTail]
  · exact fun hc _ => h hc
  · exact fun _ _ hc _ => h hc

theorem ne_backslash (h : c = '\\' → cs = [] → False)
    (h' : ∀ d ds, c = '\\' → cs = d :: ds → False) : c ≠ '\\' := by
  intro hc
  cases cs with
  | nil => exact h hc rfl
  | cons d ds => exact h' d ds hc rfl

/-- A literal ends at its closing quote, whatever follows. -/
theorem quotedTail_append (h : quotedTail quote cs = (true, tail)) (rest : List Char) :
    quotedTail quote (tail ++ rest) = (true, tail) := by
  fun_induction quotedTail quote cs generalizing tail with
  | case1 => simp at h
  | case2 => simp at h
  | case3 c cs closed tail' hq ih =>
    obtain ⟨rfl, rfl⟩ := Prod.mk.inj h
    simp [quotedTail, ih hq]
  | case4 cs => simp at h
  | case5 cs hbs hbs' hn =>
    obtain ⟨-, rfl⟩ := Prod.mk.inj h
    simp [quotedTail_cons (ne_backslash hbs hbs'), hn]
  | case6 c cs hbs hbs' hn hne closed tail' hq ih =>
    obtain ⟨rfl, rfl⟩ := Prod.mk.inj h
    simp [quotedTail_cons (ne_backslash hbs hbs'), hn, hne, ih hq]

theorem closed_of_quotedTail (h : quotedTail quote cs = (true, tail)) : Closed quote tail := by
  have hq := quotedTail_append h []
  rwa [List.append_nil] at hq

theorem stringTail_ok (h : stringTail cs = (.token k, tail)) :
    k = .stringLiteral ∧ Closed '"' tail := by
  rw [stringTail] at h
  cases hq : quotedTail '"' cs with
  | mk closed tail' =>
    rw [hq] at h
    cases closed with
    | false => simp at h
    | true =>
      obtain ⟨hk, rfl⟩ := Prod.mk.inj h
      cases hk
      exact ⟨rfl, closed_of_quotedTail hq⟩

theorem charTail_cons {cs : List Char} (h : cs.head? ≠ some '\'') : charTail cs =
    (if (quotedTail '\'' cs).1 then .token .constant else .fault .unterminatedChar,
      (quotedTail '\'' cs).2) := by
  rw [charTail]
  rintro ds rfl
  exact h rfl

theorem quotedTail_head {x : Char} (h : quotedTail quote cs = (true, x :: tail)) :
    cs.head? = some x := by
  fun_induction quotedTail quote cs <;> grind

theorem charTail_ok (h : charTail cs = (.token k, tail)) :
    k = .constant ∧ Closed '\'' tail ∧ tail ≠ ['\''] := by
  by_cases hc : cs.head? = some '\''
  · obtain ⟨ds, rfl⟩ : ∃ ds, cs = '\'' :: ds := by
      cases cs with
      | nil => simp at hc
      | cons d ds => exact ⟨ds, by simpa using hc⟩
    simp [charTail] at h
  · rw [charTail_cons hc] at h
    cases hq : quotedTail '\'' cs with
    | mk closed tail' =>
      rw [hq] at h
      cases closed with
      | false => simp at h
      | true =>
        obtain ⟨hk, rfl⟩ := Prod.mk.inj h
        cases hk
        refine ⟨rfl, closed_of_quotedTail hq, ?_⟩
        rintro rfl
        exact hc (quotedTail_head hq)

theorem isFraction_fraction (cs : List Char) : IsFraction (fraction cs) := by
  fun_cases fraction cs with
  | case1 cs => exact .inr ⟨_, rfl, fun d hd => List.mem_takeWhile_imp hd⟩
  | case2 => exact .inl rfl

theorem isExponent_exponent (cs : List Char) : IsExponent (exponent cs) := by
  have digits {d : Char} (ds : List Char) (hd : isDigit d = true) :
      ∃ es, (d :: ds).takeWhile isDigit = d :: es ∧ ∀ x ∈ d :: es, isDigit x = true := by
    refine ⟨ds.takeWhile isDigit, by simp [hd], ?_⟩
    simpa [hd] using fun x (hx : x ∈ ds.takeWhile isDigit) => List.mem_takeWhile_imp hx
  fun_cases exponent cs with
  | case1 e he d ds hd =>
    obtain ⟨es, hes, hx⟩ := digits ds hd
    exact .inr ⟨e, [], d, es, by simp [hes], by simpa using he, .inl rfl, hx⟩
  | case2 e he d ds hd hs =>
    rw [Bool.and_eq_true] at hs
    cases ds with
    | nil => simp at hs
    | cons x ds =>
      obtain ⟨es, hes, hx⟩ := digits ds (by simpa using hs.2 : isDigit x = true)
      refine .inr ⟨e, [d], x, es, by simp [hes], by simpa using he, ?_, hx⟩
      simpa using hs.1
  | case3 => exact .inl rfl
  | case4 => exact .inl rfl
  | case5 => exact .inl rfl
  | case6 => exact .inl rfl

theorem isSuffix_numberSuffix (isFloat : Bool) (cs : List Char) :
    IsSuffix isFloat (numberSuffix isFloat cs) := by
  cases isFloat with
  | false => exact fun c hc => List.mem_takeWhile_imp hc
  | true =>
    refine ⟨?_, fun c hc => List.mem_takeWhile_imp (p := isFloatSuffix) hc⟩
    calc ((cs.take 1).takeWhile isFloatSuffix).length
        ≤ (cs.take 1).length := (List.takeWhile_prefix _).length_le
      _ ≤ 1 := List.length_take_le 1 cs

theorem decimal_ok (h : startsNumber cs = true) : Lexical .constant (decimal cs) := by
  refine .decimal (fun c hc => List.mem_takeWhile_imp hc) (isFraction_fraction _) ?_
    (isExponent_exponent _)
    (isSuffix_numberSuffix _ _)
  -- A number starts with a digit, or with a point before one.
  fun_cases startsNumber cs with
  | case1 c cs => exact .inr (by simp_all [startsNumber, fraction, isDigit])
  | case2 c cs => exact .inl (by simp_all [startsNumber])
  | case3 => simp [startsNumber] at h

theorem number_ok (hn : startsNumber cs = true) (h : number cs = (.token k, text)) :
    Lexical k text := by
  have hex {x : Char} {rest : List Char} (hx : x = 'x' ∨ x = 'X')
    (h : hexadecimal ['0', x] rest = (.token k, text)) :
      Lexical k text := by
    rw [hexadecimal] at h
    split at h
    · cases h
    · rename_i hd
      cases h
      refine .hexadecimal hx (by simpa using hd) ?_ ?_
      · exact fun c hc => List.mem_takeWhile_imp hc
      · exact fun c hc => List.mem_takeWhile_imp hc
  rw [number.eq_def] at h
  split at h
  · exact hex (.inl rfl) h
  · exact hex (.inr rfl) h
  · cases h
    exact decimal_ok hn

theorem word_ok (hc : isWordStart c = true) (h : word (c :: cs) = (.token k, text)) :
    Lexical k text := by
  have letters : ∃ ds, (c :: cs).takeWhile isWordChar = c :: ds ∧ ∀ d ∈ ds, isWordChar d = true :=
    ⟨cs.takeWhile isWordChar, by simp [isWordChar, hc], fun d hd => List.mem_takeWhile_imp hd⟩
  obtain ⟨ds, hds, hw⟩ := letters
  rw [word, hds] at h
  split at h
  · rename_i hm
    have hm' : String.ofList (c :: ds) ∈ literalMarks := by simpa using hm
    split at h
    · rename_i rest _
      cases hs : stringTail rest with
      | mk l tail =>
        rw [hs] at h
        cases h
        obtain ⟨rfl, ht⟩ := stringTail_ok hs
        exact .string (.inr hm') ht
    · rename_i rest _
      cases hs : charTail rest with
      | mk l tail =>
        rw [hs] at h
        cases h
        obtain ⟨rfl, ht, hne⟩ := charTail_ok hs
        exact .char (.inr hm') ht hne
    · cases h
      exact .word hc hw
  · cases h
    exact .word hc hw

theorem token_ok (h : Scan.token c cs = (.token k, text)) : Lexical k text := by
  rw [Scan.token] at h
  split at h
  · cases hs : stringTail cs with
    | mk l tail =>
      rw [hs] at h
      cases h
      obtain ⟨rfl, ht⟩ := stringTail_ok hs
      exact Lexical.string (.inl rfl) ht
  · split at h
    · cases hs : charTail cs with
      | mk l tail =>
        rw [hs] at h
        cases h
        obtain ⟨rfl, ht, hne⟩ := charTail_ok hs
        exact Lexical.char (.inl rfl) ht hne
    · split at h
      · exact number_ok ‹_› h
      · split at h
        · exact word_ok ‹_› h
        · split at h
          · rename_i hp
            cases h
            obtain ⟨n, -, hn⟩ := List.exists_of_findSome?_eq_some hp
            obtain ⟨k', hk, hkt⟩ := Option.map_eq_some_iff.mp hn
            cases hkt
            exact .punctuator hk
          · cases h

theorem mem_of_lookup {α β : Type} [BEq α] [LawfulBEq α] {l : List (α × β)} {a : α} {b : β}
    (h : l.lookup a = some b) : (a, b) ∈ l := by
  obtain ⟨l₁, l₂, rfl, -⟩ := List.lookup_eq_some_iff.mp h
  simp

theorem mem_punctuatorSpellings (h : Kind.ofPunctuator? (String.ofList cs) = some k) :
    (String.ofList cs, k) ∈ Kind.punctuatorSpellings :=
  mem_of_lookup h

theorem Kind.ofWord_cases (s : String) :
    Kind.ofWord s = .ident ∨ (s, Kind.ofWord s) ∈ Kind.keywordSpellings := by
  rw [Kind.ofWord]
  cases h : Kind.keywordSpellings.lookup s with
  | none => exact .inl rfl
  | some k => exact .inr (mem_of_lookup h)

/-- A token of a kind that has a spelling is spelled so, or it is a digraph. -/
theorem Lexical.spelled {s : String} (h : Lexical k text) (hs : k.spelling = some s) :
    text = s.toList ∨ k ∈ Kind.brackets := by
  cases h with
  | string _ _ => cases hs
  | char _ _ _ => cases hs
  | decimal _ _ _ _ _ => cases hs
  | hexadecimal _ _ _ _ => cases hs
  | @word c cs _ _ =>
    obtain hk | hk := Kind.ofWord_cases (String.ofList (c :: cs))
    · rw [hk] at hs
      cases hs
    · have spelled : ∀ p ∈ Kind.keywordSpellings, p.2.spelling = some p.1 := by decide
      have := hs.symm.trans (spelled _ hk)
      cases this
      exact .inl (String.toList_ofList).symm
  | @punctuator k cs hk =>
    have spelled : ∀ p ∈ Kind.punctuatorSpellings,
        p.2.spelling = some p.1 ∨ p.2 ∈ Kind.brackets := by decide
    obtain h | h := spelled _ (mem_punctuatorSpellings hk)
    · have := hs.symm.trans h
      cases this
      exact .inl (String.toList_ofList).symm
    · exact .inr h

theorem quotedTail_getLast? (h : quotedTail quote cs = (true, tail)) :
    tail.getLast? = some quote := by
  fun_induction quotedTail quote cs generalizing tail with
  | case3 c cs closed tail' hq ih =>
    obtain ⟨rfl, rfl⟩ := Prod.mk.inj h
    simp [List.getLast?_cons, ih hq]
  | case5 cs hbs hbs' hn =>
    obtain ⟨-, rfl⟩ := Prod.mk.inj h
    rfl
  | case6 c cs hbs hbs' hn hne closed tail' hq ih =>
    obtain ⟨rfl, rfl⟩ := Prod.mk.inj h
    simp [List.getLast?_cons, ih hq]
  | _ => simp at h

theorem not_isBlank_of_isWordChar {c : Char} (h : isWordChar c = true) :
    Text.isBlank c = false := by
  have le {a b : Char} (h : a ≤ b) : a.toNat ≤ b.toNat := h
  simp only [isWordChar, isWordStart, isDigit, Bool.or_eq_true, Bool.and_eq_true, decide_eq_true_eq,
    beq_iff_eq] at h
  simp only [Text.isBlank, Text.blankRanges, List.any_eq_false, Bool.and_eq_true, decide_eq_true_eq]
  have h' : (97 ≤ c.toNat ∧ c.toNat ≤ 122) ∨ (65 ≤ c.toNat ∧ c.toNat ≤ 90) ∨ c.toNat = 95 ∨
      (48 ≤ c.toNat ∧ c.toNat ≤ 57) := by
    obtain ((h | h) | rfl) | h := h
    · exact .inl ⟨le h.1, le h.2⟩
    · exact .inr (.inl ⟨le h.1, le h.2⟩)
    · exact .inr (.inr (.inl rfl))
    · exact .inr (.inr (.inr ⟨le h.1, le h.2⟩))
  simp only [List.mem_cons, List.not_mem_nil, or_false]
  rintro r (rfl | rfl | rfl | rfl | rfl | rfl | rfl | rfl | rfl | rfl) <;> simp only <;> omega

theorem isWordChar_of_isDigit (h : isDigit c = true) : isWordChar c = true := by
  simp [isWordChar, h]

theorem isWordChar_of_isHexDigit (h : isHexDigit c = true) : isWordChar c = true := by
  simp only [isHexDigit, isWordChar, isWordStart, Bool.or_eq_true, Bool.and_eq_true,
    decide_eq_true_eq] at h ⊢
  obtain (h | h) | h := h
  · exact .inr h
  · exact .inl (.inl (.inl ⟨h.1, Char.le_trans h.2 (by decide)⟩))
  · exact .inl (.inl (.inr ⟨h.1, Char.le_trans h.2 (by decide)⟩))

theorem isWordChar_of_isIntegerSuffix (h : isIntegerSuffix c = true) : isWordChar c = true := by
  simp only [isIntegerSuffix, Bool.or_eq_true, beq_iff_eq] at h
  obtain ((rfl | rfl) | rfl) | rfl := h <;> decide

theorem isWordChar_of_isFloatSuffix (h : isFloatSuffix c = true) : isWordChar c = true := by
  simp only [isFloatSuffix, Bool.or_eq_true, beq_iff_eq] at h
  obtain ((rfl | rfl) | rfl) | rfl := h <;> decide

theorem IsSuffix.isWordChar {isFloat : Bool} (h : IsSuffix isFloat cs) :
    ∀ c ∈ cs, isWordChar c = true := by
  cases isFloat with
  | false => exact fun c hc => isWordChar_of_isIntegerSuffix (h c hc)
  | true => exact fun c hc => isWordChar_of_isFloatSuffix (h.2 c hc)

theorem IsFraction.not_isBlank (h : IsFraction cs) : ∀ c ∈ cs, Text.isBlank c = false := by
  obtain rfl | ⟨ds, rfl, hd⟩ := h
  · simp
  · intro c hc
    obtain rfl | hc := List.mem_cons.mp hc
    · decide
    · exact not_isBlank_of_isWordChar (isWordChar_of_isDigit (hd c hc))

theorem IsExponent.not_isBlank (h : IsExponent cs) : ∀ c ∈ cs, Text.isBlank c = false := by
  obtain rfl | ⟨e, sign, d, ds, rfl, he, hs, hd⟩ := h
  · simp
  · intro c hc
    rw [List.mem_append, List.mem_cons] at hc
    obtain (rfl | hc) | hc := hc
    · obtain rfl | rfl := he <;> decide
    · have signs : c = '+' ∨ c = '-' := by
        obtain rfl | rfl | rfl := hs <;> simp at hc <;> simp [hc]
      obtain rfl | rfl := signs <;> decide
    · exact not_isBlank_of_isWordChar (isWordChar_of_isDigit (hd c hc))

theorem Lexical.ne_nil (h : Lexical k text) : text ≠ [] := by
  cases h with
  | string _ _ => simp
  | char _ _ _ => simp
  | @decimal whole point power suffix _ _ hne _ _ =>
    obtain h | h := hne
    · simp [h]
    · have : point ≠ [] := by
        rintro rfl
        simp at h
      simp [this]
  | hexadecimal _ _ _ _ => simp
  | word _ _ => simp
  | punctuator hk =>
    have filled : ∀ p ∈ Kind.punctuatorSpellings, p.1 ≠ "" := by decide
    rintro rfl
    exact filled _ (mem_punctuatorSpellings hk) rfl

theorem not_isBlank_of_punctuator {p : String × Kind} (h : p ∈ Kind.punctuatorSpellings) :
    ∀ c ∈ p.1.toList, Text.isBlank c = false := by
  have inked : ∀ p ∈ Kind.punctuatorSpellings, p.1.toList.all (!Text.isBlank ·) = true := by decide
  exact fun c hc => by simpa using List.all_eq_true.mp (inked p h) c hc

/-- Blanks stand in literals only, after the opening quote. -/
theorem Lexical.literal_or_inked (h : Lexical k text) :
    (∃ mark quote tail, text = mark ++ quote :: tail ∧ (quote = '"' ∨ quote = '\'') ∧
      (∀ c ∈ mark, Text.isBlank c = false) ∧ Closed quote tail) ∨
      ∀ c ∈ text, Text.isBlank c = false := by
  have marks {mark : List Char} (h : mark = [] ∨ String.ofList mark ∈ literalMarks) :
      ∀ c ∈ mark, Text.isBlank c = false := by
    obtain rfl | h := h
    · simp
    · have words : ∀ m ∈ literalMarks, m.toList.all (!Text.isBlank ·) = true := by decide
      have hw := List.all_eq_true.mp (words _ h)
      rw [String.toList_ofList] at hw
      exact fun c hc => by simpa using hw c hc
  cases h with
  | string hm ht => exact .inl ⟨_, _, _, rfl, .inl rfl, marks hm, ht⟩
  | char hm ht _ => exact .inl ⟨_, _, _, rfl, .inr rfl, marks hm, ht⟩
  | decimal hw hp _ he hs =>
    refine .inr fun c hc => ?_
    simp only [List.mem_append] at hc
    obtain ((hc | hc) | hc) | hc := hc
    · exact not_isBlank_of_isWordChar (isWordChar_of_isDigit (hw c hc))
    · exact hp.not_isBlank c hc
    · exact he.not_isBlank c hc
    · exact not_isBlank_of_isWordChar (hs.isWordChar c hc)
  | hexadecimal hx _ hd hs =>
    refine .inr fun c hc => ?_
    simp only [List.cons_append, List.mem_cons, List.mem_append] at hc
    obtain rfl | rfl | hc | hc := hc
    · decide
    · obtain rfl | rfl := hx <;> decide
    · exact not_isBlank_of_isWordChar (isWordChar_of_isHexDigit (hd c hc))
    · exact not_isBlank_of_isWordChar (isWordChar_of_isIntegerSuffix (hs c hc))
  | word hc hd =>
    refine .inr fun c hm => not_isBlank_of_isWordChar ?_
    obtain rfl | hm := List.mem_cons.mp hm
    · simp [isWordChar, hc]
    · exact hd c hm
  | punctuator hk =>
    have inked := not_isBlank_of_punctuator (mem_punctuatorSpellings hk)
    rw [String.toList_ofList] at inked
    exact .inr inked

theorem Lexical.not_isBlank (h : Lexical k (c :: cs)) : Text.isBlank c = false := by
  obtain ⟨mark, quote, tail, he, hq, hm, -⟩ | hc := h.literal_or_inked
  · cases mark with
    | nil =>
      cases he
      obtain rfl | rfl := hq <;> decide
    | cons m mark =>
      cases he
      exact hm c List.mem_cons_self
  · exact hc c List.mem_cons_self

theorem Lexical.getLast?_not_isBlank (h : Lexical k text) :
    ∀ c ∈ text.getLast?, Text.isBlank c = false := by
  obtain ⟨mark, quote, tail, rfl, hq, -, ht⟩ | hc := h.literal_or_inked
  · intro c hc
    have last : (mark ++ quote :: tail).getLast? = some quote := by
      rw [List.getLast?_append, List.getLast?_cons, quotedTail_getLast? ht]
      rfl
    rw [last] at hc
    cases hc
    obtain rfl | rfl := hq <;> decide
  · exact fun c hl => hc c (List.mem_of_getLast? hl)

end CPretty
