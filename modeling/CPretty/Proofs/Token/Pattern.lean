import CPretty.Proofs.Token.Relexing
import Mathlib.Computability.Language

namespace CPretty

open Scan
open scoped Computability

namespace Pattern

def oneOf (p : Char → Bool) : Language Char := {w | ∃ c, w = [c] ∧ p c = true}

def exactly (text : String) : Language Char := {w | w = text.toList}

def oneOrMore (p : Char → Bool) : Language Char := oneOf p * (oneOf p)∗

def optional (l : Language Char) : Language Char := 1 + l

def identifier : Language Char := oneOf isWordStart * (oneOf isWordChar)∗

def integer : Language Char := oneOrMore isDigit * (oneOf isIntegerSuffix)∗

def hexadecimal : Language Char :=
  (exactly "0x" + exactly "0X") * oneOrMore isHexDigit * (oneOf isIntegerSuffix)∗

def exponent : Language Char :=
  (exactly "e" + exactly "E") * optional (exactly "+" + exactly "-") * oneOrMore isDigit

/-- Digits with a point or an exponent among or after them. -/
def float : Language Char :=
  ((oneOrMore isDigit * exactly "." * (oneOf isDigit)∗ + exactly "." * oneOrMore isDigit) *
      optional exponent + oneOrMore isDigit * exponent) * optional (oneOf isFloatSuffix)

/-- What may stand directly before the quote that opens a literal. -/
def mark : Language Char := optional (exactly "L" + exactly "u" + exactly "U" + exactly "u8")

/-- A part of a literal: a character, or a backslash with the character after it. -/
def part (quote : Char) : Language Char :=
  oneOf (fun c => c != quote && c != '\\' && c != '\n') + exactly "\\" * oneOf fun _ => true

def string : Language Char := mark * exactly "\"" * (part '"')∗ * exactly "\""

def char : Language Char := mark * exactly "'" * (part '\'' * (part '\'')∗) * exactly "'"

def punctuator : Language Char :=
  {w | (∃ k ∈ Kind.punctuators, k.spelling = some (String.ofList w)) ∨
    ∃ k, (String.ofList w, k) ∈ Kind.digraphs}

def token : Language Char :=
  identifier + integer + hexadecimal + float + string + char + punctuator

variable {p q : Char → Bool} {w v : List Char} {l m : Language Char} {quote : Char}

theorem mem_oneOf : w ∈ oneOf p ↔ ∃ c, w = [c] ∧ p c = true := Iff.rfl

theorem mem_exactly {text : String} : w ∈ exactly text ↔ w = text.toList := Iff.rfl

theorem mem_optional : w ∈ optional l ↔ w = [] ∨ w ∈ l := Iff.rfl

theorem mem_run : w ∈ (oneOf p)∗ ↔ ∀ c ∈ w, p c = true := by
  rw [Language.mem_kstar]
  constructor
  · rintro ⟨ws, rfl, h⟩ c hc
    obtain ⟨v, hv, hc⟩ := List.mem_flatten.mp hc
    obtain ⟨d, rfl, hd⟩ := h v hv
    rwa [List.mem_singleton.mp hc]
  · intro h
    refine ⟨w.map fun c => [c], by simp [← List.flatMap_def], fun v hv => ?_⟩
    obtain ⟨c, hc, rfl⟩ := List.mem_map.mp hv
    exact ⟨c, rfl, h c hc⟩

theorem mem_oneOf_mul : w ∈ oneOf p * l ↔ ∃ c v, w = c :: v ∧ p c = true ∧ v ∈ l := by
  rw [Language.mem_mul]
  constructor
  · rintro ⟨_, ⟨c, rfl, hc⟩, v, hv, rfl⟩
    exact ⟨c, v, rfl, hc, hv⟩
  · rintro ⟨c, v, rfl, hc, hv⟩
    exact ⟨[c], ⟨c, rfl, hc⟩, v, hv, rfl⟩

theorem mem_oneOrMore : w ∈ oneOrMore p ↔ w ≠ [] ∧ ∀ c ∈ w, p c = true := by
  rw [oneOrMore, mem_oneOf_mul]
  constructor
  · rintro ⟨c, v, rfl, hc, hv⟩
    exact ⟨List.cons_ne_nil c v, List.forall_mem_cons.mpr ⟨hc, mem_run.mp hv⟩⟩
  · rintro ⟨hne, h⟩
    obtain ⟨c, v, rfl⟩ := List.exists_cons_of_ne_nil hne
    obtain ⟨hc, hv⟩ := List.forall_mem_cons.mp h
    exact ⟨c, v, rfl, hc, mem_run.mpr hv⟩

theorem mem_exponent : w ∈ exponent ↔ w ≠ [] ∧ IsExponent w := by
  simp only [exponent, optional, Language.mem_mul, Language.mem_add, Language.mem_one, mem_exactly,
    mem_oneOrMore]
  constructor
  · rintro ⟨_, ⟨a, ha, sign, hs, rfl⟩, ds, ⟨hne, hd⟩, rfl⟩
    obtain ⟨d, ds, rfl⟩ := List.exists_cons_of_ne_nil hne
    obtain rfl | rfl := ha
    · exact ⟨List.cons_ne_nil _ _, .inr ⟨'e', sign, d, ds, rfl, .inl rfl, hs, hd⟩⟩
    · exact ⟨List.cons_ne_nil _ _, .inr ⟨'E', sign, d, ds, rfl, .inr rfl, hs, hd⟩⟩
  · rintro ⟨hne, rfl | ⟨e, sign, d, ds, rfl, he, hs, hd⟩⟩
    · exact absurd rfl hne
    · refine ⟨e :: sign, ⟨[e], ?_, sign, hs, rfl⟩, d :: ds, ⟨List.cons_ne_nil d ds, hd⟩, rfl⟩
      exact he.imp (congrArg fun e => [e]) (congrArg fun e => [e])

theorem mem_optional_exponent : w ∈ optional exponent ↔ IsExponent w := by
  rw [mem_optional, mem_exponent]
  constructor
  · rintro (rfl | h)
    · exact .inl rfl
    · exact h.2
  · intro h
    obtain rfl | hne := eq_or_ne w []
    · exact .inl rfl
    · exact .inr ⟨hne, h⟩

theorem mem_optional_suffix : w ∈ optional (oneOf isFloatSuffix) ↔ IsSuffix true w := by
  rw [mem_optional, mem_oneOf, IsSuffix, if_pos rfl]
  constructor
  · rintro (rfl | ⟨c, rfl, hc⟩)
    · simp
    · simpa using hc
  · rintro ⟨hl, hw⟩
    match w, hl, hw with
    | [], _, _ => exact .inl rfl
    | [c], _, hw => exact .inr ⟨c, rfl, hw c (List.mem_singleton_self c)⟩

theorem lexical_of_integer (h : w ∈ integer) : Lexical .constant w := by
  simp only [integer, Language.mem_mul, mem_oneOrMore, mem_run] at h
  obtain ⟨whole, ⟨hne, hw⟩, suffix, hs, rfl⟩ := h
  have number : Lexical .constant (whole ++ [] ++ [] ++ suffix) :=
    .decimal hw (.inl rfl) (.inl hne) (.inl rfl) hs
  simpa using number

theorem lexical_of_float (h : w ∈ float) : Lexical .constant w := by
  simp only [float, Language.mem_mul, Language.mem_add, mem_oneOrMore, mem_run, mem_exactly,
    mem_optional_suffix, mem_optional_exponent, mem_exponent] at h
  obtain ⟨_, ⟨_, hm, power, hp, rfl⟩ | ⟨whole, ⟨hne, hw⟩, power, ⟨hpne, hp⟩, rfl⟩,
    suffix, hs, rfl⟩ := h
  · obtain ⟨_, ⟨whole, ⟨hne, hw⟩, _, rfl, rfl⟩, ds, hd, rfl⟩ | ⟨_, rfl, ds, ⟨hne, hd⟩, rfl⟩ := hm
    · have number : Lexical .constant (whole ++ '.' :: ds ++ power ++ suffix) :=
        .decimal hw (.inr ⟨ds, rfl, hd⟩) (.inl hne) hp hs
      simpa using number
    · have long : 1 < ('.' :: ds).length := by
        simpa using List.length_pos_iff.mpr hne
      have number : Lexical .constant ([] ++ '.' :: ds ++ power ++ suffix) :=
        .decimal nofun (.inr ⟨ds, rfl, hd⟩) (.inr long) hp hs
      simpa using number
  · have flag : (!power.isEmpty) = true := by simpa using hpne
    have number : Lexical .constant (whole ++ [] ++ power ++ suffix) :=
      .decimal hw (.inl rfl) (.inl hne) hp (flag.symm ▸ hs)
    simpa using number

/-- The parts of a decimal number are those of an integer or of a float. -/
theorem mem_of_decimal {whole point power suffix : List Char} (hw : ∀ c ∈ whole, isDigit c = true)
    (hp : IsFraction point) (hne : whole ≠ [] ∨ 1 < point.length) (he : IsExponent power)
    (hs : IsSuffix (!point.isEmpty || !power.isEmpty) suffix) :
    whole ++ point ++ power ++ suffix ∈ integer + float := by
  simp only [integer, float, Language.mem_mul, Language.mem_add, mem_oneOrMore, mem_run,
    mem_exactly, mem_optional_suffix, mem_optional_exponent, mem_exponent]
  obtain rfl | ⟨ds, rfl, hd⟩ := hp
  · have hne : whole ≠ [] := hne.resolve_right (by simp)
    obtain rfl | hpne := eq_or_ne power []
    · exact .inl ⟨whole, ⟨hne, hw⟩, suffix, hs, by simp⟩
    · have flag : (!power.isEmpty) = true := by simpa using hpne
      have hs : IsSuffix true suffix := by simpa [flag] using hs
      exact .inr ⟨_, .inr ⟨whole, ⟨hne, hw⟩, power, ⟨hpne, he⟩, rfl⟩, suffix, hs, by simp⟩
  · refine .inr ⟨_, .inl ⟨whole ++ '.' :: ds, ?_, power, he, rfl⟩, suffix, hs, rfl⟩
    obtain rfl | hwne := eq_or_ne whole []
    · have hdne : ds ≠ [] := by
        rintro rfl
        simp at hne
      exact .inr ⟨_, rfl, ds, ⟨hdne, hd⟩, rfl⟩
    · exact .inl ⟨_, ⟨whole, ⟨hwne, hw⟩, _, rfl, rfl⟩, ds, hd, by simp⟩

theorem mem_mark : w ∈ mark ↔ w = [] ∨ String.ofList w ∈ literalMarks := by
  have text (m : String) : String.ofList w = m ↔ w = m.toList := by
    rw [← String.toList_inj, String.toList_ofList]
  simp only [mark, mem_optional, Language.mem_add, mem_exactly, literalMarks, List.mem_cons,
    List.not_mem_nil, or_false, text, or_assoc]

theorem mem_part : w ∈ part quote ↔
    (∃ c, w = [c] ∧ c ≠ quote ∧ c ≠ '\\' ∧ c ≠ '\n') ∨ ∃ c, w = ['\\', c] := by
  simp only [part, Language.mem_add, mem_oneOf, Language.mem_mul, mem_exactly, Bool.and_eq_true,
    bne_iff_ne, and_assoc]
  refine or_congr_right ⟨?_, ?_⟩
  · rintro ⟨_, rfl, _, ⟨c, rfl, -⟩, rfl⟩
    exact ⟨c, rfl⟩
  · rintro ⟨c, rfl⟩
    exact ⟨_, rfl, [c], ⟨c, rfl, trivial⟩, rfl⟩

theorem append_mem_parts (hv : v ∈ part quote) (hw : w ∈ (part quote)∗) :
    v ++ w ∈ (part quote)∗ := by
  obtain ⟨ws, rfl, h⟩ := hw
  exact ⟨v :: ws, rfl, List.forall_mem_cons.mpr ⟨hv, h⟩⟩

theorem parts_of_quotedTail (h : quotedTail quote w = (true, v)) :
    ∃ u ∈ (part quote)∗, v = u ++ [quote] := by
  fun_induction quotedTail quote w generalizing v with
  | case3 c cs closed tail hq ih =>
    cases h
    obtain ⟨u, hu, rfl⟩ := ih hq
    exact ⟨'\\' :: c :: u, append_mem_parts (mem_part.mpr (.inr ⟨c, rfl⟩)) hu, rfl⟩
  | case5 cs =>
    cases h
    exact ⟨[], Language.nil_mem_kstar _, rfl⟩
  | case6 c cs hbs hbs' hn hne closed tail hq ih =>
    cases h
    obtain ⟨u, hu, rfl⟩ := ih hq
    have hb : c ≠ '\\' := ne_backslash hbs hbs'
    exact ⟨c :: u, append_mem_parts (mem_part.mpr (.inl ⟨c, rfl, hne, hb, hn⟩)) hu, rfl⟩
  | _ => cases h

/-- Parts with a closing quote after them are the rest of a literal. -/
theorem closed_iff (hb : quote ≠ '\\') (hn : quote ≠ '\n') :
    Closed quote w ↔ ∃ u ∈ (part quote)∗, w = u ++ [quote] := by
  refine ⟨parts_of_quotedTail, ?_⟩
  rintro ⟨_, ⟨ws, rfl, h⟩, rfl⟩
  induction ws with
  | nil => simp [Closed, quotedTail_cons hb, hn]
  | cons w ws ih =>
    obtain ⟨hw, h⟩ := List.forall_mem_cons.mp h
    have ih := ih h
    rw [Closed] at ih
    obtain ⟨c, rfl, hq, hb, hn⟩ | ⟨c, rfl⟩ := mem_part.mp hw
    · simp [Closed, quotedTail_cons hb, hn, hq, ih]
    · simp [Closed, quotedTail, ih]

theorem mem_parts : w ∈ part quote * (part quote)∗ ↔ w ≠ [] ∧ w ∈ (part quote)∗ := by
  have filled : ∀ v ∈ part quote, v ≠ [] := by
    intro v hv
    obtain ⟨c, rfl, -⟩ | ⟨c, rfl⟩ := mem_part.mp hv <;> exact List.cons_ne_nil _ _
  constructor
  · rintro ⟨u, hu, v, hv, rfl⟩
    exact ⟨List.append_ne_nil_of_left_ne_nil (filled u hu) v, append_mem_parts hu hv⟩
  · rintro ⟨hne, hw⟩
    rw [← Language.one_add_self_mul_kstar_eq_kstar] at hw
    exact hw.resolve_left hne

theorem mem_string : w ∈ string ↔ ∃ m tail, w = m ++ '"' :: tail ∧
    (m = [] ∨ String.ofList m ∈ literalMarks) ∧ Closed '"' tail := by
  simp only [string, Language.mem_mul, mem_mark, mem_exactly]
  constructor
  · rintro ⟨_, ⟨_, ⟨m, hm, _, rfl, rfl⟩, u, hu, rfl⟩, _, rfl, rfl⟩
    exact ⟨m, u ++ ['"'], by simp, hm, (closed_iff (by decide) (by decide)).mpr ⟨u, hu, rfl⟩⟩
  · rintro ⟨m, tail, rfl, hm, ht⟩
    obtain ⟨u, hu, rfl⟩ := (closed_iff (by decide) (by decide)).mp ht
    exact ⟨_, ⟨_, ⟨m, hm, _, rfl, rfl⟩, u, hu, rfl⟩, _, rfl, by simp⟩

theorem mem_char : w ∈ char ↔ ∃ m tail, w = m ++ '\'' :: tail ∧
    (m = [] ∨ String.ofList m ∈ literalMarks) ∧ Closed '\'' tail ∧ tail ≠ ['\''] := by
  have single {u : List Char} : u ++ ['\''] ≠ ['\''] ↔ u ≠ [] := by simp
  simp only [char, Language.mem_mul (l := _ * exactly _), Language.mem_mul (m := exactly _),
    mem_mark, mem_exactly, mem_parts]
  constructor
  · rintro ⟨_, ⟨_, ⟨m, hm, _, rfl, rfl⟩, u, hu, rfl⟩, _, rfl, rfl⟩
    obtain ⟨hne, hu⟩ := hu
    refine ⟨m, u ++ ['\''], by simp, hm, (closed_iff (by decide) (by decide)).mpr ⟨u, hu, rfl⟩, ?_⟩
    exact single.mpr hne
  · rintro ⟨m, tail, rfl, hm, ht, hne⟩
    obtain ⟨u, hu, rfl⟩ := (closed_iff (by decide) (by decide)).mp ht
    exact ⟨_, ⟨_, ⟨m, hm, _, rfl, rfl⟩, u, ⟨single.mp hne, hu⟩, rfl⟩, _, rfl, by simp⟩

theorem mem_identifier : w ∈ identifier ↔
    ∃ c cs, w = c :: cs ∧ isWordStart c = true ∧ ∀ d ∈ cs, isWordChar d = true := by
  simp only [identifier, mem_oneOf_mul, mem_run]

theorem mem_hexadecimal : w ∈ hexadecimal ↔ ∃ x digits suffix, w = '0' :: x :: digits ++ suffix ∧
    (x = 'x' ∨ x = 'X') ∧ digits ≠ [] ∧ (∀ c ∈ digits, isHexDigit c = true) ∧
    ∀ c ∈ suffix, isIntegerSuffix c = true := by
  simp only [hexadecimal, Language.mem_mul, Language.mem_add, mem_exactly, mem_oneOrMore, mem_run]
  constructor
  · rintro ⟨_, ⟨m, hm, digits, ⟨hne, hd⟩, rfl⟩, suffix, hs, rfl⟩
    obtain rfl | rfl := hm
    · exact ⟨'x', digits, suffix, rfl, .inl rfl, hne, hd, hs⟩
    · exact ⟨'X', digits, suffix, rfl, .inr rfl, hne, hd, hs⟩
  · rintro ⟨x, digits, suffix, rfl, hx, hne, hd, hs⟩
    refine ⟨'0' :: x :: digits, ⟨['0', x], ?_, digits, ⟨hne, hd⟩, rfl⟩, suffix, hs, rfl⟩
    exact hx.imp (congrArg fun x => ['0', x]) (congrArg fun x => ['0', x])

end Pattern

/-- The texts that a token of the kind can have. -/
def Kind.pattern : Kind → Language Char
  | .constant => Pattern.integer + Pattern.hexadecimal + Pattern.float + Pattern.char
  | .stringLiteral => Pattern.string
  | .ident =>
    {w | w ∈ Pattern.identifier ∧ ∀ k ∈ Kind.keywords, k.spelling ≠ some (String.ofList w)}
  | k => {w | k.spelling = some (String.ofList w) ∨ (String.ofList w, k) ∈ Kind.digraphs}

namespace Kind

variable {k : Kind} {s : String}

theorem pattern_of_spelling (h : k.spelling.isSome = true) : k.pattern =
    {w | k.spelling = some (String.ofList w) ∨ (String.ofList w, k) ∈ digraphs} := by
  cases k <;> first | rfl | cases h

theorem mem_of_spelling (h : k.spelling.isSome = true) : k ∈ keywords ∨ k ∈ punctuators := by
  cases k <;> first | decide | cases h

theorem mem_keywordSpellings : (s, k) ∈ keywordSpellings ↔ k ∈ keywords ∧ k.spelling = some s := by
  simp only [keywordSpellings, List.mem_filterMap, Option.map_eq_some_iff, Prod.mk.injEq]
  grind

theorem mem_punctuatorSpellings_iff : (s, k) ∈ punctuatorSpellings ↔
    (k ∈ punctuators ∧ k.spelling = some s) ∨ (s, k) ∈ digraphs := by
  simp only [punctuatorSpellings, List.mem_append, List.mem_filterMap, Option.map_eq_some_iff,
    Prod.mk.injEq]
  grind

theorem ofWord_of_mem (h : k ∈ keywords) (hs : k.spelling = some s) : ofWord s = k := by
  have words : ∀ p ∈ keywordSpellings, ofWord p.1 = p.2 := by decide
  exact words (s, k) (mem_keywordSpellings.mpr ⟨h, hs⟩)

theorem ofPunctuator?_eq_some : ofPunctuator? s = some k ↔ (s, k) ∈ punctuatorSpellings := by
  have found : ∀ p ∈ punctuatorSpellings, ofPunctuator? p.1 = some p.2 := by decide
  exact ⟨mem_of_lookup, found (s, k)⟩

end Kind

theorem lexical_of_spelling {k : Kind} {w : List Char}
    (h : k.spelling = some (String.ofList w)) : Lexical k w := by
  obtain hk | hk := Kind.mem_of_spelling (k := k) (by rw [h]; rfl)
  · have words : ∀ p ∈ Kind.keywordSpellings,
        (p.1.toList.head?.any isWordStart && p.1.toList.all isWordChar) = true := by decide
    have word := words _ (Kind.mem_keywordSpellings.mpr ⟨hk, h⟩)
    rw [String.toList_ofList] at word
    cases w with
    | nil => cases word
    | cons c cs =>
      rw [List.head?_cons, Option.any_some, List.all_cons, Bool.and_eq_true,
        Bool.and_eq_true] at word
      have text := Lexical.word word.1 (List.all_eq_true.mp word.2.2)
      rwa [Kind.ofWord_of_mem hk h] at text
  · exact .punctuator (Kind.ofPunctuator?_eq_some.mpr
      (Kind.mem_punctuatorSpellings_iff.mpr (.inl ⟨hk, h⟩)))

theorem lexical_of_identifier {w : List Char} (h : w ∈ Pattern.identifier) :
    Lexical (Kind.ofWord (String.ofList w)) w := by
  obtain ⟨c, cs, rfl, hc, hw⟩ := Pattern.mem_identifier.mp h
  exact .word hc hw

theorem lexical_of_hexadecimal {w : List Char} (h : w ∈ Pattern.hexadecimal) :
    Lexical .constant w := by
  obtain ⟨x, digits, suffix, rfl, hx, hne, hd, hs⟩ := Pattern.mem_hexadecimal.mp h
  exact .hexadecimal hx hne hd hs

theorem lexical_of_string {w : List Char} (h : w ∈ Pattern.string) : Lexical .stringLiteral w := by
  obtain ⟨m, tail, rfl, hm, ht⟩ := Pattern.mem_string.mp h
  exact .string hm ht

theorem lexical_of_char {w : List Char} (h : w ∈ Pattern.char) : Lexical .constant w := by
  obtain ⟨m, tail, rfl, hm, ht, hne⟩ := Pattern.mem_char.mp h
  exact .char hm ht hne

/-- The language of a kind has just the texts that a token of the kind can have. -/
theorem lexical_iff {k : Kind} {w : List Char} : Lexical k w ↔ w ∈ k.pattern := by
  constructor
  · intro h
    cases h with
    | string hm ht => exact Pattern.mem_string.mpr ⟨_, _, rfl, hm, ht⟩
    | char hm ht hne => exact .inr (Pattern.mem_char.mpr ⟨_, _, rfl, hm, ht, hne⟩)
    | decimal hw hp hne he hs =>
      obtain h | h := Pattern.mem_of_decimal hw hp hne he hs
      · exact .inl (.inl (.inl h))
      · exact .inl (.inr h)
    | hexadecimal hx hne hd hs =>
      exact .inl (.inl (.inr (Pattern.mem_hexadecimal.mpr ⟨_, _, _, rfl, hx, hne, hd, hs⟩)))
    | @word c cs hc hw =>
      obtain hk | hk := Kind.ofWord_cases (String.ofList (c :: cs))
      · rw [hk]
        refine ⟨Pattern.mem_identifier.mpr ⟨c, cs, rfl, hc, hw⟩, fun k hm hs => ?_⟩
        rw [Kind.ofWord_of_mem hm hs] at hk
        subst hk
        revert hm
        decide
      · obtain ⟨-, hs⟩ := Kind.mem_keywordSpellings.mp hk
        rw [Kind.pattern_of_spelling (by rw [hs]; rfl)]
        exact .inl hs
    | @punctuator k cs hk =>
      have spelled : ∀ p ∈ Kind.punctuatorSpellings, p.2.spelling.isSome = true := by decide
      rw [Kind.ofPunctuator?_eq_some] at hk
      rw [Kind.pattern_of_spelling (spelled _ hk)]
      exact (Kind.mem_punctuatorSpellings_iff.mp hk).imp And.right id
  · intro h
    cases k with
    | constant =>
      obtain ((h | h) | h) | h := h
      · exact Pattern.lexical_of_integer h
      · exact lexical_of_hexadecimal h
      · exact Pattern.lexical_of_float h
      · exact lexical_of_char h
    | stringLiteral => exact lexical_of_string h
    | ident =>
      obtain ⟨hw, hn⟩ := h
      have word := lexical_of_identifier hw
      obtain hk | hk := Kind.ofWord_cases (String.ofList w)
      · rwa [hk] at word
      · obtain ⟨hm, hs⟩ := Kind.mem_keywordSpellings.mp hk
        exact absurd hs (hn _ hm)
    | _ =>
      obtain h | h := h
      · exact lexical_of_spelling h
      · exact .punctuator (Kind.ofPunctuator?_eq_some.mpr
          (Kind.mem_punctuatorSpellings_iff.mpr (.inr h)))

/-- The language of all tokens has just the texts that some token can have. -/
theorem mem_token_iff {w : List Char} : w ∈ Pattern.token ↔ ∃ k, Lexical k w := by
  constructor
  · rintro ((((((h | h) | h) | h) | h) | h) | h)
    · exact ⟨_, lexical_of_identifier h⟩
    · exact ⟨_, Pattern.lexical_of_integer h⟩
    · exact ⟨_, lexical_of_hexadecimal h⟩
    · exact ⟨_, Pattern.lexical_of_float h⟩
    · exact ⟨_, lexical_of_string h⟩
    · exact ⟨_, lexical_of_char h⟩
    · obtain ⟨k, hk, hs⟩ | ⟨k, hd⟩ := h
      · exact ⟨k, lexical_of_spelling hs⟩
      · exact ⟨k, .punctuator (Kind.ofPunctuator?_eq_some.mpr
          (Kind.mem_punctuatorSpellings_iff.mpr (.inr hd)))⟩
  · rintro ⟨k, h⟩
    simp only [Pattern.token, Language.mem_add]
    cases h with
    | string hm ht =>
      have h := Pattern.mem_string.mpr ⟨_, _, rfl, hm, ht⟩
      tauto
    | char hm ht hne =>
      have h := Pattern.mem_char.mpr ⟨_, _, rfl, hm, ht, hne⟩
      tauto
    | decimal hw hp hne he hs =>
      have h := (Language.mem_add ..).mp (Pattern.mem_of_decimal hw hp hne he hs)
      tauto
    | hexadecimal hx hne hd hs =>
      have h := Pattern.mem_hexadecimal.mpr ⟨_, _, _, rfl, hx, hne, hd, hs⟩
      tauto
    | word hc hw =>
      have h := Pattern.mem_identifier.mpr ⟨_, _, rfl, hc, hw⟩
      tauto
    | punctuator hk =>
      have h := Kind.mem_punctuatorSpellings_iff.mp (Kind.ofPunctuator?_eq_some.mp hk)
      exact .inr (h.imp (fun h => ⟨_, h⟩) fun h => ⟨_, h⟩)

end CPretty
