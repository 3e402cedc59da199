import CPretty.Proofs.Token.Relexing

namespace CPretty

open Scan

/-- The token is as the lexer reads it, in the canonical spelling. -/
structure Key.Canonical (k : Key) : Prop where
  lexical : Lexical k.kind k.text.toList
  spelled : ∀ s ∈ k.kind.spelling, k.text = s

def Token.Lexed (t : Token) : Prop := Lexical t.kind t.text.toList

theorem Token.Lexed.canonical {t : Token} (h : t.Lexed) : t.canonicalKey.Canonical := by
  by_cases hb : t.kind ∈ Kind.brackets
  · rw [Token.canonicalKey, if_pos hb]
    have brackets : ∀ k ∈ Kind.brackets, ∃ s ∈ k.spelling,
        Kind.ofPunctuator? s = some k := by decide
    obtain ⟨s, hs, hk⟩ := brackets _ hb
    rw [Option.mem_def] at hs
    refine ⟨.punctuator ?_, ?_⟩
    · simpa [hs] using hk
    · simp [hs]
  · rw [Token.canonicalKey, if_neg hb]
    refine ⟨h, fun s hs => ?_⟩
    have := (h.spelled hs).resolve_right hb
    exact String.toList_inj.mp this

def Key.of (k : Kind) : Key := ⟨k, k.spelling.getD ""⟩

@[simp] theorem Key.of_kind (k : Kind) : (Key.of k).kind = k := rfl

theorem Key.Canonical.eq_of {k : Key} (h : k.Canonical) (hk : k.kind.spelling.isSome) :
    k = .of k.kind := by
  obtain ⟨s, hs⟩ := Option.isSome_iff_exists.mp hk
  have ht := h.spelled s hs
  cases k
  simp_all [Key.of]

namespace Kind

def isWhole (k : Kind) : Bool :=
  [.lParen, .rParen, .lBracket, .rBracket, .lBrace, .rBrace, .semicolon, .comma, .plusPlus,
    .minusMinus, .arrow, .ellipsis].contains k

def isQuiet (k : Kind) : Bool :=
  [.lParen, .rParen, .lBracket, .rBracket, .lBrace, .rBrace, .semicolon, .comma].contains k

def ends (k : Kind) : Bool :=
  [.ident, .constant, .stringLiteral, .rParen, .rBracket, .plusPlus, .minusMinus].contains k

def isAccess (k : Kind) : Bool := [.dot, .arrow, .plusPlus, .minusMinus, .colon].contains k

/-- Whether a token of the second kind may be printed directly after one of the first. -/
def abuts (k k' : Kind) : Bool :=
  k'.isQuiet || k.isWhole || ((k.ends || k == .kwDefault) && k'.isAccess) ||
    (k == .star && k' != .eq && k' != .eqEq) || (k == .dot && k' == .ident)

/-- Whether a line may break between a token of the first kind and one of the second that could also
stand directly after it. -/
def breaks (k k' : Kind) : Bool := k.isWhole || k'.isQuiet

theorem abuts_of_breaks {k k' : Kind} (h : k.breaks k' = true) : k.abuts k' = true := by
  rw [breaks, Bool.or_eq_true] at h
  obtain h | h := h <;> simp [abuts, h]

end Kind

variable {a b : Key} {x : Char} {k : Kind}

/-- Whatever follows ends a token that no longer punctuator starts with. -/
theorem Apart.of_isWhole (h : k.isWhole = true) (x : Char) :
    Apart k (k.spelling.getD "").toList x := by
  have hk : k ∈ [Kind.lParen, .rParen, .lBracket, .rBracket, .lBrace, .rBrace, .semicolon, .comma,
      .plusPlus, .minusMinus, .arrow, .ellipsis] := List.contains_iff_mem.mp h
  have whole : ∀ k ∈ [Kind.lParen, .rParen, .lBracket, .rBracket, .lBrace, .rBrace, .semicolon,
      .comma, .plusPlus, .minusMinus, .arrow, .ellipsis], k ≠ .constant ∧
      (k.spelling.getD "").toList.all isWordChar = false ∧
      (k.spelling.getD "").toList ≠ ['.'] ∧ (k.spelling.getD "").toList ≠ ['/'] ∧
      ∀ p ∈ Kind.punctuatorSpellings, (k.spelling.getD "").toList <+: p.1.toList →
        p.1.toList.length ≤ (k.spelling.getD "").toList.length := by decide
  obtain ⟨h₁, h₂, h₃, h₄, h₅⟩ := whole k hk
  refine ⟨fun h => absurd h h₁, fun h => ?_, fun _ => ⟨fun p hp hx => ?_, ?_, ?_⟩⟩
  · rw [h₂] at h
    cases h
  · have := h₅ p hp ((List.prefix_append _ _).trans hx)
    have := hx.length_le
    simp at this
    omega
  · exact fun h => absurd h h₃
  · exact fun h => absurd h h₄

theorem Apart.of_quiet {text : List Char} (ha : Lexical k text) (hw : isWordChar x = false)
    (hq : x ∉ ['"', '\'', '.', '/', '*'])
    (hp : ∀ p ∈ Kind.punctuatorSpellings, x ∉ p.1.toList.tail) : Apart k text x := by
  simp only [List.mem_cons, List.not_mem_nil, or_false, not_or] at hq
  refine ⟨fun _ => ⟨hw, fun h => absurd h hq.2.2.1⟩, fun _ => ⟨hw, hq.1, hq.2.1⟩, fun _ =>
    ⟨fun p hm hx => hp p hm ?_, ?_, fun _ => ⟨hq.2.2.2.1, hq.2.2.2.2⟩⟩⟩
  · obtain ⟨ys, hy⟩ := hx
    obtain ⟨c, cs, rfl⟩ := List.exists_cons_of_ne_nil ha.ne_nil
    rw [← hy]
    simp
  · intro _
    cases hd : isDigit x with
    | false => rfl
    | true => rw [isWordChar_of_isDigit hd] at hw; cases hw

/-- A character that is no part of a word ends a token with a value, except that a number of digits
alone goes on with a point. -/
theorem Apart.of_ends (ha : a.Canonical) (hk : a.kind.ends = true ∨ a.kind = .kwDefault)
    (hw : isWordChar x = false)
    (hq : x ≠ '"' ∧ x ≠ '\'') (hd : x = '.' → a.kind = .constant →
      a.text.toList.all isDigit = false) : Apart a.kind a.text.toList x := by
  by_cases hs : a.kind.isWhole = true
  · have hsp : a.kind.spelling.isSome = true := by
      have : ∀ k ∈ [Kind.lParen, .rParen, .lBracket, .rBracket, .lBrace, .rBrace,
        .semicolon, .comma,
          .plusPlus, .minusMinus, .arrow, .ellipsis], k.spelling.isSome = true := by decide
      exact this _ (List.contains_iff_mem.mp hs)
    have := ha.eq_of hsp
    have h := Apart.of_isWhole hs x
    rw [this]
    exact h
  · have hk' : a.kind ∈ [Kind.ident, .constant, .stringLiteral, .kwDefault] := by
      have : ∀ k ∈ [Kind.ident, .constant, .stringLiteral, .rParen, .rBracket, .plusPlus,
          .minusMinus], k.isWhole = true ∨
            k ∈ [Kind.ident, .constant, .stringLiteral, .kwDefault] := by
        decide
      obtain hk | hk := hk
      · exact (this _ (List.contains_iff_mem.mp hk)).resolve_left hs
      · simp [hk]
    refine ⟨fun h => ⟨hw, fun hx => hd hx h⟩, fun _ => ⟨hw, hq⟩, fun hp => ?_⟩
    have values : ∀ p ∈ Kind.punctuatorSpellings,
        p.2 ∉ [Kind.ident, .constant, .stringLiteral, .kwDefault] := by decide
    exact absurd hk' (values _ (mem_punctuatorSpellings hp))

theorem Lexical.head_ne_eq {c : Char} {cs : List Char} (h : Lexical k (c :: cs)) (h₁ : k ≠ .eq)
    (h₂ : k ≠ .eqEq) : c ≠ '=' := by
  obtain hc | hk := h.head
  · rintro rfl
    revert hc
    decide
  · have heads : ∀ p ∈ Kind.punctuatorSpellings, p.1.toList.head? = some '=' →
        p.2 = .eq ∨ p.2 = .eqEq := by decide
    rintro rfl
    exact (heads _ (mem_punctuatorSpellings hk) (by simp)).elim h₁ h₂

theorem Lexical.ident_chars {c : Char} {cs : List Char} (h : Lexical .ident (c :: cs)) :
    isWordStart c = true ∧ ∀ d ∈ cs, isWordChar d = true := by
  generalize hk : Kind.ident = k at h
  generalize hcs : c :: cs = text at h
  cases h with
  | word hc hd =>
    cases hcs
    exact ⟨hc, hd⟩
  | punctuator hp =>
    have names : ∀ p ∈ Kind.punctuatorSpellings, p.2 ≠ .ident := by decide
    exact absurd hk.symm (names _ (mem_punctuatorSpellings hp))
  | _ => cases hk

/-- Of two tokens that are printed side by side the second ends the first, unless the first is a
number of digits alone and the second a point. -/
theorem Key.Canonical.apart (ha : a.Canonical) (hb : b.Canonical)
    (h : a.kind.abuts b.kind = true) (hd : b.kind = .dot → a.kind = .constant →
      a.text.toList.all isDigit = false) : ∀ x ∈ b.text.toList.head?,
        Apart a.kind a.text.toList x := by
  intro x hx
  have spelled {ks : List Kind} (hm : b.kind ∈ ks) (hs : ∀ k ∈ ks, k.spelling.isSome = true) :
      b.text = b.kind.spelling.getD "" := by
    rw [hb.eq_of (hs _ hm)]
    rfl
  simp only [Kind.abuts, Bool.or_eq_true, Bool.and_eq_true, beq_iff_eq, bne_iff_ne] at h
  obtain (((h | h) | ⟨hk, h⟩) | ⟨⟨hk, h₁⟩, h₂⟩) | ⟨hk, h⟩ := h
  · have hm := List.contains_iff_mem.mp h
    have quiet : ∀ k ∈ [Kind.lParen, .rParen, .lBracket, .rBracket, .lBrace, .rBrace, .semicolon,
        .comma], ((k.spelling.getD "").toList.head?.all fun x => !isWordChar x &&
        !(['"', '\'', '.', '/', '*'].contains x) &&
        Kind.punctuatorSpellings.all fun p => !p.1.toList.tail.contains x) = true := by
      decide
    rw [spelled hm (by decide)] at hx
    have hq := quiet _ hm
    rw [Option.mem_def.mp hx, Option.all_some] at hq
    simp only [Bool.and_eq_true, Bool.not_eq_true', List.all_eq_true, List.contains_eq_mem,
      decide_eq_false_iff_not] at hq
    obtain ⟨⟨h₁, h₂⟩, h₃⟩ := hq
    exact .of_quiet ha.lexical h₁ h₂ h₃
  · have hm := List.contains_iff_mem.mp h
    have some : ∀ k ∈ [Kind.lParen, .rParen, .lBracket, .rBracket, .lBrace, .rBrace, .semicolon,
        .comma, .plusPlus, .minusMinus, .arrow, .ellipsis], k.spelling.isSome = true := by decide
    have hw := Apart.of_isWhole h x
    rw [ha.eq_of (some _ hm)]
    exact hw
  · have hm := List.contains_iff_mem.mp h
    have access : ∀ k ∈ [Kind.dot, .arrow, .plusPlus, .minusMinus, .colon],
        ((k.spelling.getD "").toList.head?.all fun x => !isWordChar x &&
        (x != '"' && x != '\'') && (x != '.' || k == .dot)) = true := by decide
    rw [spelled hm (by decide)] at hx
    have ha' := access _ hm
    rw [Option.mem_def.mp hx, Option.all_some] at ha'
    obtain ⟨⟨h₁, h₂⟩, h₃⟩ : (isWordChar x = false ∧ (x ≠ '"' ∧ x ≠ '\'')) ∧
        (x ≠ '.' ∨ b.kind = .dot) := by simpa using ha'
    exact .of_ends ha hk h₁ h₂ fun hx hc => hd (h₃.resolve_left fun hn => hn hx) hc
  · have hne : x ≠ '=' := by
      cases ht : b.text.toList with
      | nil => rw [ht] at hx; cases hx
      | cons c cs =>
        rw [ht] at hx
        cases hx
        exact (ht ▸ hb.lexical).head_ne_eq h₁ h₂
    have ht : a.text = "*" := ha.spelled _ (by rw [hk]; rfl)
    have stars : ∀ p ∈ Kind.punctuatorSpellings, ['*'] <+: p.1.toList →
        p.1.toList = ['*'] ∨ p.1.toList = ['*', '='] := by decide
    rw [hk, ht]
    refine ⟨nofun, fun h => absurd h (by decide), fun _ => ⟨fun p hp hx => ?_, ?_, ?_⟩⟩
    · have hx' : ['*', x] <+: p.1.toList := hx
      obtain h | h := stars p hp ((List.prefix_append ['*'] [x]).trans hx')
      · rw [h] at hx'
        simp at hx'
      · rw [h] at hx'
        simp at hx'
        exact hne hx'
    · exact fun h => absurd h (by decide)
    · exact fun h => absurd h (by decide)
  · have hws : isWordStart x = true := by
      cases ht : b.text.toList with
      | nil => rw [ht] at hx; cases hx
      | cons c cs =>
        rw [ht] at hx
        cases hx
        exact (ht ▸ h ▸ hb.lexical).ident_chars.1
    have ht : a.text = "." := ha.spelled _ (by rw [hk]; rfl)
    have dots : ∀ p ∈ Kind.punctuatorSpellings, ['.'] <+: p.1.toList →
        p.1.toList = ['.'] ∨ p.1.toList = ['.', '.', '.'] := by decide
    rw [hk, ht]
    refine ⟨nofun, fun h => absurd h (by decide), fun _ => ⟨fun p hp hx => ?_, ?_, ?_⟩⟩
    · have hx' : ['.', x] <+: p.1.toList := hx
      obtain h | h := dots p hp ((List.prefix_append ['.'] [x]).trans hx')
      · rw [h] at hx'
        simp at hx'
      · rw [h] at hx'
        simp at hx'
        subst hx'
        revert hws
        decide
    · exact fun _ => isDigit_eq_false_of_isWordStart hws
    · exact fun h => absurd h (by decide)

theorem Lexical.apart_blank {text : List Char} (h : Lexical k text) (hx : Text.isBlank x = true) :
    Apart k text x := by
  refine .of_quiet h ?_ (fun hm => ?_) fun p hp hm => ?_
  · cases hw : isWordChar x with
    | false => rfl
    | true => rw [not_isBlank_of_isWordChar hw] at hx; cases hx
  · simp only [List.mem_cons, List.not_mem_nil, or_false] at hm
    obtain rfl | rfl | rfl | rfl | rfl := hm <;> exact absurd hx (by decide)
  · rw [not_isBlank_of_punctuator hp x (List.mem_of_mem_tail hm)] at hx
    cases hx

end CPretty
