import CPretty.Proofs.Token.Extent

namespace CPretty

open Scan

/-- The text goes on with no number and no word: it starts with no character of a word, no dot and
no quote, and with a sign only where no digit follows that. -/
structure Severs (rest : List Char) : Prop where
  halts : ∀ c ∈ rest.head?, isWordChar c = false ∧ c ∉ ['.', '"', '\'']
  sign : ∀ c cs, rest = c :: cs → c = '+' ∨ c = '-' → cs.head?.any isDigit = false

namespace Scan

variable {c : Char} {cs tail text rest : List Char} {k : Kind} {quote : Char} {p : Char → Bool}

theorem drop_append_of_prefix {xs : List Char} (h : xs <+: cs) (rest : List Char) :
    (cs ++ rest).drop xs.length = cs.drop xs.length ++ rest :=
  List.drop_append_of_le_length h.length_le

theorem takeWhile_append_of_halts (h : Halts p rest) (cs : List Char) :
    (cs ++ rest).takeWhile p = cs.takeWhile p := by
  induction cs with
  | nil => exact takeWhile_eq_left (List.forall_mem_nil _) h
  | cons c cs ih => rw [List.cons_append, List.takeWhile_cons, List.takeWhile_cons, ih]

theorem quotedTail_closed (h : quotedTail quote cs = (true, tail)) (rest : List Char) :
    quotedTail quote (cs ++ rest) = (true, tail) := by
  have part := isPrefix_quotedTail quote cs
  rw [h] at part
  obtain ⟨more, rfl⟩ := part
  rw [List.append_assoc]
  exact quotedTail_append h _

theorem stringTail_closed (h : stringTail cs = (.token k, tail)) (rest : List Char) :
    stringTail (cs ++ rest) = (.token k, tail) := by
  rw [stringTail] at h ⊢
  generalize hq : quotedTail '"' cs = r at h
  obtain ⟨_ | _, tail'⟩ := r
  · cases h
  · rw [quotedTail_closed hq rest]
    exact h

theorem charTail_closed (h : charTail cs = (.token k, tail)) (rest : List Char) :
    charTail (cs ++ rest) = (.token k, tail) := by
  have hn : cs.head? ≠ some '\'' := by
    intro hh
    obtain ⟨r, rfl⟩ := List.head?_eq_some_iff.mp hh
    cases h
  rw [charTail_cons hn] at h
  generalize hq : quotedTail '\'' cs = r at h
  obtain ⟨_ | _, tail'⟩ := r
  · cases h
  · have hn' : (cs ++ rest).head? ≠ some '\'' := by
      cases cs with
      | nil => cases hq
      | cons c cs => exact hn
    rw [charTail_cons hn', quotedTail_closed hq rest]
    exact h

end Scan

namespace Severs

variable {c : Char} {cs text rest : List Char} {k : Kind} {p : Char → Bool} (h : Severs rest)
include h

theorem halts_of (hp : ∀ c, p c = true → isWordChar c = true) : Halts p rest := by
  intro c hc
  rw [← Bool.not_eq_true]
  intro hpc
  have := hp c hpc
  rw [(h.halts c hc).1] at this
  cases this

theorem takeWhile (hp : ∀ c, p c = true → isWordChar c = true) (cs : List Char) :
    (cs ++ rest).takeWhile p = cs.takeWhile p :=
  takeWhile_append_of_halts (h.halts_of hp) cs

theorem digits (cs : List Char) : (cs ++ rest).takeWhile isDigit = cs.takeWhile isDigit :=
  h.takeWhile (fun _ => isWordChar_of_isDigit) cs

theorem exists_cons {x : Char} {r : List Char} (hx : x ∈ ['.', '"', '\''] ∨ isWordChar x = true)
    (he : cs ++ rest = x :: r) : ∃ r', cs = x :: r' := by
  cases cs with
  | nil =>
    obtain ⟨hw, hq⟩ := h.halts x (by rw [← List.nil_append rest, he]; rfl)
    obtain hx | hx := hx
    · exact absurd hx hq
    · rw [hw] at hx
      cases hx
  | cons c cs =>
    cases he
    exact ⟨cs, rfl⟩

theorem fraction (cs : List Char) : Scan.fraction (cs ++ rest) = Scan.fraction cs := by
  fun_cases Scan.fraction cs with
  | case1 cs => rw [List.cons_append, Scan.fraction, h.digits]
  | case2 cs hn =>
    refine fraction.eq_2 _ fun r he => ?_
    obtain ⟨r', rfl⟩ := h.exists_cons (.inl (by simp)) he
    exact hn r' rfl

theorem exponent (cs : List Char) : Scan.exponent (cs ++ rest) = Scan.exponent cs := by
  cases cs with
  | nil =>
    cases rest with
    | nil => rfl
    | cons e cs =>
      have he : (e == 'e' || e == 'E') = false := by
        rw [Bool.or_eq_false_iff, beq_eq_false_iff_ne, beq_eq_false_iff_ne]
        have hw := (h.halts e rfl).1
        constructor <;> (rintro rfl; cases hw)
      unfold Scan.exponent
      simp [he]
  | cons e cs =>
    cases cs with
    | nil =>
      cases rest with
      | nil => rfl
      | cons d ds =>
        have hd := h.halts_of (fun _ => isWordChar_of_isDigit) d rfl
        have hs : ((d == '+' || d == '-') && ds.head?.any isDigit) = false := by
          by_cases hd : d = '+' ∨ d = '-'
          · rw [h.sign d ds rfl hd, Bool.and_false]
          · simpa using fun hn => absurd hn hd
        simp only [List.cons_append, List.nil_append, Scan.exponent, hd, hs]
        rfl
    | cons d cs =>
      have head : (cs ++ rest).head?.any isDigit = cs.head?.any isDigit := by
        cases cs with
        | nil =>
          cases rest with
          | nil => rfl
          | cons x rest => simpa using h.halts_of (fun _ => isWordChar_of_isDigit) x rfl
        | cons => rfl
      have digits := h.digits (d :: cs)
      rw [List.cons_append] at digits
      simp only [List.cons_append, Scan.exponent, head, digits, h.digits]

theorem numberSuffix (b : Bool) (cs : List Char) :
    Scan.numberSuffix b (cs ++ rest) = Scan.numberSuffix b cs := by
  rw [Scan.numberSuffix, Scan.numberSuffix, h.takeWhile fun _ => isWordChar_of_isIntegerSuffix]
  cases cs with
  | nil =>
    cases rest with
    | nil => rfl
    | cons x rest => simp [h.halts_of (fun _ => isWordChar_of_isFloatSuffix) x rfl]
  | cons => rfl

theorem decimal (cs : List Char) : Scan.decimal (cs ++ rest) = Scan.decimal cs := by
  have whole := List.takeWhile_prefix (l := cs) isDigit
  have mantissa := prefix_append_drop whole (isPrefix_fraction _)
  have body := prefix_append_drop mantissa (isPrefix_exponent _)
  simp only [Scan.decimal, h.digits, drop_append_of_prefix whole, h.fraction,
    drop_append_of_prefix mantissa, h.exponent, drop_append_of_prefix body, h.numberSuffix]

theorem hexadecimal (mark cs : List Char) :
    Scan.hexadecimal mark (cs ++ rest) = Scan.hexadecimal mark cs := by
  have digits := List.takeWhile_prefix (l := cs) isHexDigit
  rw [Scan.hexadecimal, Scan.hexadecimal, h.takeWhile fun _ => isWordChar_of_isHexDigit,
    drop_append_of_prefix digits, h.takeWhile fun _ => isWordChar_of_isIntegerSuffix]

theorem number (cs : List Char) : Scan.number (cs ++ rest) = Scan.number cs := by
  have mark {x : Char} {r : List Char} (hx : isWordChar x = true)
      (he : cs ++ rest = '0' :: x :: r) : ∃ r', cs = '0' :: x :: r' := by
    obtain ⟨r₁, rfl⟩ := h.exists_cons (.inr (by decide)) he
    obtain ⟨r₂, rfl⟩ := h.exists_cons (.inr hx) (List.cons.inj he).2
    exact ⟨r₂, rfl⟩
  fun_cases Scan.number cs with
  | case1 cs => exact h.hexadecimal _ cs
  | case2 cs => exact h.hexadecimal _ cs
  | case3 cs h₁ h₂ =>
    rw [number.eq_3, h.decimal cs]
    · intro r hr
      obtain ⟨r', rfl⟩ := mark (by decide) hr
      exact h₁ r' rfl
    · intro r hr
      obtain ⟨r', rfl⟩ := mark (by decide) hr
      exact h₂ r' rfl

theorem word (hw : Scan.word cs = (.token k, text)) :
    Scan.word (cs ++ rest) = (.token k, text) := by
  have letters := List.takeWhile_prefix (l := cs) isWordChar
  rw [Scan.word] at hw ⊢
  rw [h.takeWhile fun _ => id, drop_append_of_prefix letters]
  split at hw
  next hm =>
    rw [if_pos hm]
    split at hw
    next r hr =>
      cases hs : stringTail r with
      | mk l tail =>
        rw [hs] at hw
        cases hw
        rw [hr, List.cons_append]
        exact congrArg (Prod.map id (cs.takeWhile isWordChar ++ '"' :: ·))
          (stringTail_closed hs rest)
    next r hr =>
      cases hs : charTail r with
      | mk l tail =>
        rw [hs] at hw
        cases hw
        rw [hr, List.cons_append]
        exact congrArg (Prod.map id (cs.takeWhile isWordChar ++ '\'' :: ·))
          (charTail_closed hs rest)
    next hn hn' =>
      cases hw
      split
      next r hr =>
        obtain ⟨r', hr'⟩ := h.exists_cons (.inl (by simp)) hr
        exact absurd hr' (hn r')
      next r hr =>
        obtain ⟨r', hr'⟩ := h.exists_cons (.inl (by simp)) hr
        exact absurd hr' (hn' r')
      next => rfl
  next hm =>
    rw [if_neg hm]
    exact hw

end Severs

end CPretty
