import CPretty.Proofs.Token.Lexical

namespace CPretty

namespace Scan

variable {b : Bool} {c quote : Char} {cs : List Char}

theorem prefix_append_drop {xs ys : List Char} (h : xs <+: cs) (h' : ys <+: cs.drop xs.length) :
    xs ++ ys <+: cs := by
  obtain ⟨r, rfl⟩ := h
  rw [List.drop_left] at h'
  exact (List.prefix_append_right_inj xs).mpr h'

theorem isPrefix_quotedTail (quote : Char) (cs : List Char) : (quotedTail quote cs).2 <+: cs := by
  fun_induction quotedTail quote cs with
  | case1 => exact List.nil_prefix
  | case2 => exact List.prefix_refl _
  | case3 c cs closed tail hq ih =>
    rw [hq] at ih
    exact (List.prefix_cons_inj _).mpr ((List.prefix_cons_inj _).mpr ih)
  | case4 => exact List.nil_prefix
  | case5 cs => exact ⟨cs, rfl⟩
  | case6 c cs _ _ _ _ closed tail hq ih =>
    rw [hq] at ih
    exact (List.prefix_cons_inj _).mpr ih

theorem isPrefix_stringTail (cs : List Char) : (stringTail cs).2 <+: cs :=
  isPrefix_quotedTail '"' cs

theorem isPrefix_charTail (cs : List Char) : (charTail cs).2 <+: cs := by
  fun_cases charTail cs with
  | case1 cs => exact ⟨cs, rfl⟩
  | case2 cs hn closed tail hq =>
    have part := isPrefix_quotedTail '\'' cs
    rwa [hq] at part

theorem isPrefix_fraction (cs : List Char) : fraction cs <+: cs := by
  fun_cases fraction cs with
  | case1 cs => simpa using List.takeWhile_prefix isDigit
  | case2 => exact List.nil_prefix

theorem isPrefix_exponent (cs : List Char) : exponent cs <+: cs := by
  fun_cases exponent cs with
  | case1 e he d ds hd => simpa using List.takeWhile_prefix isDigit
  | case2 e he d ds hd hs => simpa using List.takeWhile_prefix isDigit
  | _ => exact List.nil_prefix

theorem isPrefix_numberSuffix (b : Bool) (cs : List Char) : numberSuffix b cs <+: cs := by
  rw [numberSuffix]
  split
  · exact (List.takeWhile_prefix _).trans (List.take_prefix 1 cs)
  · exact List.takeWhile_prefix _

theorem isPrefix_decimal (cs : List Char) : decimal cs <+: cs := by
  have whole := List.takeWhile_prefix (l := cs) isDigit
  have mantissa := prefix_append_drop whole (isPrefix_fraction _)
  have body := prefix_append_drop mantissa (isPrefix_exponent _)
  exact prefix_append_drop body (isPrefix_numberSuffix _ _)

theorem isPrefix_hexadecimal (mark cs : List Char) : (hexadecimal mark cs).2 <+: mark ++ cs := by
  have digits := List.takeWhile_prefix (l := cs) isHexDigit
  rw [hexadecimal]
  split
  · exact List.prefix_append mark cs
  · rw [List.append_assoc, List.prefix_append_right_inj]
    exact prefix_append_drop digits (List.takeWhile_prefix _)

theorem isPrefix_number (cs : List Char) : (number cs).2 <+: cs := by
  fun_cases number cs with
  | case1 cs => exact isPrefix_hexadecimal ['0', 'x'] cs
  | case2 cs => exact isPrefix_hexadecimal ['0', 'X'] cs
  | case3 => exact isPrefix_decimal cs

theorem isPrefix_word (cs : List Char) : (word cs).2 <+: cs := by
  have letters := List.takeWhile_prefix (l := cs) isWordChar
  rw [word]
  split
  · split
    next r hr =>
      apply prefix_append_drop letters
      rw [hr]
      exact (List.prefix_cons_inj _).mpr (isPrefix_stringTail r)
    next r hr =>
      apply prefix_append_drop letters
      rw [hr]
      exact (List.prefix_cons_inj _).mpr (isPrefix_charTail r)
    next => exact letters
  · exact letters

theorem exists_of_punctuator? {k : Kind} {text : List Char}
    (h : punctuator? cs = some (k, text)) : ∃ n, text = cs.take (n + 1) := by
  obtain ⟨n, hn, hp⟩ := List.exists_of_findSome?_eq_some h
  obtain ⟨k', -, hk⟩ := Option.map_eq_some_iff.mp hp
  cases hk
  have positive : ∀ n ∈ [3, 2, 1], n = n - 1 + 1 := by decide
  exact ⟨n - 1, congrArg cs.take (positive n hn)⟩

/-- A token, or what is faulty in its place, starts with the first character. -/
theorem exists_token (c : Char) (cs : List Char) :
    ∃ tail, (token c cs).2 = c :: tail ∧ tail <+: cs := by
  -- A part of the text that is not empty starts with the first character.
  have starts {text : List Char} (hp : text <+: c :: cs) (hn : text ≠ []) :
      ∃ tail, text = c :: tail ∧ tail <+: cs := by
    obtain ⟨d, tail, rfl⟩ := List.exists_cons_of_ne_nil hn
    obtain ⟨rfl, ht⟩ := List.cons_prefix_cons.mp hp
    exact ⟨tail, rfl, ht⟩
  rw [token]
  split
  next hq => exact ⟨_, hq ▸ rfl, isPrefix_stringTail cs⟩
  split
  next hq => exact ⟨_, hq ▸ rfl, isPrefix_charTail cs⟩
  split
  next hn =>
    apply starts (isPrefix_number (c :: cs))
    have hex (x : Char) (cs : List Char) : (hexadecimal ['0', x] cs).2 ≠ [] := by
      rw [hexadecimal]
      split <;> simp
    generalize c :: cs = xs at hn ⊢
    fun_cases number xs with
    | case1 => exact hex 'x' _
    | case2 => exact hex 'X' _
    | case3 => exact (decimal_ok hn).ne_nil
  split
  next hw =>
    apply starts (isPrefix_word (c :: cs))
    have letters : (c :: cs).takeWhile isWordChar ≠ [] := by
      simp [isWordChar, hw]
    rw [word]
    split
    · split
      · exact fun h => letters (List.append_eq_nil_iff.mp h).1
      · exact fun h => letters (List.append_eq_nil_iff.mp h).1
      · exact letters
    · exact letters
  split
  next hp =>
    obtain ⟨n, rfl⟩ := exists_of_punctuator? hp
    exact ⟨cs.take n, rfl, List.take_prefix n cs⟩
  next => exact ⟨[], rfl, List.nil_prefix⟩

theorem isPrefix_blockTail (cs : List Char) : (blockTail cs).2 <+: cs := by
  fun_induction blockTail cs with
  | case1 => exact List.nil_prefix
  | case2 cs => exact ⟨cs, rfl⟩
  | case3 c cs _ closed tail hb ih =>
    rw [hb] at ih
    exact (List.prefix_cons_inj _).mpr ih

theorem isPrefix_logicalLine (cs : List Char) : logicalLine cs <+: cs := by
  fun_induction logicalLine cs with
  | case1 => exact List.nil_prefix
  | case2 cs ih => exact (List.prefix_cons_inj _).mpr ((List.prefix_cons_inj _).mpr ih)
  | case3 cs ih =>
    exact (List.prefix_cons_inj _).mpr
      ((List.prefix_cons_inj _).mpr ((List.prefix_cons_inj _).mpr ih))
  | case4 => exact List.nil_prefix
  | case5 c cs _ _ _ ih => exact (List.prefix_cons_inj _).mpr ih

theorem exists_directive (cs : List Char) :
    ∃ tail, directive ('#' :: cs) = '#' :: tail ∧ tail <+: cs := by
  have line : logicalLine ('#' :: cs) = '#' :: logicalLine cs := by
    rw [logicalLine.eq_4, if_neg (by decide)]
    · exact fun _ h => absurd h (by decide)
    · exact fun _ h => absurd h (by decide)
  rw [directive, line]
  split
  next h =>
    cases hl : logicalLine cs with
    | nil =>
      rw [hl] at h
      cases h
    | cons d ds =>
      refine ⟨(d :: ds).dropLast, rfl, (List.dropLast_prefix _).trans ?_⟩
      rw [← hl]
      exact isPrefix_logicalLine cs
  next => exact ⟨_, rfl, isPrefix_logicalLine cs⟩

/-- Whatever is read takes some characters of the text, from the first one on. -/
theorem exists_lexeme (b : Bool) (c : Char) (cs : List Char) :
    ∃ tail, (lexeme b c cs).2 = c :: tail ∧ tail <+: cs := by
  unfold lexeme
  split
  next hd =>
    simp only [Bool.and_eq_true, decide_eq_true_eq] at hd
    rw [hd.1]
    exact exists_directive cs
  split
  · exact ⟨_, rfl, List.takeWhile_prefix _⟩
  · exact ⟨_, rfl, (List.prefix_cons_inj _).mpr (isPrefix_blockTail _)⟩
  · exact exists_token c cs

end Scan

end CPretty
