import CPretty.Proofs.Token.LineEnd
import CPretty.Proofs.Token.Punctuator
import CPretty.Proofs.Token.Stream

namespace CPretty

open Scan

def Scan.isWordOrDot (c : Char) : Bool := isWordChar c || c == '.'

namespace Scan

variable {c : Char} {b : Bool}

theorem punctuator?_dot (cs : List Char) : punctuator? ('.' :: cs) =
    some (if ['.', '.'] <+: cs then (.ellipsis, ['.', '.', '.']) else (.dot, ['.'])) := by
  have pick : (⟨'.', some ('.', '.', .ellipsis), [], .dot⟩ : Arm).pick cs = (.dot, ['.']) := by
    cases cs <;> rfl
  rw [punctuator?_eq_arm, ← pick]
  rfl

/-- Letters in such a text are read as a word, since no quote stands behind them. -/
theorem exists_word {cs : List Char} (hx : ∀ x ∈ cs, isWordOrDot x = true) :
    ∃ k, word cs = (.token k, cs.takeWhile isWordChar) := by
  have quote {q : Char} (hq : isWordOrDot q = false) (r : List Char) :
      cs.drop (cs.takeWhile isWordChar).length ≠ q :: r := by
    intro he
    have := hx q (List.mem_of_mem_drop (he ▸ List.mem_cons_self))
    rw [hq] at this
    cases this
  rw [word]
  split
  · split
    next r hr => exact absurd hr (quote (by decide) r)
    next r hr => exact absurd hr (quote (by decide) r)
    next => exact ⟨_, rfl⟩
  · exact ⟨_, rfl⟩

theorem eq_dot {cs : List Char} (hc : isWordOrDot c = true)
    (hn : ¬ startsNumber (c :: cs) = true) (hw : ¬ isWordStart c = true) : c = '.' := by
  cases hd : isDigit c with
  | false => simpa [isWordOrDot, isWordChar, hw, hd] using hc
  | true =>
    rw [startsNumber.eq_2 _ _ fun _ _ h => by rw [h] at hd; cases hd] at hn
    exact absurd hd hn

end Scan

namespace Severs

variable {rest xs : List Char} {c : Char}

theorem startsNumber (h : Severs rest) (c : Char) (xs : List Char) :
    Scan.startsNumber (c :: (xs ++ rest)) = Scan.startsNumber (c :: xs) := by
  by_cases hc : c = '.'
  · subst hc
    cases xs with
    | nil =>
      cases rest with
      | nil => rfl
      | cons r rest => exact h.halts_of (fun _ => isWordChar_of_isDigit) r rfl
    | cons => rfl
  · rw [startsNumber.eq_2 _ _ fun _ _ h => absurd h hc,
      startsNumber.eq_2 _ _ fun _ _ h => absurd h hc]

theorem punctuator?_dot (h : Severs rest) (xs : List Char) :
    punctuator? ('.' :: (xs ++ rest)) = punctuator? ('.' :: xs) := by
  have dots : ['.', '.'] <+: xs ++ rest ↔ ['.', '.'] <+: xs := by
    refine ⟨fun hp => ?_, fun hp => hp.trans (List.prefix_append xs rest)⟩
    obtain ⟨r, hr⟩ := hp
    obtain ⟨xs, rfl⟩ := h.exists_cons (.inl (by simp)) hr.symm
    obtain ⟨xs, rfl⟩ := h.exists_cons (.inl (by simp)) (List.cons.inj hr.symm).2
    simp
  rw [Scan.punctuator?_dot, Scan.punctuator?_dot]
  simp only [dots]

/-- A lexeme of such characters is the same without the text after them. -/
theorem lexeme (h : Severs rest) (hx : ∀ x ∈ c :: xs, isWordOrDot x = true) (b : Bool) :
    (Scan.lexeme b c xs).2 <+: c :: xs ∧ (Scan.lexeme b c xs).1.isComment = false ∧
      Scan.lexeme b c (xs ++ rest) = Scan.lexeme b c xs := by
  have ne {y : Char} (hy : isWordOrDot y = false) : c ≠ y := by
    rintro rfl
    rw [hx c List.mem_cons_self] at hy
    cases hy
  have lexeme_eq (cs : List Char) : Scan.lexeme b c cs = Scan.token c cs :=
    lexeme_eq_token (ne (by decide)) fun hc => absurd hc (ne (by decide))
  obtain ⟨tail, ht, part⟩ := exists_token c xs
  rw [lexeme_eq, lexeme_eq, ht]
  refine ⟨(List.prefix_cons_inj c).mpr part, isComment_token c xs, ?_⟩
  rw [token, token, if_neg (ne (by decide)), if_neg (ne (by decide)), if_neg (ne (by decide)),
    if_neg (ne (by decide)), h.startsNumber]
  split
  · exact h.number (c :: xs)
  split
  next hw =>
    obtain ⟨k, hk⟩ := exists_word hx
    rw [hk]
    exact h.word hk
  next hn hw =>
    obtain rfl := eq_dot (hx c List.mem_cons_self) hn hw
    rw [h.punctuator?_dot]

end Severs

def Located.reading (l : Located) : Lexeme × String := (l.lexeme, l.text)

def Lexeme.key? : Lexeme × String → Option Key
  | (.token kind, text) => some ⟨kind, text⟩
  | _ => none

def Lexeme.fault? : Lexeme × String → Option LexFault
  | (.fault reason, _) => some reason
  | _ => none

theorem Located.map_key_token? (l : Located) : l.token?.map Token.key = Lexeme.key? l.reading := by
  obtain ⟨_ | _ | _, _, _⟩ := l <;> rfl

theorem Located.map_fault_error? (l : Located) :
    l.error?.map LexError.fault = Lexeme.fault? l.reading := by
  obtain ⟨_ | _ | _, _, _⟩ := l <;> rfl

/-- The same lexemes, maybe at other places, with no comments among them. -/
structure ReadAlike (ls ls' : List Located) : Prop where
  reading : ls.map Located.reading = ls'.map Located.reading
  bare : ∀ l ∈ ls, l.lexeme.isComment = false

namespace ReadAlike

variable {l l' : Located} {ls ls' : List Located}

theorem nil : ReadAlike [] [] := ⟨rfl, List.forall_mem_nil _⟩

theorem cons (hl : l.reading = l'.reading) (hc : l.lexeme.isComment = false)
    (h : ReadAlike ls ls') : ReadAlike (l :: ls) (l' :: ls') :=
  ⟨by rw [List.map_cons, List.map_cons, hl, h.reading], List.forall_mem_cons.mpr ⟨hc, h.bare⟩⟩

theorem symm (h : ReadAlike ls ls') : ReadAlike ls' ls := by
  refine ⟨h.reading.symm, fun l hl => ?_⟩
  have hm : l.reading ∈ ls.map Located.reading := h.reading ▸ List.mem_map_of_mem hl
  obtain ⟨l', hl', he⟩ := List.mem_map.mp hm
  have := h.bare l' hl'
  rwa [(Prod.mk.inj he).1] at this

theorem comments (h : ReadAlike ls ls') : ls.filterMap Located.comment? = [] := by
  rw [List.filterMap_eq_nil_iff]
  intro l hl
  have := h.bare l hl
  rw [Located.comment?]
  split
  · rename_i hk
    rw [hk] at this
    cases this
  · rfl

theorem filterMap_eq {α β : Type} {f : Located → Option α} {g : α → β}
    {r : Lexeme × String → Option β} (hf : ∀ l, (f l).map g = r l.reading)
    (h : ReadAlike ls ls') : (ls.filterMap f).map g = (ls'.filterMap f).map g := by
  have all (ls : List Located) : (ls.filterMap f).map g = (ls.map Located.reading).filterMap r := by
    rw [List.map_filterMap, List.filterMap_map]
    exact congrArg (List.filterMap · ls) (funext hf)
  rw [all, all, h.reading]

end ReadAlike

/-- Words, numbers and dots are read alike before two texts that are. -/
theorem Severs.readAlike {rest rest' xs : List Char} (h : Severs rest) (h' : Severs rest')
    (hx : ∀ x ∈ xs, isWordOrDot x = true)
    (hr : ∀ loc loc' b b', ReadAlike (lexemesFrom loc b 0 rest) (lexemesFrom loc' b' 0 rest'))
    {n : Nat} (hn : n ≤ xs.length) (loc loc' : Location) (b b' : Bool) :
    ReadAlike (lexemesFrom loc b n (xs ++ rest)) (lexemesFrom loc' b' n (xs ++ rest')) := by
  induction xs generalizing n loc loc' b b' with
  | nil =>
    obtain rfl := Nat.le_zero.mp hn
    exact hr loc loc' b b'
  | cons c xs ih =>
    have hxs : ∀ x ∈ xs, isWordOrDot x = true := fun x hm => hx x (List.mem_cons_of_mem c hm)
    cases n with
    | succ n => exact ih hxs (Nat.le_of_succ_le_succ hn) _ _ _ _
    | zero =>
      have solid : Text.isBlank c = false := by
        have := hx c List.mem_cons_self
        rw [isWordOrDot, Bool.or_eq_true, beq_iff_eq] at this
        obtain hw | rfl := this
        · exact not_isBlank_of_isWordChar hw
        · decide
      -- The flag of the line start does not matter to what is no directive.
      have start : Scan.lexeme b' c xs = Scan.lexeme b c xs := by
        have hc : c ≠ '#' := by
          rintro rfl
          cases hx '#' List.mem_cons_self
        simp [Scan.lexeme, hc]
      obtain ⟨hp, hc, he⟩ := h.lexeme hx b
      obtain ⟨-, -, he'⟩ := h'.lexeme hx b'
      rw [List.cons_append, List.cons_append, lexemesFrom, lexemesFrom, if_neg (by simp [solid]),
        if_neg (by simp [solid]), he, he', start]
      generalize Scan.lexeme b c xs = r at hp hc
      obtain ⟨lexeme, text⟩ := r
      refine .cons rfl hc (ih hxs ?_ _ _ _ _)
      have len : text.length ≤ (c :: xs).length := hp.length_le
      rw [List.length_cons] at len
      omega

end CPretty
