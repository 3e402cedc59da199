import CPretty.Proofs.Token.Severed
import CPretty.Proofs.Token.Shift

namespace CPretty

/-- The text does not end in a backslash, which would join the next line to its last one. -/
def EndsLine (cs : List Char) : Prop := ¬ ['\\'] <:+ cs ∧ ¬ ['\\', '\r'] <:+ cs

theorem EndsLine.of_suffix {cs ds : List Char} (h : EndsLine cs) (hs : ds <:+ cs) : EndsLine ds :=
  ⟨fun h' => h.1 (h'.trans hs), fun h' => h.2 (h'.trans hs)⟩

theorem EndsLine.tail {c : Char} {cs : List Char} (h : EndsLine (c :: cs)) : EndsLine cs :=
  h.of_suffix (List.suffix_cons c cs)

theorem severs_line (ds : List Char) : Severs ('\n' :: ds) :=
  ⟨by simp; decide, fun _ _ he hs => by cases he; simp at hs⟩

namespace Scan

variable {c : Char} {cs : List Char}

theorem exists_cons_of_line {x : Char} {ds r : List Char} (hx : x ≠ '\n')
    (h : cs ++ '\n' :: ds = x :: r) : ∃ r', cs = x :: r' := by
  cases cs with
  | nil =>
    cases h
    exact absurd rfl hx
  | cons c cs =>
    cases h
    exact ⟨cs, rfl⟩

/-- A literal that is not closed stops at the line end as it does at the end of the source. -/
theorem quotedTail_line (quote : Char) (h : EndsLine cs) (ds : List Char) :
    quotedTail quote (cs ++ '\n' :: ds) = quotedTail quote cs := by
  fun_induction quotedTail quote cs with
  | case1 => rw [List.nil_append, quotedTail_cons (by decide), if_pos rfl]
  | case2 => exact absurd (List.suffix_refl _) h.1
  | case3 c cs closed tail hq ih =>
    rw [List.cons_append, List.cons_append, quotedTail, ih h.tail.tail, hq]
  | case4 cs hbs hbs' => rw [List.cons_append, quotedTail_cons (by decide), if_pos rfl]
  | case5 cs hbs hbs' hn =>
    rw [List.cons_append, quotedTail_cons (ne_backslash hbs hbs'), if_neg hn, if_pos rfl]
  | case6 c cs hbs hbs' hn hne closed tail hq ih =>
    rw [List.cons_append, quotedTail_cons (ne_backslash hbs hbs'), if_neg hn, if_neg hne, ih h.tail,
      hq]

theorem stringTail_line (h : EndsLine cs) (ds : List Char) :
    stringTail (cs ++ '\n' :: ds) = stringTail cs := by
  rw [stringTail, stringTail, quotedTail_line '"' h]

theorem charTail_line (h : EndsLine cs) (ds : List Char) :
    charTail (cs ++ '\n' :: ds) = charTail cs := by
  by_cases hc : cs.head? = some '\''
  · obtain ⟨r, rfl⟩ := List.head?_eq_some_iff.mp hc
    rfl
  · have hc' : (cs ++ '\n' :: ds).head? ≠ some '\'' := by
      cases cs with
      | nil => simp
      | cons c cs => exact hc
    rw [charTail_cons hc, charTail_cons hc', quotedTail_line '\'' h]

theorem word_line (h : EndsLine cs) (ds : List Char) : word (cs ++ '\n' :: ds) = word cs := by
  have letters := List.takeWhile_prefix (l := cs) isWordChar
  rw [word, word, (severs_line ds).takeWhile fun _ => id, drop_append_of_prefix letters]
  split
  · have rest : EndsLine (cs.drop (cs.takeWhile isWordChar).length) :=
      h.of_suffix (List.drop_suffix _ _)
    generalize cs.drop (cs.takeWhile isWordChar).length = r at rest
    split
    next r' hr =>
      obtain ⟨r, rfl⟩ := exists_cons_of_line (by decide) hr
      rw [List.cons_append, List.cons_inj_right] at hr
      rw [← hr, stringTail_line rest.tail]
      rfl
    next r' hr =>
      obtain ⟨r, rfl⟩ := exists_cons_of_line (by decide) hr
      rw [List.cons_append, List.cons_inj_right] at hr
      rw [← hr, charTail_line rest.tail]
      rfl
    next hn hn' =>
      split
      next r => exact absurd rfl (hn _)
      next r => exact absurd rfl (hn' _)
      next => rfl
  · rfl

theorem ofPunctuator?_line (cs ds : List Char) :
    Kind.ofPunctuator? (String.ofList (cs ++ '\n' :: ds)) = none := by
  have lines : ∀ p ∈ Kind.punctuatorSpellings, '\n' ∉ p.1.toList := by decide
  refine Option.eq_none_iff_forall_ne_some.mpr fun k hk => ?_
  exact lines _ (mem_punctuatorSpellings hk) (by simp)

theorem punctuator?_line (c : Char) (cs ds : List Char) :
    punctuator? (c :: cs ++ '\n' :: ds) = punctuator? (c :: cs) := by
  have none := ofPunctuator?_line
  obtain _ | ⟨a, _ | ⟨b, cs⟩⟩ := cs
  · have h₁ := none [c] (ds.take 1)
    have h₂ := none [c] []
    simp only [List.cons_append, List.nil_append] at h₁ h₂
    simp only [punctuator?, List.findSome?, List.cons_append, List.nil_append, List.take, h₁, h₂,
      Option.map_none]
    cases Kind.ofPunctuator? (String.ofList [c]) <;> rfl
  · have h₁ := none [c, a] []
    simp only [List.cons_append, List.nil_append] at h₁
    simp only [punctuator?, List.findSome?, List.cons_append, List.nil_append, List.take, h₁,
      Option.map_none]
    cases Kind.ofPunctuator? (String.ofList [c, a]) <;> rfl
  · rfl

theorem startsNumber_line (c : Char) (cs ds : List Char) :
    startsNumber (c :: cs ++ '\n' :: ds) = startsNumber (c :: cs) := by
  by_cases hc : c = '.'
  · subst hc
    cases cs <;> rfl
  · rw [List.cons_append, startsNumber.eq_2 _ _ fun _ _ h => absurd h hc,
      startsNumber.eq_2 _ _ fun _ _ h => absurd h hc]

theorem token_line (h : EndsLine (c :: cs)) (ds : List Char) :
    token c (cs ++ '\n' :: ds) = token c cs := by
  have starts := startsNumber_line c cs ds
  have number := (severs_line ds).number (c :: cs)
  have word := word_line h ds
  have punctuator := punctuator?_line c cs ds
  rw [List.cons_append] at starts number word punctuator
  rw [token, token, stringTail_line h.tail, charTail_line h.tail, starts, number, word, punctuator]

/-- What is no comment is a token or faulty. -/
theorem isComment_token (c : Char) (cs : List Char) : (token c cs).1.isComment = false := by
  have string (cs : List Char) : (stringTail cs).1.isComment = false := by
    rw [stringTail]
    generalize (quotedTail '"' cs) = r
    obtain ⟨_ | _, tail⟩ := r <;> rfl
  have char (cs : List Char) : (charTail cs).1.isComment = false := by
    by_cases hc : cs.head? = some '\''
    · obtain ⟨r, rfl⟩ := List.head?_eq_some_iff.mp hc
      rfl
    · rw [charTail_cons hc]
      generalize (quotedTail '\'' cs) = r
      obtain ⟨_ | _, tail⟩ := r <;> rfl
  have hexadecimal (mark cs : List Char) : (hexadecimal mark cs).1.isComment = false := by
    rw [Scan.hexadecimal]
    split <;> rfl
  rw [token]
  split
  · exact string cs
  split
  · exact char cs
  split
  · fun_cases number (c :: cs) with
    | case1 => exact hexadecimal _ _
    | case2 => exact hexadecimal _ _
    | case3 => rfl
  split
  · rw [word]
    split
    · split
      · exact string _
      · exact char _
      · rfl
    · rfl
  · split <;> rfl

theorem blockTail_line (h : (blockTail cs).1 = true) (ds : List Char) :
    blockTail (cs ++ '\n' :: ds) = blockTail cs := by
  fun_induction blockTail cs with
  | case1 => cases h
  | case2 cs => rfl
  | case3 c cs hn closed tail hb ih =>
    rw [hb] at ih
    rw [List.cons_append, blockTail, ih h]
    intro r hc hr
    obtain ⟨r', hr'⟩ := exists_cons_of_line (by decide) hr
    exact hn r' hc hr'

theorem logicalLine_line (h : EndsLine cs) (ds : List Char) :
    logicalLine (cs ++ '\n' :: ds) = logicalLine cs := by
  fun_induction logicalLine cs with
  | case1 => simp [logicalLine]
  | case2 cs ih => rw [List.cons_append, List.cons_append, logicalLine, ih h.tail.tail]
  | case3 cs ih =>
    rw [List.cons_append, List.cons_append, List.cons_append, logicalLine, ih h.tail.tail.tail]
  | case4 => simp [logicalLine]
  | case5 c cs hn hn' hc ih =>
    rw [List.cons_append, logicalLine.eq_4, if_neg hc, ih h.tail]
    · rintro r rfl hr
      obtain _ | ⟨x, cs⟩ := cs
      · exact h.1 (List.suffix_refl _)
      · cases hr
        exact hn _ rfl rfl
    · rintro r rfl hr
      obtain _ | ⟨x, _ | ⟨y, cs⟩⟩ := cs
      · cases hr
      · cases hr
        exact h.2 (List.suffix_refl _)
      · cases hr
        exact hn' _ rfl rfl

/-- A line end stops everything but an open comment, unless a backslash joins the next line. -/
theorem lexeme_line {b : Bool} (hl : (lexeme b c cs).1 ≠ .fault .unterminatedComment)
    (he : EndsLine (c :: cs)) (ds : List Char) :
    lexeme b c (cs ++ '\n' :: ds) = lexeme b c cs := by
  unfold lexeme at hl ⊢
  split
  next hd => rw [directive, directive, ← List.cons_append, logicalLine_line he]
  next hd =>
  rw [if_neg hd] at hl
  split
  next r hr =>
    obtain ⟨r, rfl⟩ := exists_cons_of_line (by decide) hr
    cases hr
    exact congrArg (Prod.mk _) (takeWhile_append_of_halts (by simp [Halts]) ('/' :: '/' :: r))
  next r hr =>
    obtain ⟨r, rfl⟩ := exists_cons_of_line (by decide) hr
    rw [List.cons_append, List.cons_inj_right] at hr
    have closed : (blockTail r).1 = true := by
      cases hb : (blockTail r).1 with
      | true => rfl
      | false => exact absurd (by simp [hb]) hl
    rw [← hr, blockTail_line closed]
    rfl
  next hn hn' =>
    split
    next r => exact absurd rfl (hn _ rfl)
    next r => exact absurd rfl (hn' _ rfl)
    next => exact token_line he ds

end Scan

/-- The lexemes of a source without open comments, and those of another one from the line after
it. -/
theorem lexemesFrom_line {loc : Location} {b : Bool} {n : Nat} {cs : List Char}
    (he : EndsLine cs) (hn : n ≤ cs.length)
    (hl : ∀ l ∈ lexemesFrom loc b n cs, l.lexeme ≠ .fault .unterminatedComment) (ds : List Char) :
    lexemesFrom loc b n (cs ++ '\n' :: ds) =
      lexemesFrom loc b n cs ++ lexemesFrom ((loc.after cs).next '\n') true 0 ds := by
  fun_induction lexemesFrom loc b n cs with
  | case1 loc b n =>
    obtain rfl := Nat.le_zero.mp hn
    rw [List.nil_append, lexemesFrom, if_pos (by decide)]
    simp
  | case2 loc b n c cs ih =>
    rw [List.cons_append, lexemesFrom, ih he.tail (Nat.le_of_succ_le_succ hn) hl,
      Location.after_cons]
  | case3 loc b c cs hb ih =>
    rw [List.cons_append, lexemesFrom, if_pos hb, ih he.tail (Nat.zero_le _) hl,
      Location.after_cons]
  | case4 loc b c cs hb lexeme text hs ih =>
    rw [List.forall_mem_cons] at hl
    have same := Scan.lexeme_line (b := b) (by rw [hs]; exact hl.1) he ds
    obtain ⟨tail, ht, hp⟩ := Scan.exists_lexeme b c cs
    rw [hs] at same ht
    have hn : text.length - 1 ≤ cs.length := by
      simpa [show text = c :: tail from ht] using hp.length_le
    rw [List.cons_append, lexemesFrom, if_neg hb, same]
    exact congrArg (_ :: ·) (ih he.tail hn hl.2)

/-- The lines that a text takes up before another one on the line after it. -/
def lineCount (source : String) : Nat := source.toList.count '\n' + 1

variable {source source' : String} {stream stream' : TokenStream}

theorem tokenize_of_ok (h : tokenize source = .ok stream) :
    (lexemes source).filterMap Located.error? = [] ∧
      (lexemes source).filterMap Located.token? = stream.tokens ∧
      (lexemes source).filterMap Located.comment? = stream.comments ∧
      Location.start.after source.toList = stream.finish := by
  rw [tokenize] at h
  split at h
  · cases h
    exact ⟨‹_›, rfl, rfl, rfl⟩
  · cases h

theorem tokenize_of_error {es : List LexError} (h : tokenize source = .error es) :
    (lexemes source).filterMap Located.error? = es ∧ es ≠ [] := by
  rw [tokenize] at h
  split at h
  · cases h
  next hn =>
    cases h
    exact ⟨rfl, hn⟩

/-- The faults of a source. It has none if it can be read as tokens. -/
def lexErrors (source : String) : List LexError :=
  match tokenize source with
  | .ok _ => []
  | .error es => es

theorem lexErrors_of_ok (h : tokenize source = .ok stream) : lexErrors source = [] := by
  rw [lexErrors, h]

theorem lexErrors_eq (source : String) :
    lexErrors source = (lexemes source).filterMap Located.error? := by
  rw [lexErrors]
  split
  next h => exact (tokenize_of_ok h).1.symm
  next h => exact (tokenize_of_error h).1.symm

theorem tokenize_of_lexErrors {es : List LexError} (h : lexErrors source = es) (hn : es ≠ []) :
    tokenize source = .error es := by
  rw [lexErrors] at h
  split at h
  · exact absurd h.symm hn
  next hs => rw [hs, h]

theorem next_line (source : String) :
    (Location.start.after source.toList).next '\n' = Location.start.shift (lineCount source) := by
  rw [Location.next, if_pos rfl, Location.line_after, Location.shift, lineCount, ← Nat.add_assoc]
  rfl

theorem lexemes_append (he : EndsLine source.toList)
    (hc : ∀ e ∈ lexErrors source, e.fault ≠ .unterminatedComment) (source' : String) :
    lexemes (source ++ "\n" ++ source') =
      lexemes source ++ (lexemes source').map (Located.shift (lineCount source)) := by
  have closed : ∀ l ∈ lexemes source, l.lexeme ≠ .fault .unterminatedComment := by
    intro l hl hf
    apply hc ⟨.unterminatedComment, l.location⟩
    · rw [lexErrors_eq]
      exact List.mem_filterMap.mpr ⟨l, hl, by rw [Located.error?, hf]⟩
    · rfl
  have text : (source ++ "\n" ++ source').toList = source.toList ++ '\n' :: source'.toList := by
    simp
  rw [lexemes, text, lexemesFrom_line he (Nat.zero_le _) closed, next_line, lexemesFrom_shift]
  rfl

theorem lexErrors_append (he : EndsLine source.toList)
    (hc : ∀ e ∈ lexErrors source, e.fault ≠ .unterminatedComment) (source' : String) :
    lexErrors (source ++ "\n" ++ source') =
      lexErrors source ++ (lexErrors source').map (LexError.shift (lineCount source)) := by
  rw [lexErrors_eq, lexErrors_eq, lexErrors_eq, lexemes_append he hc, List.filterMap_append,
    filterMap_map_located Located.error?_shift]

theorem tokenize_append (he : EndsLine source.toList) (hs : tokenize source = .ok stream)
    (hs' : tokenize source' = .ok stream') :
    tokenize (source ++ "\n" ++ source') =
      .ok (stream.append (stream'.shift (lineCount source))) := by
  obtain ⟨herr, htok, hcom, -⟩ := tokenize_of_ok hs
  obtain ⟨herr', htok', hcom', hfin'⟩ := tokenize_of_ok hs'
  have finish : Location.start.after (source ++ "\n" ++ source').toList =
      stream'.finish.shift (lineCount source) := by
    rw [← hfin', ← Location.shift_after, ← next_line]
    simp [Location.after_append]
  rw [tokenize, lexemes_append he (by rw [lexErrors_of_ok hs]; exact nofun)]
  simp only [List.filterMap_append, filterMap_map_located Located.error?_shift,
    filterMap_map_located Located.token?_shift, filterMap_map_located Located.comment?_shift, herr,
    htok, hcom, herr', htok', hcom', finish]
  rfl

theorem tokenize_append_error {es : List LexError} (he : EndsLine source.toList)
    (hs : tokenize source = .ok stream) (hs' : tokenize source' = .error es) :
    tokenize (source ++ "\n" ++ source') = .error (es.map (LexError.shift (lineCount source))) := by
  have none := lexErrors_of_ok hs
  have errors : lexErrors source' = es := by rw [lexErrors, hs']
  apply tokenize_of_lexErrors
  · rw [lexErrors_append he (by rw [none]; exact nofun), none, errors, List.nil_append]
  · exact fun h => (tokenize_of_error hs').2 (List.map_eq_nil_iff.mp h)

end CPretty
