import CPretty.Proofs.Token.Directive

namespace CPretty

open Scan

/-- The text with a carriage return before every line feed. -/
def crlf (cs : List Char) : List Char :=
  cs.flatMap fun c => if c = '\n' then ['\r', '\n'] else [c]

def dropReturns (cs : List Char) : List Char := cs.filter (· != '\r')

variable {c : Char} {cs ds tail text rest : List Char} {k : Kind} {quote : Char} {p : Char → Bool}

@[simp] theorem crlf_nil : crlf [] = [] := rfl

@[simp] theorem crlf_newline (cs : List Char) : crlf ('\n' :: cs) = '\r' :: '\n' :: crlf cs := rfl

theorem crlf_cons (h : c ≠ '\n') (cs : List Char) : crlf (c :: cs) = c :: crlf cs := by
  rw [crlf, List.flatMap_cons, if_neg h]
  rfl

theorem crlf_append (cs ds : List Char) : crlf (cs ++ ds) = crlf cs ++ crlf ds :=
  List.flatMap_append

theorem crlf_of_not_mem (h : '\n' ∉ cs) : crlf cs = cs := by
  induction cs with
  | nil => rfl
  | cons c cs ih =>
    rw [List.mem_cons, not_or] at h
    rw [crlf_cons (Ne.symm h.1), ih h.2]

theorem dropReturns_crlf (h : '\r' ∉ cs) : dropReturns (crlf cs) = cs := by
  induction cs with
  | nil => rfl
  | cons c cs ih =>
    rw [List.mem_cons, not_or] at h
    by_cases hc : c = '\n'
    · subst hc
      simpa [dropReturns] using ih h.2
    · have hr : c ≠ '\r' := Ne.symm h.1
      simpa [crlf_cons hc, dropReturns, hr] using ih h.2

theorem dropReturns_of_not_mem (h : '\r' ∉ cs) : dropReturns cs = cs :=
  List.filter_eq_self.mpr fun _ hc => bne_iff_ne.mpr (ne_of_mem_of_not_mem hc h)

theorem dropReturns_concat (h : '\r' ∉ cs) : dropReturns (cs ++ ['\r']) = cs := by
  rw [dropReturns, List.filter_append]
  exact (List.append_nil _).trans (dropReturns_of_not_mem h)

theorem mem_newline_crlf : '\n' ∈ crlf cs ↔ '\n' ∈ cs := by
  simp only [crlf, List.mem_flatMap]
  constructor
  · rintro ⟨c, hc, h⟩
    split at h
    next he => exact he ▸ hc
    next => exact List.mem_singleton.mp h ▸ hc
  · exact fun h => ⟨'\n', h, by simp⟩

/-- Only line feeds count as line ends, so a carriage return before each leaves the place after a
text where it is. -/
theorem Location.after_crlf (loc : Location) (cs : List Char) :
    loc.after (crlf cs) = loc.after cs := by
  induction cs generalizing loc with
  | nil => rfl
  | cons c cs ih =>
    by_cases hc : c = '\n'
    · subst hc
      exact ih _
    · rw [crlf_cons hc]
      exact ih _

theorem drop_crlf (h : ds <+: cs) (hn : '\n' ∉ ds) :
    (crlf cs).drop ds.length = crlf (cs.drop ds.length) := by
  obtain ⟨r, rfl⟩ := h
  rw [crlf_append, crlf_of_not_mem hn, List.drop_left, List.drop_left]

theorem takeWhile_crlf (hn : p '\n' = false) (hr : p '\r' = false) (cs : List Char) :
    (crlf cs).takeWhile p = cs.takeWhile p := by
  induction cs with
  | nil => rfl
  | cons c cs ih =>
    by_cases hc : c = '\n'
    · subst hc
      simp [hn, hr]
    · rw [crlf_cons hc, List.takeWhile_cons, List.takeWhile_cons, ih]

theorem not_mem_takeWhile (hn : p '\n' = false) (cs : List Char) : '\n' ∉ cs.takeWhile p := by
  intro h
  rw [List.mem_takeWhile_imp h] at hn
  cases hn

/-- Only a line end makes the text with carriage returns start with another character. -/
theorem exists_cons_of_crlf {x : Char} {r : List Char} (hx : x ≠ '\r') (h : crlf cs = x :: r) :
    ∃ r', cs = x :: r' := by
  cases cs with
  | nil => cases h
  | cons c cs =>
    by_cases hc : c = '\n'
    · subst hc
      cases h
      exact absurd rfl hx
    · rw [crlf_cons hc] at h
      cases h
      exact ⟨cs, rfl⟩

theorem getLast?_crlf (h : '\r' ∉ cs) : (crlf cs).getLast? ≠ some '\r' := by
  obtain rfl | ⟨cs, c, rfl⟩ := cs.eq_nil_or_concat'
  · exact nofun
  · by_cases hc : c = '\n'
    · subst hc
      simp [crlf_append]
    · rw [List.mem_append, List.mem_singleton, not_or] at h
      simpa [crlf_append, crlf_cons hc] using Ne.symm h.2

theorem crlf_cases (cs : List Char) : '\n' ∉ cs ∨
    ∃ line r, '\n' ∉ line ∧ cs = line ++ '\n' :: r ∧ crlf cs = line ++ '\r' :: '\n' :: crlf r := by
  refine (Classical.em ('\n' ∈ cs)).symm.imp_right fun h => ?_
  obtain ⟨line, r, rfl, hl⟩ := List.eq_append_cons_of_mem h
  refine ⟨line, r, hl, rfl, ?_⟩
  rw [crlf_append, crlf_of_not_mem hl, crlf_newline]

/-- Up to the first line end the text is the same but for the carriage return. -/
theorem line_crlf (cs : List Char) :
    (crlf cs).takeWhile (· != '\n') = cs.takeWhile (· != '\n') ∨
      ∃ r, cs = cs.takeWhile (· != '\n') ++ '\n' :: r ∧
        (crlf cs).takeWhile (· != '\n') = cs.takeWhile (· != '\n') ++ ['\r'] := by
  obtain hn | ⟨line, r, hn, rfl, hr⟩ := crlf_cases cs
  · exact .inl (by rw [crlf_of_not_mem hn])
  · have stop (cs : List Char) : Halts (· != '\n') ('\n' :: cs) := by simp [Halts]
    have only : ∀ d ∈ line, (d != '\n') = true := by
      intro d hd
      rw [bne_iff_ne]
      rintro rfl
      exact hn hd
    have more : ∀ d ∈ line ++ ['\r'], (d != '\n') = true :=
      List.forall_mem_append.mpr ⟨only, by simp⟩
    refine .inr ⟨r, by rw [takeWhile_eq_left only (stop r)], ?_⟩
    rw [hr, List.append_cons, takeWhile_eq_left more (stop _), takeWhile_eq_left only (stop r)]

theorem take_crlf {n : Nat} (h : '\n' ∉ cs.take n) : (crlf cs).take n = cs.take n := by
  induction cs generalizing n with
  | nil => rfl
  | cons c cs ih =>
    cases n with
    | zero => rfl
    | succ n =>
      rw [List.take_succ_cons, List.mem_cons, not_or] at h
      rw [crlf_cons (Ne.symm h.1), List.take_succ_cons, List.take_succ_cons, ih h.2]

theorem mem_take_crlf {n : Nat} (h : '\n' ∈ cs.take n) : '\r' ∈ (crlf cs).take n := by
  induction cs generalizing n with
  | nil => simp at h
  | cons c cs ih =>
    cases n with
    | zero => cases h
    | succ n =>
      by_cases hc : c = '\n'
      · subst hc
        exact List.mem_cons_self
      · rw [crlf_cons hc]
        exact List.mem_cons_of_mem c (ih ((List.mem_cons.mp h).resolve_left (Ne.symm hc)))

theorem severs_return (ds : List Char) : Severs ('\r' :: ds) :=
  ⟨by simp; decide, fun _ _ he hs => by cases he; simp at hs⟩

namespace Scan

theorem number_crlf (cs : List Char) : number (crlf cs) = number cs ∧ '\n' ∉ (number cs).2 := by
  obtain hn | ⟨line, r, hl, rfl, hr⟩ := crlf_cases cs
  · exact ⟨by rw [crlf_of_not_mem hn], fun h => hn ((isPrefix_number cs).mem h)⟩
  · have short := (severs_line r).number line
    rw [hr, (severs_return _).number line, short]
    exact ⟨rfl, fun h => hl ((isPrefix_number line).mem h)⟩

theorem startsNumber_crlf (cs : List Char) : startsNumber (crlf cs) = startsNumber cs := by
  obtain hn | ⟨line, r, hl, rfl, hr⟩ := crlf_cases cs
  · rw [crlf_of_not_mem hn]
  · rw [hr]
    obtain _ | ⟨c, line⟩ := line
    · rfl
    by_cases hc : c = '.'
    · subst hc
      cases line <;> rfl
    · rw [List.cons_append, List.cons_append, startsNumber.eq_2 _ _ fun _ _ h => absurd h hc,
        startsNumber.eq_2 _ _ fun _ _ h => absurd h hc]

theorem ofPunctuator?_eq_none (h : '\n' ∈ cs ∨ '\r' ∈ cs) :
    Kind.ofPunctuator? (String.ofList cs) = none := by
  have spellings : ∀ p ∈ Kind.punctuatorSpellings, '\n' ∉ p.1.toList ∧ '\r' ∉ p.1.toList := by
    decide
  refine Option.eq_none_iff_forall_ne_some.mpr fun k hk => ?_
  have plain := spellings _ (mem_punctuatorSpellings hk)
  rw [String.toList_ofList] at plain
  exact h.elim plain.1 plain.2

theorem punctuator?_crlf (cs : List Char) : punctuator? (crlf cs) = punctuator? cs := by
  rw [punctuator?, punctuator?]
  congr 1
  funext n
  by_cases hn : '\n' ∈ cs.take n
  · rw [ofPunctuator?_eq_none (.inl hn), ofPunctuator?_eq_none (.inr (mem_take_crlf hn))]
    rfl
  · rw [take_crlf hn]

/-- A literal without line ends is read as before. -/
theorem quotedTail_crlf (h : quotedTail quote cs = (true, tail)) (hn : '\n' ∉ tail) :
    quotedTail quote (crlf cs) = (true, tail) := by
  fun_induction quotedTail quote cs generalizing tail with
  | case3 c cs closed tail' hq ih =>
    cases h
    simp only [List.mem_cons, not_or] at hn
    rw [crlf_cons (by decide), crlf_cons (Ne.symm hn.2.1), quotedTail, ih hq hn.2.2]
  | case5 cs hbs hbs' hnl =>
    cases h
    rw [crlf_cons hnl, quotedTail_cons (ne_backslash hbs hbs'), if_neg hnl, if_pos rfl]
  | case6 c cs hbs hbs' hnl hne closed tail' hq ih =>
    cases h
    rw [List.mem_cons, not_or] at hn
    rw [crlf_cons hnl, quotedTail_cons (ne_backslash hbs hbs'), if_neg hnl, if_neg hne, ih hq hn.2]
  | _ => cases h

/-- A literal that goes on over a line end is not closed. -/
theorem quotedTail_crlf_open (h : quotedTail quote cs = (true, tail)) (hn : '\n' ∈ tail) :
    (quotedTail quote (crlf cs)).1 = false := by
  fun_induction quotedTail quote cs generalizing tail with
  | case3 c cs closed tail' hq ih =>
    cases h
    by_cases hc : c = '\n'
    · subst hc
      rw [crlf_cons (by decide), crlf_newline, quotedTail, quotedTail_cons (by decide), if_pos rfl]
    · simp only [List.mem_cons] at hn
      have hn := (hn.resolve_left (by decide)).resolve_left (Ne.symm hc)
      rw [crlf_cons (by decide), crlf_cons hc, quotedTail]
      exact ih hq hn
  | case5 cs hbs hbs' hnl =>
    cases h
    exact absurd (List.mem_singleton.mp hn).symm hnl
  | case6 c cs hbs hbs' hnl hne closed tail' hq ih =>
    cases h
    rw [crlf_cons hnl, quotedTail_cons (ne_backslash hbs hbs'), if_neg hnl, if_neg hne]
    exact ih hq ((List.mem_cons.mp hn).resolve_left (Ne.symm hnl))
  | _ => cases h

/-- The token is read as before if its text has no line end, and as a fault otherwise. -/
def BreaksAtLine (k : Kind) (text : List Char) (new : Lexeme × List Char) : Prop :=
  '\n' ∉ text ∧ new = (.token k, text) ∨ '\n' ∈ text ∧ ∃ reason, new.1 = .fault reason

theorem BreaksAtLine.append {new : Lexeme × List Char} (h : BreaksAtLine k tail new)
    (before : List Char) (hb : '\n' ∉ before) :
    BreaksAtLine k (before ++ tail) (new.map id (before ++ ·)) := by
  refine h.imp ?_ ?_
  · rintro ⟨hn, rfl⟩
    exact ⟨fun hm => (List.mem_append.mp hm).elim hb hn, rfl⟩
  · rintro ⟨hn, hf⟩
    exact ⟨List.mem_append_right before hn, hf⟩

theorem quoted_crlf (h : quotedTail quote cs = (true, tail)) (reason : LexFault) :
    BreaksAtLine k tail (if (quotedTail quote (crlf cs)).1 then .token k else .fault reason,
      (quotedTail quote (crlf cs)).2) := by
  by_cases hn : '\n' ∈ tail
  · exact .inr ⟨hn, reason, by rw [quotedTail_crlf_open h hn]; rfl⟩
  · exact .inl ⟨hn, by rw [quotedTail_crlf h hn]; rfl⟩

theorem stringTail_crlf (h : stringTail cs = (.token k, tail)) :
    BreaksAtLine k tail (stringTail (crlf cs)) := by
  rw [stringTail] at h
  generalize hq : quotedTail '"' cs = r at h
  obtain ⟨_ | _, tail'⟩ := r <;> cases h
  exact quoted_crlf hq .unterminatedString

theorem charTail_crlf (h : charTail cs = (.token k, tail)) :
    BreaksAtLine k tail (charTail (crlf cs)) := by
  have hc : cs.head? ≠ some '\'' := by
    intro hc
    obtain ⟨cs, rfl⟩ := List.head?_eq_some_iff.mp hc
    cases h
  have hc' : (crlf cs).head? ≠ some '\'' := by
    intro hc'
    obtain ⟨r, hr⟩ := List.head?_eq_some_iff.mp hc'
    obtain ⟨r', rfl⟩ := exists_cons_of_crlf (by decide) hr
    exact hc rfl
  rw [charTail_cons hc] at h
  rw [charTail_cons hc']
  generalize hq : quotedTail '\'' cs = r at h
  obtain ⟨_ | _, tail'⟩ := r <;> cases h
  exact quoted_crlf hq .unterminatedChar

theorem word_crlf (h : word cs = (.token k, text)) : BreaksAtLine k text (word (crlf cs)) := by
  have letters := List.takeWhile_prefix (l := cs) isWordChar
  have plain : '\n' ∉ cs.takeWhile isWordChar := not_mem_takeWhile (by decide) cs
  have marked {q : Char} (hq : q ≠ '\n') : '\n' ∉ cs.takeWhile isWordChar ++ [q] := by
    simpa using ⟨plain, Ne.symm hq⟩
  rw [word] at h
  rw [word, takeWhile_crlf (by decide) (by decide), drop_crlf letters plain]
  split at h
  next hm =>
    rw [if_pos hm]
    split at h
    next r hr =>
      rw [hr, crlf_cons (by decide)]
      cases hs : stringTail r with
      | mk l tail =>
        rw [hs] at h
        cases h
        simpa using (stringTail_crlf hs).append _ (marked (q := '"') (by decide))
    next r hr =>
      rw [hr, crlf_cons (by decide)]
      cases hs : charTail r with
      | mk l tail =>
        rw [hs] at h
        cases h
        simpa using (charTail_crlf hs).append _ (marked (q := '\'') (by decide))
    next hn hn' =>
      cases h
      refine .inl ⟨plain, ?_⟩
      split
      next r hr =>
        obtain ⟨r', hr'⟩ := exists_cons_of_crlf (by decide) hr
        exact absurd hr' (hn r')
      next r hr =>
        obtain ⟨r', hr'⟩ := exists_cons_of_crlf (by decide) hr
        exact absurd hr' (hn' r')
      next => rfl
  next hm =>
    cases h
    rw [if_neg hm]
    exact .inl ⟨plain, rfl⟩

/-- Line ends matter to the literals among the tokens alone. -/
theorem token_crlf (hc : c ≠ '\n') (h : token c cs = (.token k, text)) :
    BreaksAtLine k text (token c (crlf cs)) := by
  have starts := startsNumber_crlf (c :: cs)
  have number := number_crlf (c :: cs)
  have punctuator := punctuator?_crlf (c :: cs)
  have word := @word_crlf (c :: cs) text k
  rw [crlf_cons hc] at starts number punctuator word
  rw [token] at h
  rw [token, starts, punctuator, number.1]
  split at h
  next hq =>
    rw [if_pos hq]
    cases hs : stringTail cs with
    | mk l tail =>
      rw [hs] at h
      cases h
      exact (stringTail_crlf hs).append ['"'] (by decide)
  next hq =>
  rw [if_neg hq]
  split at h
  next hq =>
    rw [if_pos hq]
    cases hs : charTail cs with
    | mk l tail =>
      rw [hs] at h
      cases h
      exact (charTail_crlf hs).append ['\''] (by decide)
  next hq =>
  rw [if_neg hq]
  split at h
  next hn =>
    rw [if_pos hn, h]
    rw [h] at number
    exact .inl ⟨number.2, rfl⟩
  next hn =>
  rw [if_neg hn]
  split at h
  next hw =>
    rw [if_pos hw]
    exact word h
  next hw =>
    rw [if_neg hw]
    split at h
    next hp =>
      cases h
      obtain ⟨n, -, hn⟩ := List.exists_of_findSome?_eq_some hp
      obtain ⟨k', hk, hk'⟩ := Option.map_eq_some_iff.mp hn
      cases hk'
      refine .inl ⟨fun hm => ?_, rfl⟩
      rw [ofPunctuator?_eq_none (.inl hm)] at hk
      cases hk
    next => cases h

theorem blockTail_crlf (cs : List Char) :
    blockTail (crlf cs) = ((blockTail cs).1, crlf (blockTail cs).2) := by
  fun_induction blockTail cs with
  | case1 => rfl
  | case2 cs => rfl
  | case3 c cs hn closed tail hb ih =>
    rw [hb] at ih
    by_cases hc : c = '\n'
    · subst hc
      rw [crlf_newline, blockTail.eq_3 _ _ fun _ h => absurd h (by decide),
        blockTail.eq_3 _ _ fun _ h => absurd h (by decide), ih]
      rfl
    · rw [crlf_cons hc, crlf_cons hc, blockTail.eq_3, ih]
      intro r hs hr
      obtain ⟨r', hr'⟩ := exists_cons_of_crlf (by decide) hr
      exact hn r' hs hr'

/-- A line with the lines joined to it keeps its carriage returns and gains the one of its end. -/
theorem logicalLine_crlf (h : '\r' ∉ cs) : ∃ rest, cs = logicalLine cs ++ rest ∧
    (rest = [] ∧ logicalLine (crlf cs) = crlf (logicalLine cs) ∨
      ∃ r, rest = '\n' :: r ∧ logicalLine (crlf cs) = crlf (logicalLine cs) ++ ['\r']) := by
  fun_induction logicalLine cs with
  | case1 => exact ⟨[], rfl, .inl ⟨rfl, rfl⟩⟩
  | case2 cs ih =>
    obtain ⟨rest, hcs, hrest⟩ := ih (by simp_all)
    refine ⟨rest, congrArg ('\\' :: '\n' :: ·) hcs, ?_⟩
    rw [crlf_cons (by decide), crlf_newline, logicalLine, crlf_cons (by decide), crlf_newline]
    simpa using hrest
  | case3 cs ih => simp at h
  | case4 cs hn hn' =>
    refine ⟨'\n' :: cs, rfl, .inr ⟨cs, rfl, ?_⟩⟩
    have plain {x : Char} (hx : x ≠ '\\') (ds : List Char) :
        logicalLine (x :: ds) = if x = '\n' then [] else x :: logicalLine ds :=
      logicalLine.eq_4 x ds (fun _ h => absurd h hx) fun _ h => absurd h hx
    rw [crlf_newline, plain (by decide), plain (by decide), if_neg (by decide), if_pos rfl]
    rfl
  | case5 c cs hn hn' hc ih =>
    rw [List.mem_cons, not_or] at h
    obtain ⟨rest, hcs, hrest⟩ := ih h.2
    refine ⟨rest, congrArg (c :: ·) hcs, ?_⟩
    rw [crlf_cons hc, crlf_cons hc, logicalLine.eq_4, if_neg hc]
    · simpa using hrest
    · intro r hs hr
      obtain ⟨r', hr'⟩ := exists_cons_of_crlf (by decide) hr
      exact hn r' hs hr'
    · intro r hs hr
      cases cs with
      | nil => cases hr
      | cons d ds =>
        by_cases hd : d = '\n'
        · subst hd
          exact hn ds hs rfl
        · rw [crlf_cons hd] at hr
          obtain ⟨rfl, -⟩ := List.cons.inj hr
          exact h.2 List.mem_cons_self

theorem directive_crlf (h : '\r' ∉ cs) : directive (crlf cs) = crlf (directive cs) := by
  obtain ⟨rest, hcs, hrest⟩ := logicalLine_crlf h
  have plain : '\r' ∉ logicalLine cs := fun hm => h ((isPrefix_logicalLine cs).mem hm)
  have unended : (logicalLine cs).getLast? ≠ some '\r' := fun hl => plain (List.mem_of_getLast? hl)
  rw [directive, directive, if_neg unended]
  obtain ⟨-, hl⟩ | ⟨r, -, hl⟩ := hrest
  · rw [hl, if_neg (getLast?_crlf plain)]
  · rw [hl]
    simp

/-- How a lexeme that is not faulty is read where each line feed has a carriage return before it. A
comment up to the line end takes the carriage return with it. -/
inductive Rereads (l : Lexeme) (c : Char) (tail cs : List Char) : Lexeme × List Char → Prop
  | kept : (l.isComment = false → '\n' ∉ tail) → Rereads l c tail cs (l, c :: crlf tail)
  | longer (r) : l.isComment = true → '\n' ∉ tail → cs = tail ++ '\n' :: r →
      Rereads l c tail cs (l, c :: (tail ++ ['\r']))
  | broken {reason} (text) : l.isComment = false → '\n' ∈ tail →
      Rereads l c tail cs (.fault reason, text)

theorem Rereads.of_isComment {l : Lexeme} (hl : l.isComment = true) :
    Rereads l c tail cs (l, c :: crlf tail) :=
  .kept fun h => absurd (hl.symm.trans h) (by decide)

/-- Comments and directives keep the text they had, with its carriage returns, and tokens keep
theirs where no line ends in it. -/
theorem lexeme_crlf {b : Bool} {l : Lexeme} (h : lexeme b c cs = (l, c :: tail)) (hc : c ≠ '\n')
    (hr : '\r' ∉ c :: cs) (hl : ∀ reason, l ≠ .fault reason) :
    Rereads l c tail cs (lexeme b c (crlf cs)) := by
  unfold lexeme at h
  split at h
  next hd =>
    obtain ⟨rfl, ht⟩ := Prod.mk.inj h
    have same := directive_crlf hr
    rw [ht, crlf_cons hc, crlf_cons hc] at same
    unfold lexeme
    rw [if_pos hd, same]
    exact .of_isComment rfl
  next hd =>
  split at h
  next r =>
    obtain ⟨rfl, ht⟩ := Prod.mk.inj h
    have plain : '\n' ∉ '/' :: tail := ht ▸ not_mem_takeWhile (by decide) _
    rw [List.mem_cons, not_or] at plain
    have again : lexeme b '/' (crlf ('/' :: r)) = (.comment .line,
        (crlf ('/' :: '/' :: r)).takeWhile (· != '\n')) := rfl
    rw [again]
    obtain hline | ⟨r', hcs, hline⟩ := line_crlf ('/' :: '/' :: r)
    · have kept : Rereads (.comment .line) '/' tail ('/' :: r) _ := .of_isComment rfl
      rwa [crlf_of_not_mem plain.2, ← ht, ← hline] at kept
    · rw [ht, List.cons_append] at hcs
      rw [hline, ht]
      exact .longer r' rfl plain.2 (List.cons.inj hcs).2
  next r =>
    cases hb : blockTail r with
    | mk closed tail' =>
      rw [hb] at h
      cases closed with
      | false =>
        cases h
        exact absurd rfl (hl _)
      | true =>
        cases h
        have again : lexeme b '/' (crlf ('*' :: r)) =
            (.comment .block, '/' :: '*' :: crlf tail') := by
          rw [crlf_cons (by decide), lexeme, blockTail_crlf, hb]
          simp
        rw [again]
        exact .of_isComment rfl
  next hn hn' =>
    have again : lexeme b c (crlf cs) = token c (crlf cs) := by
      rw [lexeme, if_neg hd]
      · intro r hs hr'
        obtain ⟨r', rfl⟩ := exists_cons_of_crlf (by decide) hr'
        exact hn r' hs rfl
      · intro r hs hr'
        obtain ⟨r', rfl⟩ := exists_cons_of_crlf (by decide) hr'
        exact hn' r' hs rfl
    have solid := isComment_token c cs
    rw [h] at solid
    rw [again]
    cases l with
    | comment => cases solid
    | fault reason => exact absurd rfl (hl reason)
    | token k =>
      have breaks := token_crlf hc h
      generalize token c (crlf cs) = new at breaks
      rw [BreaksAtLine, List.mem_cons, or_iff_right (Ne.symm hc)] at breaks
      obtain ⟨hn, rfl⟩ | ⟨hn, reason, hf⟩ := breaks
      · have kept := @Rereads.kept (.token k) c tail cs fun _ => hn
        rwa [crlf_of_not_mem hn] at kept
      · obtain ⟨l, text⟩ := new
        obtain rfl : l = .fault reason := hf
        exact .broken text rfl hn

end Scan

theorem lexemesFrom_newline (loc : Location) (b : Bool) (cs : List Char) :
    lexemesFrom loc b 0 ('\n' :: cs) = lexemesFrom ⟨loc.line + 1, 1⟩ true 0 cs := by
  rw [lexemesFrom, if_pos (by decide), beq_self_eq_true, Bool.or_true]
  rfl

theorem lexemesFrom_return (loc : Location) (b : Bool) (cs : List Char) :
    lexemesFrom loc b 0 ('\r' :: '\n' :: cs) = lexemesFrom ⟨loc.line + 1, 1⟩ true 0 cs := by
  rw [lexemesFrom, if_pos (by decide), lexemesFrom_newline]
  rfl

namespace Located

def IsContinued (l : Located) : Prop := l.lexeme.isComment = false ∧ '\n' ∈ l.text.toList

def dropReturns (l : Located) : Located :=
  ⟨l.lexeme, String.ofList (CPretty.dropReturns l.text.toList), l.location⟩

end Located

/-- Without their carriage returns the second lexemes are the first ones, or there is a fault among
them in the place of a token that goes on over a line end. -/
def SameOrBroken (ls ls' : List Located) : Prop :=
  (∀ l ∈ ls, ¬ l.IsContinued) ∧ ls'.map Located.dropReturns = ls ∨
    (∃ l ∈ ls, l.IsContinued) ∧ ∃ l' ∈ ls', l'.error? ≠ none

theorem SameOrBroken.cons {ls ls' : List Located} {l l' : Located} (h : SameOrBroken ls ls')
    (hl : ¬ l.IsContinued) (hl' : l'.dropReturns = l) : SameOrBroken (l :: ls) (l' :: ls') := by
  refine h.imp ?_ ?_
  · rintro ⟨hls, hd⟩
    exact ⟨List.forall_mem_cons.mpr ⟨hl, hls⟩, by rw [List.map_cons, hl', hd]⟩
  · rintro ⟨⟨m, hm, hc⟩, m', hm', hf⟩
    exact ⟨⟨m, List.mem_cons_of_mem l hm, hc⟩, m', List.mem_cons_of_mem l' hm', hf⟩

theorem Fills.sameOrBroken {loc : Location} {b : Bool} {ls : List Located} (h : Fills loc b cs ls)
    (hr : '\r' ∉ cs) (hok : ∀ l ∈ ls, l.error? = none) :
    SameOrBroken ls (lexemesFrom loc b 0 (crlf cs)) := by
  induction h with
  | nil => exact .inl ⟨List.forall_mem_nil _, rfl⟩
  | @blank loc b c cs ls hb _ ih =>
    have rest := ih (fun hm => hr (List.mem_cons_of_mem c hm)) hok
    by_cases hc : c = '\n'
    · subst hc
      rw [beq_self_eq_true, Bool.or_true] at rest
      rw [crlf_newline, lexemesFrom_return]
      exact rest
    · rw [crlf_cons hc, lexemesFrom, if_pos hb]
      exact rest
  | @lexeme loc b c tail cs l ls hb hread _ ih =>
    have hc : c ≠ '\n' := by
      rintro rfl
      cases hb
    have hr' := hr
    rw [List.cons_append, List.mem_cons, List.mem_append, not_or, not_or] at hr
    rw [List.forall_mem_cons] at hok
    have plain : '\r' ∉ c :: tail := fun hm => (List.mem_cons.mp hm).elim hr.1 hr.2.1
    have rest := ih hr.2.2 hok.2
    have hl : ∀ reason, l ≠ .fault reason := by
      rintro reason rfl
      cases hok.1
    have reread := lexeme_crlf hread hc hr' hl
    rw [List.cons_append, crlf_cons hc]
    generalize hnew : Scan.lexeme b c (crlf (tail ++ cs)) = new at reread
    cases reread with
    | kept hn =>
      rw [crlf_append] at hnew ⊢
      rw [lexemesFrom_lexeme hb hnew, ← crlf_cons hc, Location.after_crlf]
      rw [List.contains_cons, beq_eq_false_iff_ne.mpr (Ne.symm hc), Bool.false_or] at rest
      have line : (crlf tail).contains '\n' = tail.contains '\n' := by
        simp [mem_newline_crlf]
      rw [line]
      refine rest.cons ?_ ?_
      · rintro ⟨hl, hm⟩
        rw [String.toList_ofList] at hm
        exact hn hl ((List.mem_cons.mp hm).resolve_left (Ne.symm hc))
      · rw [Located.dropReturns, String.toList_ofList, dropReturns_crlf]
        exact plain
    | longer r hl hn hcs =>
      obtain rfl := List.append_cancel_left hcs
      have text : crlf (tail ++ '\n' :: r) = tail ++ ['\r'] ++ '\n' :: crlf r := by
        rw [crlf_append, crlf_of_not_mem hn, crlf_newline, List.append_cons]
      have line : (loc.after (c :: (tail ++ ['\r']))).line = (loc.after (c :: tail)).line := by
        simp [Location.line_after]
      rw [crlf_newline, lexemesFrom_return] at rest
      rw [text] at hnew ⊢
      rw [lexemesFrom_lexeme hb hnew, lexemesFrom_newline, line]
      refine rest.cons (fun hm => ?_) ?_
      · rw [Located.IsContinued, hl] at hm
        cases hm.1
      · rw [Located.dropReturns, String.toList_ofList, ← List.cons_append, dropReturns_concat plain]
    | broken text hl hn =>
      refine .inr ⟨⟨_, List.mem_cons_self, hl, ?_⟩, ?_⟩
      · rw [String.toList_ofList]
        exact List.mem_cons_of_mem c hn
      · rw [lexemesFrom, if_neg (by simp [hb]), hnew]
        exact ⟨_, List.mem_cons_self, Option.some_ne_none _⟩

def Token.dropReturns (t : Token) : Token :=
  ⟨t.kind, String.ofList (CPretty.dropReturns t.text.toList), t.location⟩

def Comment.dropReturns (c : Comment) : Comment :=
  ⟨c.kind, String.ofList (CPretty.dropReturns c.text.toList), c.location⟩

def TokenStream.dropReturns (s : TokenStream) : TokenStream :=
  ⟨s.tokens.map Token.dropReturns, s.comments.map Comment.dropReturns, s.finish⟩

namespace Located

theorem token?_dropReturns (l : Located) :
    l.dropReturns.token? = l.token?.map Token.dropReturns := by
  obtain ⟨lexeme, text, loc⟩ := l
  cases lexeme <;> rfl

theorem comment?_dropReturns (l : Located) :
    l.dropReturns.comment? = l.comment?.map Comment.dropReturns := by
  obtain ⟨lexeme, text, loc⟩ := l
  cases lexeme <;> rfl

theorem error?_dropReturns (l : Located) : l.dropReturns.error? = l.error?.map id := by
  obtain ⟨lexeme, text, loc⟩ := l
  cases lexeme <;> rfl

end Located

variable {source : String} {stream : TokenStream}

/-- Among the lexemes of a source without faults the tokens are those of its stream. -/
theorem isContinued_iff (h : tokenize source = .ok stream) :
    (∃ l ∈ lexemes source, l.IsContinued) ↔ ∃ t ∈ stream.tokens, '\n' ∈ t.text.toList := by
  obtain ⟨errors, tokens, -⟩ := tokenize_of_ok h
  rw [List.filterMap_eq_nil_iff] at errors
  constructor
  · rintro ⟨l, hl, hc, hn⟩
    obtain ⟨lexeme, text, loc⟩ := l
    cases lexeme with
    | token k =>
      refine ⟨⟨k, text, loc⟩, ?_, hn⟩
      rw [← tokens]
      exact List.mem_filterMap.mpr ⟨_, hl, rfl⟩
    | comment => cases hc
    | fault => cases errors _ hl
  · rintro ⟨t, ht, hn⟩
    rw [← tokens, List.mem_filterMap] at ht
    obtain ⟨⟨lexeme, text, loc⟩, hl, hlt⟩ := ht
    cases lexeme with
    | token k =>
      cases hlt
      exact ⟨_, hl, rfl, hn⟩
    | comment => cases hlt
    | fault => cases hlt

/-- With a carriage return before each line feed a source can still be read just if none of its
tokens goes on over a line end. Then it has the same tokens and comments at the same places, and
their texts are the same but for the carriage returns. -/
theorem tokenize_crlf_iff (hr : '\r' ∉ source.toList) (h : tokenize source = .ok stream) :
    ((∃ stream', tokenize (String.ofList (crlf source.toList)) = .ok stream') ↔
      ∀ t ∈ stream.tokens, '\n' ∉ t.text.toList) ∧
    ∀ stream', tokenize (String.ofList (crlf source.toList)) = .ok stream' →
      stream'.dropReturns = stream := by
  have hl : lexemes (String.ofList (crlf source.toList)) =
      lexemesFrom .start true 0 (crlf source.toList) := by
    rw [lexemes, String.toList_ofList]
  obtain ⟨errors, tokens, comments, finish⟩ := tokenize_of_ok h
  have continued := isContinued_iff h
  obtain ⟨hn, same⟩ | ⟨hc, l, hm, hf⟩ := (fills_lexemes source).sameOrBroken hr
    (List.filterMap_eq_nil_iff.mp errors)
  · rw [← hl] at same
    refine ⟨iff_of_true ?_ ?_, fun stream' h' => ?_⟩
    · apply exists_of_lexErrors
      have mapped := filterMap_map_located Located.error?_dropReturns
        (lexemes (String.ofList (crlf source.toList)))
      rwa [same, errors, eq_comm, List.map_id, ← lexErrors_eq] at mapped
    · intro t ht hmem
      obtain ⟨l, hl, hc⟩ := continued.mpr ⟨t, ht, hmem⟩
      exact hn l hl hc
    · obtain ⟨-, tokens', comments', finish'⟩ := tokenize_of_ok h'
      rw [String.toList_ofList, Location.after_crlf, finish] at finish'
      rw [TokenStream.dropReturns, ← tokens', ← comments', ← finish',
        ← filterMap_map_located Located.token?_dropReturns,
        ← filterMap_map_located Located.comment?_dropReturns, same, tokens, comments]
  · rw [← hl] at hm
    have faulty : ∀ stream', tokenize (String.ofList (crlf source.toList)) ≠ .ok stream' := by
      intro stream' h'
      exact hf (List.filterMap_eq_nil_iff.mp (tokenize_of_ok h').1 l hm)
    obtain ⟨t, ht, hmem⟩ := continued.mp hc
    refine ⟨iff_of_false ?_ fun hn => hn t ht hmem, fun _ h' => absurd h' (faulty _)⟩
    rintro ⟨stream', h'⟩
    exact faulty stream' h'

/-- The carriage returns are part of the directive and of both comments, but a string literal does
not go on behind one. -/
theorem tokenize_crlf_iff_lines :
    (∃ stream, tokenize "#a \\\nb\nx // c\n/* d\n*/ y\n" = .ok stream ∧
      ∃ stream',
        tokenize (String.ofList (crlf "#a \\\nb\nx // c\n/* d\n*/ y\n".toList)) = .ok stream' ∧
        stream'.comments = [⟨.directive, "#a \\\r\nb", ⟨1, 1⟩⟩, ⟨.line, "// c\r", ⟨3, 3⟩⟩,
          ⟨.block, "/* d\r\n*/", ⟨4, 1⟩⟩] ∧ stream'.dropReturns = stream) ∧
    ∃ stream, tokenize "\"a\\\nb\"" = .ok stream ∧
      ∀ stream', tokenize (String.ofList (crlf "\"a\\\nb\"".toList)) ≠ .ok stream' := by
  constructor
  · obtain ⟨stream, h, -⟩ := exists_ok_of_any (x := tokenize "#a \\\nb\nx // c\n/* d\n*/ y\n")
      (p := fun _ => true) (by decide +kernel)
    obtain ⟨stream', h', hc⟩ := exists_ok_of_any
      (x := tokenize (String.ofList (crlf "#a \\\nb\nx // c\n/* d\n*/ y\n".toList)))
      (p := (·.comments == [⟨.directive, "#a \\\r\nb", ⟨1, 1⟩⟩, ⟨.line, "// c\r", ⟨3, 3⟩⟩,
          ⟨.block, "/* d\r\n*/", ⟨4, 1⟩⟩])) (by decide +kernel)
    exact ⟨stream, h, stream', h', eq_of_beq hc, (tokenize_crlf_iff (by decide) h).2 stream' h'⟩
  · obtain ⟨stream, h, ht⟩ := exists_ok_of_any (x := tokenize "\"a\\\nb\"")
      (p := (·.tokens == [⟨.stringLiteral, "\"a\\\nb\"", ⟨1, 1⟩⟩])) (by decide +kernel)
    refine ⟨stream, h, fun stream' h' => ?_⟩
    have unbroken := (tokenize_crlf_iff (by decide) h).1.mp ⟨stream', h'⟩
    rw [eq_of_beq ht] at unbroken
    exact unbroken _ List.mem_cons_self (by decide)

end CPretty
