import CPretty.Proofs.Token.Faults
import Mathlib.Data.List.DropRight

namespace CPretty

open Scan

namespace Scan

theorem token_hash (cs : List Char) : token '#' cs = (.fault (.unexpectedChar '#'), ['#']) := by
  have none (k : Kind) (text : List Char) : token '#' cs ≠ (.token k, text) := by
    intro h
    obtain ⟨tail, ht, -⟩ := exists_token '#' cs
    rw [h] at ht
    obtain rfl : text = '#' :: tail := ht
    exact (token_ok h).head_ne.1 rfl
  have number : startsNumber ('#' :: cs) = false := rfl
  rw [token, if_neg (by decide), if_neg (by decide), number, if_neg (by decide),
    if_neg (by decide)] at none ⊢
  split
  next hp =>
    rw [hp] at none
    exact absurd rfl (none _ _)
  next => rfl

theorem lexeme_hash (b : Bool) (cs : List Char) : lexeme b '#' cs =
    if b then (.comment .directive, directive ('#' :: cs))
    else (.fault (.unexpectedChar '#'), ['#']) := by
  cases b with
  | true => rfl
  | false => exact token_hash cs

theorem of_lexeme_hash {b : Bool} {cs tail : List Char} {l : Lexeme}
    (h : lexeme b '#' cs = (l, '#' :: tail)) :
    (l = .comment .directive ↔ b = true) ∧
      (l ≠ .comment .directive → l = .fault (.unexpectedChar '#') ∧ tail = []) := by
  rw [lexeme_hash] at h
  cases b with
  | true =>
    obtain ⟨rfl, -⟩ := Prod.mk.inj h
    exact ⟨iff_of_true rfl rfl, absurd rfl⟩
  | false =>
    cases h
    exact ⟨by decide, fun _ => ⟨rfl, rfl⟩⟩

end Scan

/-- Comments and literals hold any characters, also where they are not closed. -/
def Lexeme.isVerbatim : Lexeme → Bool
  | .comment _ | .token .stringLiteral | .token .constant => true
  | .fault .unterminatedComment | .fault .unterminatedString | .fault .unterminatedChar => true
  | _ => false

/-- The characters that stand in no word, number or punctuator but have a meaning for the line. -/
def IsLineMark (x : Char) : Prop := x = '#' ∨ x = '\n'

theorem Lexical.verbatim {k : Kind} {text : List Char} {x : Char} (h : Lexical k text)
    (hx : IsLineMark x) (hc : x ∈ text) : (Lexeme.token k).isVerbatim = true := by
  cases h with
  | string => rfl
  | char => rfl
  | decimal => rfl
  | hexadecimal => rfl
  | @word c cs hw hd =>
    have letter : isWordChar x = true := by
      obtain rfl | hc := List.mem_cons.mp hc
      · rw [isWordChar, hw, Bool.true_or]
      · exact hd x hc
    obtain rfl | rfl := hx <;> cases letter
  | punctuator hk =>
    have others : ∀ p ∈ Kind.punctuatorSpellings, '#' ∉ p.1.toList ∧ '\n' ∉ p.1.toList := by decide
    obtain ⟨hash, line⟩ := others _ (mem_punctuatorSpellings hk)
    rw [String.toList_ofList] at hash line
    obtain rfl | rfl := hx
    · exact absurd hc hash
    · exact absurd hc line

namespace Scan

variable {c x : Char} {cs text : List Char} {r : LexFault}

theorem charTail_fault (hx : IsLineMark x) (h : charTail cs = (.fault r, text)) :
    (Lexeme.fault r).isVerbatim = true ∨ x ∉ text := by
  by_cases hc : cs.head? = some '\''
  · obtain ⟨cs, rfl⟩ := List.head?_eq_some_iff.mp hc
    cases h
    obtain rfl | rfl := hx <;> exact .inr (by decide)
  · rw [charTail_cons hc] at h
    generalize quotedTail '\'' cs = q at h
    obtain ⟨_ | _, tail⟩ := q <;> cases h
    exact .inl rfl

theorem stringTail_fault (h : stringTail cs = (.fault r, text)) : r = .unterminatedString := by
  rw [stringTail] at h
  generalize quotedTail '"' cs = q at h
  obtain ⟨_ | _, tail⟩ := q <;> cases h
  rfl

theorem hexadecimal_fault (hx : IsLineMark x) {mark : Char} (hm : mark = 'x' ∨ mark = 'X')
    (h : hexadecimal ['0', mark] cs = (.fault r, text)) : x ∉ text := by
  rw [hexadecimal] at h
  split at h <;> cases h
  obtain rfl | rfl := hx <;> obtain rfl | rfl := hm <;> decide

theorem word_fault (hx : IsLineMark x) (h : word cs = (.fault r, text)) :
    (Lexeme.fault r).isVerbatim = true ∨ x ∉ text := by
  rw [word] at h
  split at h
  · split at h
    next rest _ =>
      cases hs : stringTail rest with
      | mk l tail =>
        rw [hs] at h
        cases h
        obtain rfl := stringTail_fault hs
        exact .inl rfl
    next rest _ =>
      cases hs : charTail rest with
      | mk l tail =>
        rw [hs] at h
        cases h
        refine (charTail_fault hx hs).imp_right fun ht hc => ?_
        obtain hc | hc := List.mem_append.mp hc
        · have letter := List.mem_takeWhile_imp hc
          obtain rfl | rfl := hx <;> cases letter
        · obtain rfl | hc := List.mem_cons.mp hc
          · obtain hx | hx := hx <;> cases hx
          · exact ht hc
    next => cases h
  · cases h

/-- What is faulty is an open literal, or it takes no line mark behind the first character. -/
theorem token_fault (hx : IsLineMark x) (h : token c cs = (.fault r, text)) :
    (Lexeme.fault r).isVerbatim = true ∨ x ∉ text.tail := by
  rw [token] at h
  split at h
  · cases hs : stringTail cs with
    | mk l tail =>
      rw [hs] at h
      cases h
      obtain rfl := stringTail_fault hs
      exact .inl rfl
  split at h
  · cases hs : charTail cs with
    | mk l tail =>
      rw [hs] at h
      cases h
      exact charTail_fault hx hs
  split at h
  · rw [number.eq_def] at h
    split at h
    · exact .inr fun hc => hexadecimal_fault hx (.inl rfl) h (List.mem_of_mem_tail hc)
    · exact .inr fun hc => hexadecimal_fault hx (.inr rfl) h (List.mem_of_mem_tail hc)
    · cases h
  split at h
  · exact (word_fault hx h).imp_right fun hn hc => hn (List.mem_of_mem_tail hc)
  split at h
  · cases h
  · cases h
    exact .inr List.not_mem_nil

/-- Behind the first character of what is read, a line mark stands in comments and literals only. -/
theorem lexeme_verbatim {b : Bool} {l : Lexeme} {tail : List Char} (hx : IsLineMark x)
    (h : lexeme b c cs = (l, c :: tail)) (hc : x ∈ tail) : l.isVerbatim = true := by
  unfold lexeme at h
  split at h
  · obtain ⟨rfl, -⟩ := Prod.mk.inj h
    rfl
  split at h
  · obtain ⟨rfl, -⟩ := Prod.mk.inj h
    rfl
  next r _ =>
    obtain ⟨rfl, -⟩ := Prod.mk.inj h
    cases (blockTail r).1 <;> rfl
  · cases l with
    | comment => rfl
    | token k => exact (token_ok h).verbatim hx (List.mem_cons_of_mem c hc)
    | fault r => exact (token_fault hx h).resolve_right fun hn => hn hc

end Scan

/-- On the last line of some characters stands nothing but blanks and parts of comments. With each
character comes the lexeme that it belongs to. -/
def OpensLine (cs : List (Char × Option Lexeme)) : Prop :=
  ∀ p ∈ cs.rtakeWhile (·.1 != '\n'), p.2.all Lexeme.isComment = true

section

variable (ms : List (Char × Option Lexeme)) {cs : List Char} (owner : Option Lexeme)

theorem opensLine_concat (c : Char) : OpensLine (ms ++ [(c, owner)]) ↔
    c = '\n' ∨ owner.all Lexeme.isComment = true ∧ OpensLine ms := by
  rw [OpensLine, List.rtakeWhile_concat]
  by_cases hc : c = '\n'
  · simp [hc]
  · simp [hc, OpensLine, or_imp, forall_and, and_comm]

theorem opensLine_append (h : owner.all Lexeme.isComment = true) :
    OpensLine (ms ++ cs.map (·, owner)) ↔ '\n' ∈ cs ∨ OpensLine ms := by
  induction cs using List.reverseRecOn with
  | nil => simp
  | append_singleton cs c ih =>
    rw [List.map_append, List.map_singleton, ← List.append_assoc, opensLine_concat, ih]
    simp [h, or_comm, or_left_comm, eq_comm]

theorem not_opensLine_append (h : owner.all Lexeme.isComment = false) (hn : cs ≠ [])
    (hc : '\n' ∉ cs) : ¬ OpensLine (ms ++ cs.map (·, owner)) := by
  obtain ⟨cs, c, rfl⟩ := cs.eq_nil_or_concat'.resolve_left hn
  rw [List.map_append, List.map_singleton, ← List.append_assoc, opensLine_concat]
  rintro (rfl | ⟨ho, -⟩)
  · exact hc List.mem_concat_self
  · rw [h] at ho
    cases ho

end

namespace Segment

def marked (before : List Segment) (gap : List Char) : List (Char × Option Lexeme) :=
  (before.flatMap fun s => s.gap.map (·, none) ++
    s.lexeme.text.toList.map (·, some s.lexeme.lexeme)) ++ gap.map (·, none)

/-- The line end before the place stands inside a literal, and nothing but blanks and comments is
behind the literal. -/
def FollowsContinued (before : List Segment) (gap : List Char) : Prop :=
  ∃ first literal comments, before = first ++ literal :: comments ∧
    literal.lexeme.lexeme.isComment = false ∧ literal.lexeme.lexeme.isVerbatim = true ∧
    '\n' ∈ literal.lexeme.text.toList ∧
    (∀ s ∈ comments, s.lexeme.lexeme.isComment = true) ∧ '\n' ∉ joined comments ++ gap

variable {before : List Segment} {s : Segment} {gap : List Char}

theorem marked_concat (before : List Segment) (s : Segment) (gap : List Char) :
    marked (before ++ [s]) gap = marked before s.gap ++
      s.lexeme.text.toList.map (·, some s.lexeme.lexeme) ++ gap.map (·, none) := by
  simp [marked]

theorem joined_concat (before : List Segment) (s : Segment) :
    joined (before ++ [s]) = joined before ++ s.gap ++ s.lexeme.text.toList := by
  simp [joined]

theorem lineStartAfter_concat (b : Bool) (before : List Segment) (s : Segment) (gap : List Char) :
    lineStartAfter b (before ++ [s]) gap =
      ((lineStartAfter b before s.gap && s.lexeme.lexeme.isComment ||
        s.lexeme.text.toList.contains '\n') || gap.contains '\n') := by
  rw [lineStartAfter, List.foldl_append]
  rfl

theorem followsContinued_concat (ht : '\n' ∉ s.lexeme.text.toList) :
    FollowsContinued (before ++ [s]) gap ↔
      '\n' ∉ gap ∧ s.lexeme.lexeme.isComment = true ∧ FollowsContinued before s.gap := by
  constructor
  · rintro ⟨first, literal, comments, hb, hl, hv, hm, hc, hn⟩
    obtain rfl | ⟨comments, t, rfl⟩ := comments.eq_nil_or_concat'
    · obtain ⟨-, rfl⟩ := List.append_singleton_inj.mp hb
      exact absurd hm ht
    · rw [← List.cons_append, ← List.append_assoc] at hb
      obtain ⟨rfl, rfl⟩ := List.append_singleton_inj.mp hb
      rw [List.forall_mem_append, List.forall_mem_singleton] at hc
      rw [joined_concat, List.mem_append, List.mem_append, not_or, not_or] at hn
      exact ⟨hn.2, hc.2, first, literal, comments, rfl, hl, hv, hm, hc.1, hn.1.1⟩
  · rintro ⟨hg, hs, first, literal, comments, rfl, hl, hv, hm, hc, hn⟩
    refine ⟨first, literal, comments ++ [s], by simp, hl, hv, hm, ?_, ?_⟩
    · rw [List.forall_mem_append, List.forall_mem_singleton]
      exact ⟨hc, hs⟩
    · rw [joined_concat, List.mem_append, List.mem_append, not_or, not_or]
      exact ⟨⟨hn, ht⟩, hg⟩

/-- The flag tells whether the line is open, and it is set behind a literal that is continued over a
line end as well. -/
theorem lineStartAfter_iff (texts : ∀ s ∈ before, s.lexeme.text.toList ≠ [])
    (literals : ∀ s ∈ before, '\n' ∈ s.lexeme.text.toList → s.lexeme.lexeme.isVerbatim = true) :
    lineStartAfter true before gap = true ↔
      OpensLine (marked before gap) ∨ FollowsContinued before gap := by
  induction before using List.reverseRecOn generalizing gap with
  | nil =>
    have opens : OpensLine (marked [] gap) := by
      rw [marked, opensLine_append _ none rfl]
      exact .inr nofun
    exact iff_of_true rfl (.inl opens)
  | append_singleton before s ih =>
    rw [List.forall_mem_append, List.forall_mem_singleton] at texts literals
    rw [lineStartAfter_concat, marked_concat, opensLine_append _ none rfl]
    by_cases hg : '\n' ∈ gap
    · exact iff_of_true (by simp [hg]) (.inl (.inl hg))
    by_cases ht : '\n' ∈ s.lexeme.text.toList
    · refine iff_of_true (by simp [ht]) ?_
      cases hc : s.lexeme.lexeme.isComment with
      | true => exact .inl (.inr ((opensLine_append _ (some _) hc).mpr (.inl ht)))
      | false =>
        exact .inr ⟨before, s, [], rfl, hc, literals.2 ht, ht, nofun, hg⟩
    · rw [followsContinued_concat ht]
      cases hc : s.lexeme.lexeme.isComment with
      | true =>
        rw [opensLine_append _ (some _) hc]
        simp [hg, ht, ih texts.1 literals.1]
      | false =>
        have closed := not_opensLine_append (marked before s.gap) (some _) hc texts.2 ht
        simp [hg, ht, closed]

end Segment

/-- A source is its lexemes with blanks between them. Behind the first character a `#` is part of a
comment or a literal. Any other `#` starts a directive just if nothing but blanks and parts of
comments stands before it on its line, or if the line end before it stands inside a literal that
only blanks and comments follow. The directive is among the comments of the source, and if the `#`
starts none it is a fault at its place. -/
theorem directive_iff (source : String) :
    ∃ segments rest,
      segments.map Segment.lexeme = lexemes source ∧
      source.toList = Segment.joined segments ++ rest ∧
      (∀ s ∈ segments, s.gap.all Text.isBlank = true) ∧ rest.all Text.isBlank = true ∧
      ∀ before s after, segments = before ++ s :: after →
        s.lexeme.location = .behind (Segment.joined before ++ s.gap) ∧
        ('#' ∈ s.lexeme.text.toList.tail → s.lexeme.lexeme.isVerbatim = true) ∧
        (s.lexeme.text.toList.head? = some '#' →
          (s.lexeme.lexeme = .comment .directive ↔
            OpensLine (Segment.marked before s.gap) ∨ Segment.FollowsContinued before s.gap) ∧
          (s.lexeme.lexeme = .comment .directive → ∀ stream, tokenize source = .ok stream →
            ⟨.directive, s.lexeme.text, s.lexeme.location⟩ ∈ stream.comments) ∧
          (s.lexeme.lexeme ≠ .comment .directive → s.lexeme.text = "#" ∧
            ⟨.unexpectedChar '#', s.lexeme.location⟩ ∈ lexErrors source)) := by
  obtain ⟨segments, rest, hls, hs, hg, hr, hat⟩ := (fills_lexemes source).segments
  refine ⟨segments, rest, hls, hs, hg, hr, fun before s after h => ?_⟩
  -- Each lexeme before is read at its own place as well.
  have texts : ∀ t ∈ before, t.lexeme.text.toList ≠ [] ∧
      ('\n' ∈ t.lexeme.text.toList → t.lexeme.lexeme.isVerbatim = true) := by
    intro t ht
    obtain ⟨first, more, rfl⟩ := List.append_of_mem ht
    obtain ⟨-, c, tail, htext, hc, hread⟩ := hat first t (more ++ s :: after) (by simp [h])
    rw [htext]
    refine ⟨List.cons_ne_nil c tail, fun hm => lexeme_verbatim (.inr rfl) hread ?_⟩
    refine (List.mem_cons.mp hm).resolve_left ?_
    rintro rfl
    cases hc
  obtain ⟨hloc, c, tail, htext, -, hread⟩ := hat before s after h
  rw [Location.start_after] at hloc
  rw [htext]
  refine ⟨hloc, lexeme_verbatim (.inl rfl) hread, fun hc => ?_⟩
  obtain rfl : c = '#' := by simpa using hc
  obtain ⟨starts, faulty⟩ := of_lexeme_hash hread
  have mem : s.lexeme ∈ lexemes source := by
    rw [← hls, h]
    simp
  have comment (hl : s.lexeme.lexeme = .comment .directive) (stream : TokenStream)
      (ht : tokenize source = .ok stream) :
      ⟨.directive, s.lexeme.text, s.lexeme.location⟩ ∈ stream.comments := by
    obtain ⟨-, -, comments, -⟩ := tokenize_of_ok ht
    rw [← comments]
    exact List.mem_filterMap.mpr ⟨s.lexeme, mem, by rw [Located.comment?, hl]⟩
  rw [Segment.lineStartAfter_iff (fun t ht => (texts t ht).1) fun t ht => (texts t ht).2] at starts
  refine ⟨starts, comment, fun hn => ?_⟩
  obtain ⟨hl, rfl⟩ := faulty hn
  constructor
  · exact String.toList_inj.mp htext
  · rw [lexErrors_eq]
    exact List.mem_filterMap.mpr ⟨s.lexeme, mem, by rw [Located.error?, hl]⟩

/-- The string literal ends on the second line, and the `#` behind it starts a directive there. -/
example : (tokenize "\"a\\\nb\" #x").toOption.map TokenStream.comments =
    some [⟨.directive, "#x", ⟨2, 4⟩⟩] := by
  decide +kernel

end CPretty
