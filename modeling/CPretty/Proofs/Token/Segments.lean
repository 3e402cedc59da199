import CPretty.Proofs.Token.LineEnd
import CPretty.Proofs.Token.Stream

namespace CPretty

namespace Location

variable {a b c : Location} {cs : List Char}

def behind (cs : List Char) : Location :=
  ⟨1 + cs.count '\n', 1 + (cs.reverse.takeWhile (· != '\n')).length⟩

theorem behind_concat (cs : List Char) (c : Char) : behind (cs ++ [c]) = (behind cs).next c := by
  rw [next, behind, List.count_append, List.reverse_append]
  split
  next h => simp [behind, h, Nat.add_assoc]
  next h => simp [behind, h, Nat.add_comm]

theorem start_after (cs : List Char) : start.after cs = behind cs := by
  obtain ⟨ds, rfl⟩ : ∃ ds, cs = ds.reverse := ⟨cs.reverse, cs.reverse_reverse.symm⟩
  induction ds with
  | nil => rfl
  | cons d ds ih => rw [List.reverse_cons, after_append, ih, behind_concat]; rfl

theorem lt_trans (h : a < b) (h' : b < c) : a < c := by
  obtain h | ⟨h₁, h₂⟩ := h
  · obtain h' | ⟨h₁', -⟩ := h'
    · exact .inl (Nat.lt_trans h h')
    · exact .inl (h₁' ▸ h)
  · obtain h' | ⟨h₁', h₂'⟩ := h'
    · exact .inl (h₁ ▸ h')
    · exact .inr ⟨h₁.trans h₁', Nat.lt_trans h₂ h₂'⟩

theorem lt_of_lt_of_le (h : a < b) (h' : b ≤ c) : a < c := by
  obtain rfl | h' := h'
  · exact h
  · exact lt_trans h h'

theorem not_le_of_lt (h : a < b) : ¬ b ≤ a := by
  have irrefl : ¬ a < a := by
    rintro (h | ⟨-, h⟩)
    · exact Nat.lt_irrefl _ h
    · exact Nat.lt_irrefl _ h
  exact fun h' => irrefl (lt_of_lt_of_le h h')

theorem lt_next (loc : Location) (c : Char) : loc < loc.next c := by
  rw [next]
  split
  · exact .inl (Nat.lt_succ_self _)
  · exact .inr ⟨rfl, Nat.lt_succ_self _⟩

theorem le_after (loc : Location) (cs : List Char) : loc ≤ loc.after cs := by
  induction cs generalizing loc with
  | nil => exact .inl rfl
  | cons c cs ih => exact .inr (lt_of_lt_of_le (loc.lt_next c) (ih (loc.next c)))

theorem lt_after (loc : Location) (h : cs ≠ []) : loc < loc.after cs := by
  obtain ⟨c, cs, rfl⟩ := List.exists_cons_of_ne_nil h
  exact lt_of_lt_of_le (loc.lt_next c) ((loc.next c).le_after cs)

end Location

/-- The lexemes stand in the text in their order, each read at its place, and the rest is blank. The
flag tells that only blanks and comments were passed since the last line end. -/
inductive Fills : Location → Bool → List Char → List Located → Prop
  | nil (loc b) : Fills loc b [] []
  | blank (loc) {b c cs ls} : Text.isBlank c = true → Fills (loc.next c) (b || c == '\n') cs ls →
      Fills loc b (c :: cs) ls
  | lexeme (loc) {b c tail cs l ls} : Text.isBlank c = false →
      Scan.lexeme b c (tail ++ cs) = (l, c :: tail) →
      Fills (loc.after (c :: tail)) (b && l.isComment || (c :: tail).contains '\n') cs ls →
      Fills loc b (c :: tail ++ cs) (⟨l, String.ofList (c :: tail), loc⟩ :: ls)

variable {loc : Location} {b : Bool} {cs : List Char} {l : Located} {ls : List Located}

/-- The lexemes of a text fill it, the faulty ones among them. -/
theorem fills_lexemesFrom (loc : Location) (b : Bool) {n : Nat} (hn : n ≤ cs.length) :
    Fills (loc.after (cs.take n)) (b || (cs.take n).contains '\n') (cs.drop n)
      (lexemesFrom loc b n cs) := by
  fun_induction lexemesFrom loc b n cs with
  | case1 => simpa using Fills.nil _ _
  | case2 loc b n c cs ih =>
    have filled := ih (Nat.le_of_succ_le_succ hn)
    rwa [← or_contains_cons] at filled
  | case3 loc b c cs hb ih =>
    have filled := ih (Nat.zero_le _)
    simp only [List.take_zero, List.contains_nil, Bool.or_false] at filled ⊢
    exact .blank loc hb filled
  | case4 loc b c cs hb lexeme text hs ih =>
    obtain ⟨tail, ht, rest, rfl⟩ := Scan.exists_lexeme b c cs
    have hc : Text.isBlank c = false := Bool.eq_false_iff.mpr hb
    have line : ('\n' == c) = false := by
      rw [beq_eq_false_iff_ne]
      rintro rfl
      cases hc
    rw [hs] at ht
    obtain rfl : text = c :: tail := ht
    have filled := ih (by simp)
    rw [List.length_cons, Nat.add_sub_cancel, List.take_left, List.drop_left] at filled
    simp only [List.take_zero, List.contains_nil, Bool.or_false]
    apply Fills.lexeme loc hc hs
    rwa [List.contains_cons, line, Bool.false_or]

theorem fills_lexemes (source : String) : Fills .start true source.toList (lexemes source) :=
  fills_lexemesFrom .start true (Nat.zero_le _)

namespace Fills

theorem le (h : Fills loc b cs ls) : ∀ l ∈ ls, loc ≤ l.location := by
  induction h with
  | nil => exact nofun
  | blank _ _ _ ih =>
    exact fun l hl => .inr (Location.lt_of_lt_of_le (Location.lt_next _ _) (ih l hl))
  | lexeme loc _ _ _ ih =>
    intro l hl
    obtain rfl | hl := List.mem_cons.mp hl
    · exact .inl rfl
    · exact .inr (Location.lt_of_lt_of_le (loc.lt_after (List.cons_ne_nil _ _)) (ih l hl))

theorem pairwise (h : Fills loc b cs ls) : ls.Pairwise (·.location < ·.location) := by
  induction h with
  | nil => exact .nil
  | blank _ _ _ ih => exact ih
  | lexeme loc _ _ h ih =>
    exact .cons (fun l hl => Location.lt_of_lt_of_le (loc.lt_after (List.cons_ne_nil _ _))
      (h.le l hl)) ih

end Fills

/-- A lexeme and the characters between it and the one before. -/
structure Segment where
  gap : List Char
  lexeme : Located

def Segment.joined (ss : List Segment) : List Char :=
  ss.flatMap fun s => s.gap ++ s.lexeme.text.toList

def Segment.lineStart (b : Bool) (s : Segment) : Bool :=
  (b || s.gap.contains '\n') && s.lexeme.lexeme.isComment || s.lexeme.text.toList.contains '\n'

def Segment.lineStartAfter (b : Bool) (ss : List Segment) (gap : List Char) : Bool :=
  ss.foldl lineStart b || gap.contains '\n'

/-- What fills a text gives it back when it is joined with blanks. Each lexeme stands after what is
joined before it, and is what is read there from a character that is not blank. -/
theorem Fills.segments (h : Fills loc b cs ls) :
    ∃ ss rest, ss.map Segment.lexeme = ls ∧ cs = Segment.joined ss ++ rest ∧
      (∀ s ∈ ss, s.gap.all Text.isBlank = true) ∧ rest.all Text.isBlank = true ∧
      ∀ before s after, ss = before ++ s :: after →
        s.lexeme.location = loc.after (Segment.joined before ++ s.gap) ∧
        ∃ c tail, s.lexeme.text.toList = c :: tail ∧ Text.isBlank c = false ∧
          Scan.lexeme (Segment.lineStartAfter b before s.gap) c
            (tail ++ (Segment.joined after ++ rest)) = (s.lexeme.lexeme, c :: tail) := by
  induction h with
  | nil => exact ⟨[], [], rfl, rfl, nofun, rfl, fun before _ _ h => by cases before <;> cases h⟩
  | @blank loc b c cs ls hb _ ih =>
    obtain ⟨ss, rest, hls, rfl, hg, hr, hat⟩ := ih
    cases ss with
    | nil =>
      refine ⟨[], c :: rest, hls, rfl, nofun, ?_, fun before _ _ h => by cases before <;> cases h⟩
      rw [List.all_cons, hb, hr, Bool.and_self]
    | cons s ss =>
      refine ⟨⟨c :: s.gap, s.lexeme⟩ :: ss, rest, hls, rfl, ?_, hr, ?_⟩
      · rw [List.forall_mem_cons] at hg ⊢
        exact ⟨by rw [List.all_cons, hb, hg.1, Bool.and_self], hg.2⟩
      · rintro (_ | ⟨s', before⟩) t after h
        · cases h
          obtain ⟨hloc, hread⟩ := hat [] s ss rfl
          rw [Segment.lineStartAfter, List.foldl_nil, ← or_contains_cons] at hread
          exact ⟨hloc, hread⟩
        · cases h
          obtain ⟨hloc, hread⟩ := hat (s :: before) t after rfl
          rw [Segment.lineStartAfter, List.foldl_cons, Segment.lineStart,
            ← or_contains_cons] at hread
          exact ⟨hloc, hread⟩
  | @lexeme loc b c tail cs l ls hc hs _ ih =>
    obtain ⟨ss, rest, hls, rfl, hg, hr, hat⟩ := ih
    have text : (String.ofList (c :: tail)).toList = c :: tail := String.toList_ofList
    refine ⟨⟨[], ⟨l, String.ofList (c :: tail), loc⟩⟩ :: ss, rest, congrArg (_ :: ·) hls,
      ?_, ?_, hr, ?_⟩
    · simp [Segment.joined]
    · rw [List.forall_mem_cons]
      exact ⟨rfl, hg⟩
    · rintro (_ | ⟨s', before⟩) t after h
      · cases h
        refine ⟨rfl, c, tail, text, hc, ?_⟩
        rwa [Segment.lineStartAfter, List.foldl_nil, List.contains_nil, Bool.or_false]
      · cases h
        obtain ⟨hloc, hread⟩ := hat before t after rfl
        constructor
        · rw [hloc, Segment.joined, Segment.joined, List.flatMap_cons, List.append_assoc,
            ← Location.after_append]
          simp
        · rwa [Segment.lineStartAfter, List.foldl_cons, Segment.lineStart, List.contains_nil,
            Bool.or_false, text]

def Token.located (t : Token) : Located := ⟨.token t.kind, t.text, t.location⟩

def Comment.located (c : Comment) : Located := ⟨.comment c.kind, c.text, c.location⟩

/-- The tokens and the comments, in the order of their places. -/
def TokenStream.located (s : TokenStream) : List Located :=
  (s.tokens.map Token.located).merge (s.comments.map Comment.located)
    fun a b => decide (a.location ≤ b.location)

theorem Located.cases (h : l.error? = none) :
    (∃ t : Token, l = t.located) ∨ ∃ c : Comment, l = c.located := by
  obtain ⟨lexeme, text, loc⟩ := l
  cases lexeme with
  | token k => exact .inl ⟨⟨k, text, loc⟩, rfl⟩
  | comment k => exact .inr ⟨⟨k, text, loc⟩, rfl⟩
  | fault r => cases h

@[simp] theorem Token.token?_located (t : Token) : t.located.token? = some t := rfl

@[simp] theorem Token.comment?_located (t : Token) : t.located.comment? = none := rfl

@[simp] theorem Comment.token?_located (c : Comment) : c.located.token? = none := rfl

@[simp] theorem Comment.comment?_located (c : Comment) : c.located.comment? = some c := rfl

/-- Lexemes in order are put together again from their tokens and their comments. -/
theorem merge_located (h : ls.Pairwise (·.location < ·.location))
    (hl : ∀ l ∈ ls, l.error? = none) :
    ((ls.filterMap Located.token?).map Token.located).merge
      ((ls.filterMap Located.comment?).map Comment.located)
      (fun a b => decide (a.location ≤ b.location)) = ls := by
  induction h with
  | nil => exact List.nil_merge []
  | @cons l ls hlt _ ih =>
    rw [List.forall_mem_cons] at hl
    have rest := ih hl.2
    obtain ⟨t, rfl⟩ | ⟨c, rfl⟩ := Located.cases hl.1
    · rw [List.filterMap_cons_some t.token?_located, List.filterMap_cons_none t.comment?_located,
        List.map_cons]
      generalize hc : (ls.filterMap Located.comment?).map Comment.located = cs at rest ⊢
      cases cs with
      | nil => rw [List.merge_right] at rest ⊢; rw [rest]
      | cons c cs =>
        have hm : c ∈ ls := rest ▸ List.mem_merge.mpr (.inr List.mem_cons_self)
        rw [List.cons_merge_cons_pos _ _ _ (decide_eq_true (.inr (hlt c hm))), rest]
    · rw [List.filterMap_cons_none c.token?_located, List.filterMap_cons_some c.comment?_located,
        List.map_cons]
      generalize ht : (ls.filterMap Located.token?).map Token.located = ts at rest ⊢
      cases ts with
      | nil => rw [List.nil_merge] at rest ⊢; rw [rest]
      | cons t ts =>
        have hm : t ∈ ls := rest ▸ List.mem_merge.mpr (.inl List.mem_cons_self)
        have hn := Location.not_le_of_lt (hlt t hm)
        rw [List.cons_merge_cons_neg _ _ _ (by simpa using hn), rest]

variable {source : String} {stream : TokenStream}

theorem located_of_tokenize (h : tokenize source = .ok stream) :
    Fills .start true source.toList stream.located := by
  obtain ⟨he, ht, hc, -⟩ := tokenize_of_ok h
  have faultless := List.filterMap_eq_nil_iff.mp he
  have fills := fills_lexemes source
  rwa [TokenStream.located, ← ht, ← hc, merge_located fills.pairwise faultless]

theorem Lexical.ne_eof {k : Kind} {text : List Char} (h : Lexical k text) : k ≠ .eof := by
  rintro rfl
  generalize hk : Kind.eof = k at h
  cases h with
  | @word c cs =>
    have words : ∀ p ∈ Kind.keywordSpellings, p.2 ≠ .eof := by decide
    obtain h | h := Kind.ofWord_cases (String.ofList (c :: cs))
    · rw [h] at hk
      cases hk
    · exact words _ h hk.symm
  | punctuator hp =>
    have punctuators : ∀ p ∈ Kind.punctuatorSpellings, p.2 ≠ .eof := by decide
    exact punctuators _ (mem_punctuatorSpellings hp) hk.symm
  | _ => cases hk

/-- Lexing loses nothing but blanks: the tokens and the comments of a source, in the strictly
increasing order of their places, make it up with blanks around them. Each place is the one behind
all that stands before, and behind the last token comes the one end marker. -/
theorem tokenize_lossless (h : tokenize source = .ok stream) :
    (∃ segments rest,
      segments.map Segment.lexeme = stream.located ∧
      source.toList = Segment.joined segments ++ rest ∧
      (∀ s ∈ segments, s.gap.all Text.isBlank = true) ∧ rest.all Text.isBlank = true ∧
      ∀ before s after, segments = before ++ s :: after →
        s.lexeme.location = .behind (Segment.joined before ++ s.gap)) ∧
    stream.located.Pairwise (·.location < ·.location) ∧
    (∀ t ∈ stream.tokens, t.kind ≠ .eof) ∧
    stream.terminated = stream.tokens ++ [⟨.eof, "", .behind source.toList⟩] := by
  have fills := located_of_tokenize h
  refine ⟨?_, fills.pairwise, fun t ht => (lexed_of_tokenize h t ht).ne_eof, ?_⟩
  · obtain ⟨ss, rest, hls, hs, hg, hr, hat⟩ := fills.segments
    refine ⟨ss, rest, hls, hs, hg, hr, fun before s after h => ?_⟩
    rw [(hat before s after h).1, Location.start_after]
  · obtain ⟨-, -, -, hf⟩ := tokenize_of_ok h
    rw [TokenStream.terminated, ← hf, Location.start_after]
    rfl

/-- A directive leaves the carriage return of its line end to the blanks after it, and a comment
over two lines moves what follows to the second one. -/
theorem tokenize_lossless_lines :
    ∃ stream, tokenize "#a\r\n/*\n*/ b\n" = .ok stream ∧
      stream.comments = [⟨.directive, "#a", ⟨1, 1⟩⟩, ⟨.block, "/*\n*/", ⟨2, 1⟩⟩] ∧
      stream.located.Pairwise (·.location < ·.location) ∧
      stream.terminated = [⟨.ident, "b", ⟨3, 4⟩⟩, ⟨.eof, "", ⟨4, 1⟩⟩] := by
  obtain ⟨stream, h, hs⟩ := exists_ok_of_any (x := tokenize "#a\r\n/*\n*/ b\n")
    (p := (· == ⟨[⟨.ident, "b", ⟨3, 4⟩⟩],
      [⟨.directive, "#a", ⟨1, 1⟩⟩, ⟨.block, "/*\n*/", ⟨2, 1⟩⟩], ⟨4, 1⟩⟩)) (by decide +kernel)
  obtain rfl := eq_of_beq hs
  obtain ⟨-, hp, -, ht⟩ := tokenize_lossless h
  exact ⟨_, h, rfl, hp, ht⟩

end CPretty
