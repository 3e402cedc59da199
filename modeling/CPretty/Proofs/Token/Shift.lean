import CPretty.Token.Lexer

namespace CPretty

def Location.shift (k : Nat) (loc : Location) : Location := ⟨loc.line + k, loc.column⟩

def Span.shift (k : Nat) (s : Span) : Span := ⟨s.first.shift k, s.last.shift k⟩

def Token.shift (k : Nat) (t : Token) : Token := ⟨t.kind, t.text, t.location.shift k⟩

def Comment.shift (k : Nat) (c : Comment) : Comment := ⟨c.kind, c.text, c.location.shift k⟩

def LexError.shift (k : Nat) (e : LexError) : LexError := ⟨e.fault, e.location.shift k⟩

def Located.shift (k : Nat) (l : Located) : Located := ⟨l.lexeme, l.text, l.location.shift k⟩

def TokenStream.shift (k : Nat) (s : TokenStream) : TokenStream :=
  ⟨s.tokens.map (Token.shift k), s.comments.map (Comment.shift k), s.finish.shift k⟩

/-- The tokens and comments of a source and of another one behind it. -/
def TokenStream.append (s s' : TokenStream) : TokenStream :=
  ⟨s.tokens ++ s'.tokens, s.comments ++ s'.comments, s'.finish⟩

variable {k : Nat} {loc : Location}

theorem Location.shift_next (c : Char) : (loc.shift k).next c = (loc.next c).shift k := by
  rw [next, next, apply_ite (shift k)]
  simp only [shift, Nat.add_right_comm]

theorem Location.shift_after (cs : List Char) :
    (loc.shift k).after cs = (loc.after cs).shift k := by
  induction cs generalizing loc with
  | nil => rfl
  | cons c cs ih => rw [after_cons, after_cons, shift_next, ih]

theorem Location.line_after (cs : List Char) : (loc.after cs).line = loc.line + cs.count '\n' := by
  induction cs generalizing loc with
  | nil => rfl
  | cons c cs ih =>
    rw [after_cons, ih, next, List.count_cons]
    split
    next h => simp [h]; omega
    next h => simp [h]

theorem Token.span_shift (t : Token) : (t.shift k).span = t.span.shift k := by
  rw [span, lastLocation, shift, Location.shift_after]
  rfl

theorem Located.token?_shift (l : Located) : (l.shift k).token? = l.token?.map (Token.shift k) := by
  obtain ⟨lexeme, text, loc⟩ := l
  cases lexeme <;> rfl

theorem Located.comment?_shift (l : Located) :
    (l.shift k).comment? = l.comment?.map (Comment.shift k) := by
  obtain ⟨lexeme, text, loc⟩ := l
  cases lexeme <;> rfl

theorem Located.error?_shift (l : Located) :
    (l.shift k).error? = l.error?.map (LexError.shift k) := by
  obtain ⟨lexeme, text, loc⟩ := l
  cases lexeme <;> rfl

theorem filterMap_map_located {β : Type} {f : Located → Option β} {u : Located → Located}
    {g : β → β} (h : ∀ l, f (u l) = (f l).map g) (ls : List Located) :
    (ls.map u).filterMap f = (ls.filterMap f).map g := by
  rw [List.filterMap_map, List.map_filterMap]
  exact congrArg (ls.filterMap ·) (funext h)

theorem lexemesFrom_shift (b : Bool) (n : Nat) (cs : List Char) :
    lexemesFrom (loc.shift k) b n cs = (lexemesFrom loc b n cs).map (Located.shift k) := by
  fun_induction lexemesFrom loc b n cs with
  | case1 => rw [lexemesFrom]; rfl
  | case2 loc b skip c cs ih => rw [lexemesFrom, Location.shift_next, ih]
  | case3 loc b c cs hb ih => rw [lexemesFrom, if_pos hb, Location.shift_next, ih]
  | case4 loc b c cs hb lexeme text he ih =>
    rw [lexemesFrom, if_neg hb, he, Location.shift_next]
    exact congrArg (_ :: ·) ih

end CPretty
