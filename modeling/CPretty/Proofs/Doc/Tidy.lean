import CPretty.Proofs.Doc.Lines
import CPretty.Proofs.Syntax.Marks
import CPretty.Text.Blank
import Mathlib.Data.List.DropRight
import Mathlib.Data.List.Induction

namespace CPretty

open Text (isBlank)

variable {b : Bool} {q l cs : List Char} {c : Char} {ms ms' : List Mark} {o : Options}

/-- A line with more than blanks on it, which does not end in a space. -/
structure TidyLine (l : List Char) : Prop where
  unbroken : '\n' ∉ l
  inked : ∃ c ∈ l, isBlank c = false
  solid : l.getLast? ≠ some ' '

/-- Trimming makes a line with more than blanks tidy. -/
theorem TidyLine.trimmed (hl : '\n' ∉ l) (hi : ∃ c ∈ l, isBlank c = false) :
    TidyLine (l.rdropWhile (· == ' ')) where
  unbroken h := hl ((List.rdropWhile_prefix _ _).subset h)
  inked := by
    obtain ⟨c, hc, hk⟩ := hi
    have split : l.rdropWhile (· == ' ') ++ l.rtakeWhile (· == ' ') = l :=
      List.rdropWhile_append_rtakeWhile
    rw [← split, List.mem_append] at hc
    refine ⟨c, hc.resolve_right fun hs => ?_, hk⟩
    have space : (c == ' ') = true := List.mem_rtakeWhile_imp (p := (· == ' ')) hs
    rw [eq_of_beq space] at hk
    cases hk
  solid h := by
    have hne : l.rdropWhile (· == ' ') ≠ [] := by
      intro he
      rw [he] at h
      cases h
    rw [List.getLast?_eq_some_getLast hne] at h
    exact List.rdropWhile_last_not _ _ hne (beq_iff_eq.mpr (Option.some.inj h))

def joinLines (ls : List (List Char)) : List Char := ls.flatMap (· ++ ['\n'])

@[simp] theorem joinLines_append (ls ls' : List (List Char)) :
    joinLines (ls ++ ls') = joinLines ls ++ joinLines ls' := List.flatMap_append

@[simp] theorem joinLines_singleton (l : List Char) : joinLines [l] = l ++ ['\n'] := by
  simp [joinLines]

/-- A text of tidy lines and the start of a further one. With the flag, more than blanks stand on
that one. -/
def Ruled (b : Bool) (q : List Char) : Prop :=
  ∃ ls l, q = joinLines ls ++ l ∧ (∀ l ∈ ls, TidyLine l) ∧ '\n' ∉ l ∧
    (b = true → ∃ c ∈ l, isBlank c = false)

/-- Each line end stands directly behind a backslash. -/
def Continued (cs : List Char) : Prop := ∀ us vs, cs = us ++ '\n' :: vs → us.getLast? = some '\\'

/-- The token can be printed on tidy lines: it ends in no blank. -/
structure Key.Tidy (k : Key) : Prop where
  continued : Continued k.text.toList
  ends : ∃ cs c, k.text.toList = cs ++ [c] ∧ isBlank c = false

namespace Ruled

theorem nil : Ruled false [] := ⟨[], [], rfl, by simp, by simp, nofun⟩

theorem loosen (h : Ruled b q) : Ruled false q := by
  obtain ⟨ls, l, hq, hls, hl, -⟩ := h
  exact ⟨ls, l, hq, hls, hl, nofun⟩

theorem char (h : Ruled b q) (hc : c ≠ '\n') : Ruled (b || !isBlank c) (q ++ [c]) := by
  obtain ⟨ls, l, rfl, hls, hl, hb⟩ := h
  refine ⟨ls, l ++ [c], by simp, hls, by simp [hl, hc.symm], fun hi => ?_⟩
  rw [Bool.or_eq_true] at hi
  obtain hi | hi := hi
  · obtain ⟨d, hd, hk⟩ := hb hi
    exact ⟨d, by simp [hd], hk⟩
  · exact ⟨c, by simp, by simpa using hi⟩

theorem space (h : Ruled b q) : Ruled b (q ++ [' ']) := by
  have := h.char (c := ' ') (by decide)
  rwa [show isBlank ' ' = true by decide, Bool.not_true, Bool.or_false] at this

/-- A backslash keeps the line end behind it from closing an untidy line. -/
theorem afterBackslash (h : Ruled b q) (hq : q.getLast? = some '\\') :
    Ruled false (q ++ ['\n']) := by
  obtain ⟨ls, l, rfl, hls, hl, -⟩ := h
  have last : l.getLast? = some '\\' := by
    cases l with
    | nil =>
      rw [List.append_nil] at hq
      obtain rfl | ⟨ls, m, rfl⟩ := ls.eq_nil_or_concat
      · cases hq
      · simp at hq
    | cons c l => rwa [List.getLast?_append_cons] at hq
  have tidy : TidyLine l :=
    ⟨hl, ⟨'\\', List.mem_of_getLast? last, by decide⟩, by simp [last]⟩
  refine ⟨ls ++ [l], [], by simp, ?_, by simp, nofun⟩
  simpa [or_imp, forall_and] using ⟨hls, tidy⟩

theorem append (h : Ruled b q) (hc : Continued cs) : ∃ b', Ruled b' (q ++ cs) := by
  induction cs using List.reverseRecOn with
  | nil => exact ⟨b, by simpa using h⟩
  | append_singleton cs c ih =>
    have front : Continued cs := fun us vs he => hc us (vs ++ [c]) (by simp [he])
    obtain ⟨b', h'⟩ := ih front
    rw [← List.append_assoc]
    by_cases hn : c = '\n'
    · subst hn
      have last := hc cs [] rfl
      refine ⟨false, h'.afterBackslash ?_⟩
      rw [List.getLast?_append, last]
      rfl
    · exact ⟨_, h'.char hn⟩

theorem word {k : Key} (h : Ruled b q) (hk : k.Tidy) : Ruled true (q ++ k.text.toList) := by
  obtain ⟨cs, c, hcs, hc⟩ := hk.ends
  have continued := hk.continued
  rw [hcs] at continued ⊢
  have front : Continued cs := fun us vs he => continued us (vs ++ [c]) (by simp [he])
  obtain ⟨b', h'⟩ := h.append front
  have hn : c ≠ '\n' := by
    rintro rfl
    cases hc
  have := h'.char hn
  rwa [hc, Bool.not_false, Bool.or_true, List.append_assoc] at this

theorem newline (h : Ruled true q) (indent : Nat) : ∃ ls, (∀ l ∈ ls, TidyLine l) ∧ ls ≠ [] ∧
    Piece.write q.reverse (.newline indent) =
      (joinLines ls ++ List.replicate indent ' ').reverse := by
  obtain ⟨ls, l, rfl, hls, hl, hi⟩ := h
  obtain ⟨c, hc, hk⟩ := hi rfl
  have front : (joinLines ls).reverse.head? ≠ some ' ' := by
    obtain rfl | ⟨ls, m, rfl⟩ := ls.eq_nil_or_concat
    · simp [joinLines]
    · simp
  have tidy := TidyLine.trimmed hl ⟨c, hc, hk⟩
  refine ⟨ls ++ [l.rdropWhile (· == ' ')], ?_, by simp, ?_⟩
  · simpa [or_imp, forall_and] using ⟨hls, tidy⟩
  · rw [Piece.write, List.reverse_append, Piece.trimmed_append front, Piece.trimmed]
    simp [List.rdropWhile]

theorem onward (h : Ruled true q) (indent : Nat) :
    ∃ q', Ruled false q' ∧ Piece.write q.reverse (.newline indent) = q'.reverse := by
  obtain ⟨ls, hls, -, he⟩ := h.newline indent
  exact ⟨_, ⟨ls, _, rfl, hls, by simp, nofun⟩, he⟩

end Ruled

/-- Every place between two tokens stands directly after one. The flag tells that a token stands
before the marks. -/
def Parted : Bool → List Mark → Prop
  | _, [] => True
  | _, .word _ :: ms => Parted true ms
  | b, .gap :: ms | b, .soft :: ms => b = true ∧ Parted false ms

def afterMarks : Bool → List Mark → Bool
  | b, [] => b
  | _, .word _ :: ms => afterMarks true ms
  | _, .gap :: ms | _, .soft :: ms => afterMarks false ms

theorem afterMarks_append : afterMarks b (ms ++ ms') = afterMarks (afterMarks b ms) ms' := by
  induction ms generalizing b with
  | nil => rfl
  | cons m ms ih => cases m <;> exact ih

theorem parted_append : Parted b (ms ++ ms') ↔ Parted b ms ∧ Parted (afterMarks b ms) ms' := by
  induction ms generalizing b with
  | nil => simp [Parted, afterMarks]
  | cons m ms ih => cases m <;> simp [Parted, afterMarks, ih, and_assoc]

/-- Marks of a phrase start and end with a token and have no two places in a row. -/
theorem Run.parted {a z : Kind} (h : Run a ms z) (b : Bool) :
    Parted b ms ∧ afterMarks b ms = true := by
  induction h generalizing b with
  | word k => exact ⟨trivial, rfl⟩
  | join _ _ _ ih ih' =>
    rw [parted_append, afterMarks_append, (ih b).2]
    exact ⟨⟨(ih b).1, (ih' true).1⟩, (ih' true).2⟩
  | gap _ _ _ ih ih' =>
    rw [parted_append, afterMarks_append, (ih b).2]
    exact ⟨⟨(ih b).1, rfl, (ih' false).1⟩, (ih' false).2⟩
  | soft _ _ _ _ ih ih' =>
    rw [parted_append, afterMarks_append, (ih b).2]
    exact ⟨⟨(ih b).1, rfl, (ih' false).1⟩, (ih' false).2⟩

theorem Ruled.marks (h : Ruled b q) (hk : ∀ k ∈ words ms, k.Tidy) :
    Ruled (afterMarks b ms) (q ++ ms.flatMap Mark.chars) := by
  induction ms generalizing b q with
  | nil => simpa [afterMarks] using h
  | cons m ms ih =>
    rw [List.flatMap_cons, ← List.append_assoc]
    cases m with
    | word k =>
      rw [words_word, List.forall_mem_cons] at hk
      exact ih (h.word hk.1) hk.2
    | gap => exact ih h.space.loosen hk
    | soft => exact ih (by simpa [Mark.chars] using h.loosen) hk

/-- Whatever the width, the pieces of a document are written on tidy lines. -/
theorem Doc.Marked.ruled {d : Doc} (hd : d.Marked ms) (hk : ∀ k ∈ words ms, k.Tidy)
    (indent : Nat) (mode : Mode) (rest : List Pending) (column : Nat) (hp : Parted b ms)
    (h : Ruled b q) : ∃ q', Ruled (afterMarks b ms) q' ∧
      (pieces o indent mode rest column d).1.foldl Piece.write q.reverse = q'.reverse := by
  induction hd generalizing indent mode rest column b q with
  | text s ms hm =>
    refine ⟨_, h.marks hk, ?_⟩
    rw [← hm]
    simp [pieces, Piece.write]
  | nil => exact ⟨q, h, rfl⟩
  | @cons d ds ms ms' _ _ ih ih' =>
    simp only [words_append, List.forall_mem_append] at hk
    obtain ⟨hp, hp'⟩ := parted_append.mp hp
    obtain ⟨q₁, h₁, he₁⟩ := ih hk.1 indent mode (⟨mode, ds⟩ :: rest) column hp h
    obtain ⟨q₂, h₂, he₂⟩ := ih' hk.2 indent mode rest
      (pieces o indent mode (⟨mode, ds⟩ :: rest) column d).2 hp' h₁
    refine ⟨q₂, by rwa [afterMarks_append], ?_⟩
    simp only [pieces, piecesAll, List.foldl_append] at he₂ ⊢
    rw [he₁, he₂]
  | indent _ ih => exact ih hk _ _ _ _ hp h
  | group _ ih => exact ih hk _ _ _ _ hp h
  | line =>
    obtain ⟨rfl, -⟩ := hp
    cases mode with
    | flat => exact ⟨_, h.space.loosen, by simp [pieces, Piece.write]⟩
    | broken => exact h.onward indent
  | softLine =>
    obtain ⟨rfl, -⟩ := hp
    cases mode with
    | flat => exact ⟨q, h.loosen, rfl⟩
    | broken => exact h.onward indent
  | hardLine =>
    obtain ⟨rfl, -⟩ := hp
    exact h.onward indent

theorem Doc.Marked.lineText {d : Doc} (hd : d.Marked ms) (hk : ∀ k ∈ words ms, k.Tidy)
    {a z : Kind} (hr : Run a ms z) :
    ∃ ls, (∀ l ∈ ls, TidyLine l) ∧ ls ≠ [] ∧ d.lineText o = joinLines ls := by
  obtain ⟨hp, ha⟩ := hr.parted false
  obtain ⟨q, h, he⟩ := hd.ruled hk 0 .broken [⟨.broken, [.hardLine]⟩] 0 hp .nil
  rw [ha] at h
  obtain ⟨ls, hls, hne, hw⟩ := h.newline 0
  refine ⟨ls, hls, hne, ?_⟩
  rw [Doc.lineText, linePieces, List.foldl_append]
  simp only [List.reverse_nil] at he
  rw [he, List.foldl_cons, List.foldl_nil, hw]
  simp

end CPretty
