import CPretty.Doc.Layout
import CPretty.Proofs.Token.Canonical

namespace CPretty

/-- A token in a document, or a place between two tokens. -/
inductive Mark where
  | word (key : Key)
  /-- At least one blank. -/
  | gap
  /-- Any number of blanks. -/
  | soft
deriving DecidableEq, Repr

namespace Mark

def chars : Mark → List Char
  | .word key => key.text.toList
  | .gap => [' ']
  | .soft => []

def key? : Mark → Option Key
  | .word key => some key
  | .gap | .soft => none

end Mark

def words (ms : List Mark) : List Key := ms.filterMap Mark.key?

@[simp] theorem words_nil : words [] = [] := rfl

@[simp] theorem words_word (k : Key) (ms : List Mark) : words (.word k :: ms) = k :: words ms := rfl

@[simp] theorem words_gap (ms : List Mark) : words (.gap :: ms) = words ms := rfl

@[simp] theorem words_soft (ms : List Mark) : words (.soft :: ms) = words ms := rfl

@[simp] theorem words_append (ms ms' : List Mark) : words (ms ++ ms') = words ms ++ words ms' :=
  List.filterMap_append

def Solid (cs : List Char) : Prop := ∀ c ∈ cs.getLast?, c ≠ ' '

def Key.Solid (k : Key) : Prop := k.text.toList ≠ [] ∧ CPretty.Solid k.text.toList

def Blanks (cs : List Char) : Prop := ∀ c ∈ cs, c = ' ' ∨ c = '\n'

namespace Blanks

theorem nil : Blanks [] := by simp [Blanks]

theorem append {v w : List Char} (hv : Blanks v) (hw : Blanks w) : Blanks (v ++ w) := by
  intro c hc
  rcases List.mem_append.mp hc with h | h
  · exact hv c h
  · exact hw c h

theorem newline (indent : Nat) : Blanks ('\n' :: List.replicate indent ' ') := by
  intro c hc
  rcases List.mem_cons.mp hc with rfl | h
  · exact .inr rfl
  · exact .inl (List.eq_of_mem_replicate h)

end Blanks

/-- The marks that a document prints. -/
inductive Doc.Marked : Doc → List Mark → Prop
  | text (s : String) (ms : List Mark) : s.toList = ms.flatMap Mark.chars → Marked (.text s) ms
  | nil : Marked (.concat []) []
  | cons {d : Doc} {ds : List Doc} {ms ms' : List Mark} : Marked d ms → Marked (.concat ds) ms' →
      Marked (.concat (d :: ds)) (ms ++ ms')
  | indent {d : Doc} {ms : List Mark} : Marked d ms → Marked (.indent d) ms
  | group {d : Doc} {ms : List Mark} : Marked d ms → Marked (.group d) ms
  | line : Marked .line [.gap]
  | softLine : Marked .softLine [.soft]
  | hardLine : Marked .hardLine [.gap]

/-- Marks laid out as a text: up to its last token, and the blanks after that. -/
inductive Laid : List Mark → List Char → List Char → Prop
  | nil : Laid [] [] []
  | word {ms : List Mark} {q w : List Char} {k : Key} : Laid ms q w → k.Solid →
      Laid (ms ++ [.word k]) (q ++ w ++ k.text.toList) []
  | gap {ms : List Mark} {q w w' : List Char} : Laid ms q w → Blanks w' → w' ≠ [] →
      Laid (ms ++ [.gap]) q w'
  | soft {ms : List Mark} {q w w' : List Char} : Laid ms q w → Blanks w' → (w ≠ [] → w' ≠ []) →
      Laid (ms ++ [.soft]) q w'

namespace Laid

variable {ms : List Mark} {q w : List Char}

theorem blanks (h : Laid ms q w) : Blanks w := by
  cases h with
  | nil => exact .nil
  | word _ _ => exact .nil
  | gap _ hw _ => exact hw
  | soft _ hw _ => exact hw

theorem solid (h : Laid ms q w) : Solid q := by
  induction h with
  | nil => simp [Solid]
  | word _ hk _ =>
    intro c hc
    rw [List.getLast?_append, List.getLast?_eq_some_getLast hk.1] at hc
    exact hk.2 c (by rw [List.getLast?_eq_some_getLast hk.1]; exact hc)
  | gap _ _ _ ih => exact ih
  | soft _ _ _ ih => exact ih

/-- Trimming takes nothing but blanks after the last token. -/
theorem trimmed (h : Laid ms q w) :
    ∃ v, Piece.trimmed (q ++ w).reverse = (q ++ v).reverse ∧ Blanks v ∧ (w = [] → v = []) := by
  have hq : Piece.trimmed q.reverse = q.reverse := by
    cases hr : q.reverse with
    | nil => rfl
    | cons c cs =>
      have hc : c ≠ ' ' := h.solid c (by rw [← List.head?_reverse, hr]; rfl)
      simp [Piece.trimmed, hc]
  have hw : Blanks (Piece.trimmed w.reverse).reverse := by
    intro c hc
    have hc' := (List.dropWhile_suffix (· == ' ')).subset (List.mem_reverse.mp hc)
    exact h.blanks c (List.mem_reverse.mp hc')
  refine ⟨(Piece.trimmed w.reverse).reverse, ?_, hw, ?_⟩
  · rw [List.reverse_append, Piece.trimmed, List.dropWhile_append]
    split
    · rename_i he
      rw [Piece.trimmed, List.isEmpty_iff.mp he, List.reverse_nil, List.append_nil]
      exact hq
    · rw [List.reverse_append, List.reverse_reverse, Piece.trimmed]
  · rintro rfl
    rfl

/-- The text that one more piece makes of a laid out text: any piece that stands for the marks. -/
theorem text_write {cs : List Char} {ms' : List Mark} (h : Laid ms q w)
    (hc : cs = ms'.flatMap Mark.chars) (hs : ∀ k ∈ words ms', k.Solid) :
    ∃ q' w', Laid (ms ++ ms') q' w' ∧ q ++ w ++ cs = q' ++ w' := by
  induction ms' generalizing ms q w cs with
  | nil => exact ⟨q, w, by simpa using h, by simp [hc]⟩
  | cons m ms' ih =>
    have step : ∃ q' w', Laid (ms ++ [m]) q' w' ∧ q ++ w ++ m.chars = q' ++ w' := by
      cases m with
      | word k => exact ⟨_, _, h.word (hs k (by simp)), by simp [Mark.chars]⟩
      | gap =>
        refine ⟨q, w ++ [' '], h.gap (h.blanks.append ?_) (by simp), by simp [Mark.chars]⟩
        simp [Blanks]
      | soft => exact ⟨q, w, h.soft h.blanks id, by simp [Mark.chars]⟩
    obtain ⟨q₁, w₁, h₁, he₁⟩ := step
    obtain ⟨q₂, w₂, h₂, he₂⟩ := ih h₁ rfl fun k hk => hs k (by cases m <;> simp_all)
    refine ⟨q₂, w₂, by simpa using h₂, ?_⟩
    rw [hc, List.flatMap_cons, ← List.append_assoc, he₁, he₂]

theorem newline (h : Laid ms q w) (indent : Nat) :
    ∃ v, Piece.write (q ++ w).reverse (.newline indent) = (q ++ v).reverse ∧ Blanks v ∧ v ≠ [] := by
  obtain ⟨v, hv, hb, -⟩ := h.trimmed
  refine ⟨v ++ '\n' :: List.replicate indent ' ', ?_, hb.append (.newline indent), by simp⟩
  rw [Piece.write, hv]
  simp

end Laid

namespace Doc

variable {d : Doc} {ms : List Mark}

/-- Whatever the width, the pieces of a document lay its marks out behind what stands before
them. -/
theorem Marked.laid (hd : d.Marked ms) (hs : ∀ k ∈ words ms, k.Solid) (o : Options)
    (indent : Nat) (mode : Mode) (rest : List Pending) (column : Nat) {ms₀ : List Mark}
    {q w : List Char} (h : Laid ms₀ q w) : ∃ q' w', Laid (ms₀ ++ ms) q' w' ∧
      (pieces o indent mode rest column d).1.foldl Piece.write (q ++ w).reverse =
        (q' ++ w').reverse := by
  induction hd generalizing indent mode rest column ms₀ q w with
  | text s ms hm =>
    obtain ⟨q', w', h', he⟩ := h.text_write hm hs
    refine ⟨q', w', h', ?_⟩
    rw [← he]
    simp [pieces, Piece.write]
  | nil => exact ⟨q, w, by simpa using h, rfl⟩
  | @cons d ds ms ms' _ _ ih₁ ih₂ =>
    obtain ⟨q₁, w₁, h₁, he₁⟩ := ih₁ (fun k hk => hs k (by simp [hk])) indent mode
      (⟨mode, ds⟩ :: rest) column h
    obtain ⟨q₂, w₂, h₂, he₂⟩ := ih₂ (fun k hk => hs k (by simp [hk])) indent mode rest
      (pieces o indent mode (⟨mode, ds⟩ :: rest) column d).2 h₁
    refine ⟨q₂, w₂, by simpa using h₂, ?_⟩
    simp only [pieces, piecesAll, List.foldl_append] at he₂ ⊢
    rw [he₁, he₂]
  | indent _ ih => exact ih hs _ _ _ _ h
  | group _ ih => exact ih hs _ _ _ _ h
  | line =>
    cases mode with
    | flat => exact ⟨_, _, h.gap (h.blanks.append (w := [' ']) (by simp [Blanks])) (by simp), by
        simp [pieces, Piece.write]⟩
    | broken =>
      obtain ⟨v, he, hv, hne⟩ := h.newline indent
      exact ⟨q, v, h.gap hv hne, he⟩
  | softLine =>
    cases mode with
    | flat => exact ⟨q, w, h.soft h.blanks id, rfl⟩
    | broken =>
      obtain ⟨v, he, hv, hne⟩ := h.newline indent
      exact ⟨q, v, h.soft hv fun _ => hne, he⟩
  | hardLine =>
    obtain ⟨v, he, hv, hne⟩ := h.newline indent
    exact ⟨q, v, h.gap hv hne, he⟩

end Doc

def BlankAhead (cs : List Char) : Prop := ∀ c ∈ cs.head?, c = ' ' ∨ c = '\n'

/-- Marks spread over a text. The flag tells that blanks may stand here, which is so after a gap
and at a soft place, but not directly after a token. -/
inductive Spread : Bool → List Mark → List Char → Prop
  | nil {b : Bool} : Spread b [] []
  | word {b : Bool} {k : Key} {ms : List Mark} {cs : List Char} : Spread false ms cs →
      Spread b (.word k :: ms) (k.text.toList ++ cs)
  | blank {c : Char} {ms : List Mark} {cs : List Char} : c = ' ' ∨ c = '\n' → Spread true ms cs →
      Spread true ms (c :: cs)
  | soft {b : Bool} {ms : List Mark} {cs : List Char} :
      Spread true ms cs → Spread b (.soft :: ms) cs
  | gap {b : Bool} {ms : List Mark} {cs : List Char} : Spread true ms cs → BlankAhead cs →
      Spread b (.gap :: ms) cs

namespace Spread

variable {b : Bool} {ms : List Mark} {cs : List Char}

theorem loosen (h : Spread b ms cs) : Spread true ms cs := by
  cases h with
  | nil => exact .nil
  | word h => exact .word h
  | blank hc h => exact .blank hc h
  | soft h => exact .soft h
  | gap h hb => exact .gap h hb

theorem blanks {w : List Char} (hw : Blanks w) (h : Spread true ms cs) :
    Spread true ms (w ++ cs) := by
  induction w with
  | nil => exact h
  | cons c w ih => exact .blank (hw c (by simp)) (ih fun x hx => hw x (by simp [hx]))

end Spread

theorem Blanks.ahead {w : List Char} (hw : Blanks w) (hne : w ≠ []) (cs : List Char) :
    BlankAhead (w ++ cs) := by
  cases w with
  | nil => exact absurd rfl hne
  | cons c w => simpa [BlankAhead] using hw c (by simp)

/-- What is laid out is spread over the text, with anything that is spread over the rest of it. -/
theorem Laid.spread {ms ms' : List Mark} {q w cs : List Char} (h : Laid ms q w)
    (hn : w = [] → Spread false ms' cs) (hw : w ≠ [] → Spread true ms' cs ∧ BlankAhead cs) :
    Spread true (ms ++ ms') (q ++ cs) := by
  induction h generalizing ms' cs with
  | nil => exact (hn rfl).loosen
  | @word ms q w k h hk ih =>
    have hcs := Spread.word (k := k) (b := true) (hn rfl)
    rw [List.append_assoc, List.append_assoc, List.append_assoc]
    refine ih ?_ ?_
    · rintro rfl
      exact .word (hn rfl)
    · intro hne
      exact ⟨hcs.blanks h.blanks, h.blanks.ahead hne _⟩
  | gap _ _ hne ih =>
    obtain ⟨hs, hb⟩ := hw hne
    rw [List.append_assoc]
    exact ih (fun _ => .gap hs hb) fun _ => ⟨.gap hs hb, hb⟩
  | @soft ms q w w' _ _ hww ih =>
    rw [List.append_assoc]
    have hs : Spread true ms' cs := by
      by_cases he : w' = []
      · exact (hn he).loosen
      · exact (hw he).1
    exact ih (fun _ => .soft hs) fun hne => ⟨.soft hs, (hw (hww hne)).2⟩

theorem Doc.Marked.render {d : Doc} {ms : List Mark} (hd : d.Marked ms)
    (hs : ∀ k ∈ words ms, k.Solid) (o : Options) : Spread true ms (d.render o).toList := by
  obtain ⟨q, w, h, he⟩ := hd.laid hs o 0 .broken [] 0 .nil
  obtain ⟨v, ht, hv, hn⟩ := h.trimmed
  have hr : (d.render o).toList = q ++ v := by
    rw [Doc.render, Piece.assemble, String.toList_ofList, ← List.reverse_inj, List.reverse_reverse,
      ← ht, ← he]
    rfl
  rw [hr]
  have hend : BlankAhead v := fun c hc => hv c (List.mem_of_mem_head? hc)
  have hblank : Spread true [] v := by simpa using Spread.nil.blanks hv
  rw [← List.append_nil ms]
  exact h.spread (fun hw => hn hw ▸ .nil) fun _ => ⟨hblank, hend⟩

/-- The texts in order, with spaces and line ends around each. -/
inductive Spaced : List String → List Char → Prop
  | nil {w : List Char} : Blanks w → Spaced [] w
  | cons {x : String} {xs : List String} {w cs : List Char} : Blanks w → Spaced xs cs →
      Spaced (x :: xs) (w ++ x.toList ++ cs)

theorem Spaced.blank {xs : List String} {cs : List Char} {c : Char} (hc : c = ' ' ∨ c = '\n')
    (h : Spaced xs cs) : Spaced xs (c :: cs) := by
  have hb : ∀ {w}, Blanks w → Blanks (c :: w) := fun hw x hx => by
    rcases List.mem_cons.mp hx with rfl | hx
    · exact hc
    · exact hw x hx
  cases h with
  | nil hw => exact .nil (hb hw)
  | cons hw h => exact .cons (hb hw) h

theorem Spread.spaced {b : Bool} {ms : List Mark} {cs : List Char} (h : Spread b ms cs) :
    Spaced ((words ms).map Key.text) cs := by
  induction h with
  | nil => exact .nil .nil
  | word _ ih => simpa using ih.cons .nil
  | blank hc _ ih => exact ih.blank hc
  | soft _ ih => exact ih
  | gap _ _ ih => exact ih

end CPretty
