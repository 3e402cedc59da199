import CPretty.Proofs.Doc.Lines

namespace CPretty

/-- What layout prints, step by step. It is told from a text where a line or a soft line, which
could have ended the line, is printed flat. -/
inductive Step where
  | text (s : String)
  /-- A line printed as a space, or a soft line printed as nothing. -/
  | flat (blank : Bool)
  | newline (indent : Nat)
deriving DecidableEq, Repr

namespace Step

def pieces : Step → List Piece
  | .text s => [.text s]
  | .flat blank => if blank then [.space] else []
  | .newline indent => [.newline indent]

/-- The characters of a step on its line. A line end has its indentation on the line that it
starts. -/
def chars : Step → List Char
  | .text s => s.toList
  | .flat blank => if blank then [' '] else []
  | .newline indent => List.replicate indent ' '

def column (start : Nat) : Step → Nat
  | .newline indent => indent
  | s => start + s.chars.length

def isFlat : Step → Bool
  | .flat _ => true
  | _ => false

def isNewline : Step → Bool
  | .newline _ => true
  | _ => false

end Step

/-- The steps of one line. The line end that starts the line is one of them. -/
abbrev Line := List Step

namespace Line

def width (l : Line) : Nat := (l.flatMap Step.chars).length

/-- Whether a place is printed flat that could have ended the line. -/
def hasFlat (l : Line) : Bool := l.any Step.isFlat

/-- The characters of the line, without the spaces at its end. -/
def chars (l : Line) : List Char := (Piece.trimmed (l.flatMap Step.chars).reverse).reverse

def add (l : Line) (s : Step) : Line := if s.isNewline then [s] else l ++ [s]

end Line

def Step.lines : List Step → List Line
  | [] => [[]]
  | s :: ss =>
    let ls := (lines ss).modifyHead (s :: ·)
    if s.isNewline then [] :: ls else ls

namespace Doc

mutual

/-- The steps of a document that starts at `start` and is followed by `rest`. -/
def steps (o : Options) (indent : Nat) (mode : Mode) (rest : List Pending) (start : Nat) :
    Doc → List Step
  | .text s => [.text s]
  | .concat parts => stepsAll o indent mode rest start parts
  | .indent body => steps o (o.deeper indent) mode rest start body
  | .group body =>
    let flat := mode == .flat || (!body.hasHardLine && fits body rest (o.room start))
    steps o indent (if flat then .flat else .broken) rest start body
  | .line =>
    match mode with
    | .flat => [.flat true]
    | .broken => [.newline indent]
  | .softLine =>
    match mode with
    | .flat => [.flat false]
    | .broken => [.newline indent]
  | .hardLine => [.newline indent]

def stepsAll (o : Options) (indent : Nat) (mode : Mode) (rest : List Pending) (start : Nat) :
    List Doc → List Step
  | [] => []
  | d :: ds =>
    let here := steps o indent mode (⟨mode, ds⟩ :: rest) start d
    here ++ stepsAll o indent mode rest (here.foldl Step.column start) ds

end

def linesAt (o : Options) (d : Doc) : List Line := Step.lines (d.steps o 0 .broken [] 0)

mutual

def texts : Doc → List String
  | .text s => [s]
  | .concat parts => textsAll parts
  | .indent body | .group body => texts body
  | .line | .softLine | .hardLine => []

def textsAll : List Doc → List String
  | [] => []
  | d :: ds => texts d ++ textsAll ds

end

end Doc

namespace Doc

variable {o : Options}

theorem pieces_eq_steps (d : Doc) : ∀ (indent : Nat) (mode : Mode) (rest : List Pending)
    (start : Nat), pieces o indent mode rest start d =
      ((steps o indent mode rest start d).flatMap Step.pieces,
        (steps o indent mode rest start d).foldl Step.column start) := by
  induction d using induction with
  | text s => exact fun _ _ _ _ => rfl
  | concat ds ih =>
    intro indent mode rest start
    rw [pieces, steps]
    induction ds generalizing start with
    | nil => rfl
    | cons d ds ihs =>
      have tail := ihs fun d hd => ih d (List.mem_cons_of_mem _ hd)
      rw [piecesAll, stepsAll, ih d List.mem_cons_self]
      simp only [tail, List.flatMap_append, List.foldl_append]
  | indent d ih => exact fun indent mode rest start => ih _ mode rest start
  | group d ih => exact fun indent mode rest start => ih indent _ rest start
  | line | softLine => exact fun _ mode _ _ => by cases mode <;> rfl
  | hardLine => exact fun _ _ _ _ => rfl

theorem text_of_mem_steps (d : Doc) : ∀ (indent : Nat) (mode : Mode) (rest : List Pending)
    (start : Nat) (s : String), .text s ∈ steps o indent mode rest start d → s ∈ d.texts := by
  induction d using induction with
  | text s => exact fun _ _ _ _ s' h => by simpa [steps, texts] using h
  | concat ds ih =>
    intro indent mode rest start s h
    rw [steps] at h
    rw [texts]
    induction ds generalizing start with
    | nil => cases h
    | cons d ds ihs =>
      rw [stepsAll, List.mem_append] at h
      rw [textsAll, List.mem_append]
      exact h.imp (ih d List.mem_cons_self _ _ _ _ _)
        (ihs (fun d hd => ih d (List.mem_cons_of_mem _ hd)) _)
  | indent d ih => exact fun indent mode rest start => ih _ mode rest start
  | group d ih => exact fun indent mode rest start => ih indent _ rest start
  | line | softLine => exact fun _ mode _ _ _ h => by cases mode <;> simp [steps] at h
  | hardLine => exact fun _ _ _ _ _ h => by simp [steps] at h

end Doc

namespace Step

variable {l : Line} {s : Step} {ss ts : List Step} {P : Line → Prop}

theorem lines_ne_nil (ss : List Step) : lines ss ≠ [] := by
  cases ss with
  | nil => exact List.cons_ne_nil _ _
  | cons s ss =>
    have := lines_ne_nil ss
    rw [lines]
    split <;> simp_all [List.modifyHead_eq_nil_iff]

/-- The line in progress when a line ends has the property. -/
def Closed (P : Line → Prop) : Line → List Step → Prop
  | _, [] => True
  | l, s :: ss => (s.isNewline = true → P l) ∧ Closed P (l.add s) ss

theorem closed_append :
    Closed P l (ss ++ ts) ↔ Closed P l ss ∧ Closed P (ss.foldl Line.add l) ts := by
  induction ss generalizing l with
  | nil => simp [Closed]
  | cons s ss ih => simp [Closed, ih, and_assoc]

theorem forall_lines_iff : (∀ x ∈ (lines ss).modifyHead (l ++ ·), P x) ↔
    Closed P l ss ∧ P (ss.foldl Line.add l) := by
  induction ss generalizing l with
  | nil => simp [lines, Closed]
  | cons s ss ih =>
    rw [Closed, List.foldl_cons, and_assoc, ← ih, lines, Line.add]
    obtain ⟨x, xs, hx⟩ := List.exists_cons_of_ne_nil (lines_ne_nil ss)
    split <;> simp_all

theorem foldl_column (ss : List Step) :
    ss.foldl Step.column l.width = (ss.foldl Line.add l).width := by
  induction ss generalizing l with
  | nil => rfl
  | cons s ss ih =>
    rw [List.foldl_cons, List.foldl_cons, ← ih]
    congr 1
    cases s <;> simp [column, Line.width, Line.add, isNewline, chars]

theorem width_lt_of_closed {n : Nat} (h : Closed (·.width < n) l ss)
    (h' : (ss.foldl Line.add l).width < n) : l.width < n := by
  induction ss generalizing l with
  | nil => exact h'
  | cons s ss ih =>
    obtain ⟨hs, h⟩ := h
    cases hn : s.isNewline with
    | true => exact hs hn
    | false =>
      have grows : l.width ≤ (l.add s).width := by simp [Line.add, hn, Line.width]
      exact Nat.lt_of_le_of_lt grows (ih h h')

end Step

/-- A line on which something is printed flat does not run past the column `w`. -/
def Line.Fits (w : Nat) (l : Line) : Prop := l.hasFlat = true → l.width ≤ w

theorem Lead.append_assoc (a b c : Lead) : (a.append b).append c = a.append (b.append c) := by
  cases ha : a.ended <;> cases hb : b.ended <;> simp [append, ha, hb, Nat.add_assoc]

theorem Pending.leadAll_cons (mode : Mode) (ds : List Doc) (rest : List Pending) :
    Pending.leadAll (⟨mode, ds⟩ :: rest) = (Doc.leadAll mode ds).append (Pending.leadAll rest) := by
  rw [Pending.leadAll]
  split <;> simp_all [Lead.append]

def Options.signBit : Nat := 0x8000000000000000

theorem Options.room_eq {o : Options} {column : Nat} (ho : o.printWidth < signBit)
    (hc : column < signBit) : o.room column = o.printWidth - column := by
  rw [signBit] at ho hc
  rw [room, Int.bmod_eq_of_le] <;> rw [wordSize] <;> omega

namespace Doc

variable {o : Options}

theorem leadAll_cons (mode : Mode) (d : Doc) (ds : List Doc) :
    leadAll mode (d :: ds) = (lead mode d).append (leadAll mode ds) := by
  rw [leadAll]
  split <;> simp_all [Lead.append]

/-- What holds of a line in progress before the rest `a` of the line is printed: if lines are
printed flat now, or one was on this line, the line does not run past the width. -/
def Bounded (o : Options) (mode : Mode) (l : Line) (a : Lead) : Prop :=
  mode = .flat ∨ l.hasFlat = true → l.width + a.columns ≤ o.printWidth

theorem Bounded.ends {rest l}
    (h : Bounded o .broken l (Lead.append ⟨0, true⟩ (Pending.leadAll rest))) (indent : Nat) :
    Step.Closed (Line.Fits o.printWidth) l [.newline indent] ∧
      Bounded o .broken (l.add (.newline indent)) (Pending.leadAll rest) := by
  refine ⟨⟨fun _ hf => h (.inr hf), trivial⟩, fun hf => ?_⟩
  exact absurd hf (by simp [Line.add, Step.isNewline, Line.hasFlat, Step.isFlat])

theorem Bounded.goes {mode rest l} {s : Step}
    (h : Bounded o mode l (Lead.append ⟨s.chars.length, false⟩ (Pending.leadAll rest)))
    (hs : s.isNewline = false) (hf : s.isFlat = true → mode = .flat) :
    Step.Closed (Line.Fits o.printWidth) l [s] ∧
      Bounded o mode (l.add s) (Pending.leadAll rest) := by
  refine ⟨⟨fun hn => absurd (hs.symm.trans hn) Bool.false_ne_true, trivial⟩, fun hb => ?_⟩
  have fits := h (by simp [Line.add, hs, Line.hasFlat] at hb ⊢; grind)
  simpa [Line.add, hs, Line.width, Lead.append, Nat.add_assoc] using fits

/-- Every line that ends inside a document fits, and the line in progress stays bounded. -/
theorem closed_steps (ho : o.printWidth < Options.signBit) (d : Doc) :
    ∀ (indent : Nat) (mode : Mode) (rest : List Pending) (l : Line),
    (mode = .flat → d.hasHardLine = false) →
    Step.Closed (·.width < Options.signBit) l (steps o indent mode rest l.width d) →
    ((steps o indent mode rest l.width d).foldl Line.add l).width < Options.signBit →
    Bounded o mode l ((lead mode d).append (Pending.leadAll rest)) →
    Step.Closed (Line.Fits o.printWidth) l (steps o indent mode rest l.width d) ∧
      Bounded o mode ((steps o indent mode rest l.width d).foldl Line.add l)
        (Pending.leadAll rest) := by
  induction d using induction with
  | text s =>
    intro indent mode rest l _ _ _ h
    exact h.goes (s := .text s) rfl nofun
  | concat ds ih =>
    intro indent mode rest l hm hc hn h
    rw [steps] at hc hn ⊢
    rw [lead] at h
    induction ds generalizing l with
    | nil => exact ⟨trivial, by simpa [leadAll, Lead.append, stepsAll] using h⟩
    | cons d ds ihs =>
      simp only [hasHardLine, anyHardLine, Bool.or_eq_false_iff] at hm
      rw [stepsAll, Step.foldl_column] at hc hn ⊢
      rw [Step.closed_append] at hc ⊢
      rw [List.foldl_append] at hn ⊢
      rw [leadAll_cons, Lead.append_assoc, ← Pending.leadAll_cons] at h
      obtain ⟨hcd, hbd⟩ := ih d List.mem_cons_self indent mode _ l (fun h => (hm h).1) hc.1
        (Step.width_lt_of_closed hc.2 hn) h
      rw [Pending.leadAll_cons] at hbd
      obtain ⟨hcs, hbs⟩ := ihs (fun d hd => ih d (List.mem_cons_of_mem _ hd)) _
        (fun h => (hm h).2) hc.2 hn hbd
      exact ⟨⟨hcd, hcs⟩, hbs⟩
  | indent d ih => exact fun indent mode rest l hm => ih _ mode rest l hm
  | group d ih =>
    intro indent mode rest l hm hc hn h
    rw [steps] at hc hn ⊢
    by_cases hf : mode = .flat
    · subst hf
      exact ih indent .flat rest l hm hc hn h
    have broken : mode = .broken := by cases mode <;> simp_all
    subst broken
    have start := Step.width_lt_of_closed hc hn
    cases hg : !d.hasHardLine && fits d rest (o.room l.width) with
    | false =>
      simp only [hg, Bool.or_false, beq_iff_eq, reduceCtorEq, if_false] at hc hn ⊢
      exact ih indent .broken rest l nofun hc hn h
    | true =>
      -- The group is laid out flat because it fits.
      simp only [hg, Bool.or_true, if_true] at hc hn ⊢
      rw [Bool.and_eq_true, Bool.not_eq_true', fits, decide_eq_true_eq,
        Options.room_eq ho start] at hg
      obtain ⟨hh, hfit⟩ := hg
      obtain ⟨hcl, hb⟩ := ih indent .flat rest l (fun _ => hh) hc hn fun _ => by omega
      exact ⟨hcl, fun _ => hb (.inl rfl)⟩
  | line =>
    intro indent mode rest l hm hc hn h
    cases mode with
    | broken => exact h.ends indent
    | flat => exact h.goes (s := .flat true) rfl fun _ => rfl
  | softLine =>
    intro indent mode rest l hm hc hn h
    cases mode with
    | broken => exact h.ends indent
    | flat => exact h.goes (s := .flat false) rfl fun _ => rfl
  | hardLine =>
    intro indent mode rest l hm hc hn h
    cases mode with
    | broken => exact h.ends indent
    | flat => cases hm rfl

theorem write_step {s : Step} (hs : s.isNewline = false) (ss : List Step) (l : Line)
    (out : List Char) :
    s.pieces.foldl Piece.write ((l.flatMap Step.chars).reverse ++ out) =
      ((l ++ [s]).flatMap Step.chars).reverse ++ out ∧
    (Step.lines (s :: ss)).modifyHead (l ++ ·) = (Step.lines ss).modifyHead ((l ++ [s]) ++ ·) := by
  obtain ⟨x, xs, hx⟩ := List.exists_cons_of_ne_nil (Step.lines_ne_nil ss)
  refine ⟨?_, by simp [Step.lines, hs, hx]⟩
  cases s with
  | newline indent => cases hs
  | text s => simp [Step.pieces, Piece.write, Step.chars]
  | flat blank => cases blank <;> simp [Step.pieces, Piece.write, Step.chars]

/-- The lines joined by line ends are what the pieces of the steps write: before them stands a line
in progress, and before that the text `out`, held in reverse. -/
theorem trimmed_write (ss : List Step) {l : Line} {out : List Char} (h : out.head? ≠ some ' ') :
    (Piece.trimmed ((ss.flatMap Step.pieces).foldl Piece.write
      ((l.flatMap Step.chars).reverse ++ out))).reverse =
      out.reverse ++ ['\n'].intercalate (((Step.lines ss).modifyHead (l ++ ·)).map Line.chars) := by
  induction ss generalizing l out with
  | nil =>
    have trim : Piece.trimmed ((l.flatMap Step.chars).reverse ++ out) = _ := Piece.trimmed_append h
    simp [Step.lines, Line.chars, trim]
  | cons s ss ih =>
    rw [List.flatMap_cons, List.foldl_append]
    cases hs : s.isNewline with
    | false =>
      obtain ⟨hw, hl⟩ := write_step hs ss l out
      rw [hw, hl, ih h]
    | true =>
      obtain ⟨indent, rfl⟩ : ∃ indent, s = .newline indent := by
        cases s <;> simp_all [Step.isNewline]
      obtain ⟨x, xs, hx⟩ := List.exists_cons_of_ne_nil (Step.lines_ne_nil ss)
      have ended : ('\n' :: (Line.chars l).reverse ++ out).head? ≠ some ' ' := by simp
      have next := ih (l := [.newline indent]) ended
      have write : (Step.newline indent).pieces.foldl Piece.write
          ((l.flatMap Step.chars).reverse ++ out) =
          ([Step.newline indent].flatMap Step.chars).reverse ++
            ('\n' :: (Line.chars l).reverse ++ out) := by
        simp [Step.pieces, Piece.write, Piece.trimmed_append h, Line.chars, Step.chars]
      rw [write, next]
      simp [Step.lines, Step.isNewline, hx, List.intercalate]

theorem flatten_lines (ss : List Step) : (Step.lines ss).flatten = ss := by
  induction ss with
  | nil => rfl
  | cons s ss ih =>
    obtain ⟨x, xs, hx⟩ := List.exists_cons_of_ne_nil (Step.lines_ne_nil ss)
    rw [hx] at ih
    rw [Step.lines, hx, ← ih]
    split <;> simp

theorem toList_render (d : Doc) (o : Options) :
    (d.render o).toList = ['\n'].intercalate ((d.linesAt o).map Line.chars) := by
  have whole := @trimmed_write (d.steps o 0 .broken [] 0) [] [] (by simp)
  have same : (d.linesAt o).modifyHead ([] ++ ·) = d.linesAt o := by
    obtain ⟨x, xs, hx⟩ := List.exists_cons_of_ne_nil (Step.lines_ne_nil (d.steps o 0 .broken [] 0))
    rw [linesAt, hx]
    rfl
  rw [render, pieces_eq_steps, Piece.assemble, String.toList_ofList]
  rw [← linesAt, same] at whole
  simpa using whole

/-- The text of a document, whose texts hold no line end, has the characters of its lines. -/
theorem splitOn_render {d : Doc} (ht : ∀ s ∈ d.texts, '\n' ∉ s.toList) (o : Options) :
    (d.render o).toList.splitOn '\n' = (d.linesAt o).map Line.chars := by
  rw [toList_render]
  refine List.splitOn_intercalate '\n' (fun x hx => ?_)
    (by simpa [linesAt] using Step.lines_ne_nil _)
  obtain ⟨l, hl, rfl⟩ := List.mem_map.mp hx
  intro hm
  rw [Line.chars, List.mem_reverse] at hm
  have hm := List.mem_reverse.mp ((List.dropWhile_suffix _).subset hm)
  obtain ⟨s, hs, hc⟩ := List.mem_flatMap.mp hm
  have step : s ∈ d.steps o 0 .broken [] 0 := by
    rw [← flatten_lines (d.steps o 0 .broken [] 0)]
    exact List.mem_flatten_of_mem hl hs
  cases s with
  | text s => exact ht s (text_of_mem_steps d _ _ _ _ s step) hc
  | flat blank => cases blank <;> simp [Step.chars] at hc
  | newline indent => simp [Step.chars] at hc

/-- The lines that a document is printed on make up its pieces and its text, and every line on which
a line or a soft line is printed flat has at most as many characters as the print width. -/
theorem flat_lines_fit {d : Doc} {o : Options} (ht : ∀ s ∈ d.texts, '\n' ∉ s.toList)
    (ho : o.printWidth < Options.signBit) (hc : ∀ l ∈ d.linesAt o, l.width < Options.signBit) :
    (d.pieces o 0 .broken [] 0).1 = (d.linesAt o).flatten.flatMap Step.pieces ∧
      (d.render o).toList.splitOn '\n' = (d.linesAt o).map Line.chars ∧
      ∀ l ∈ d.linesAt o, l.hasFlat = true → l.chars.length ≤ o.printWidth := by
  have lines {P : Line → Prop} : (∀ l ∈ d.linesAt o, P l) ↔
      Step.Closed P [] (d.steps o 0 .broken [] 0) ∧
        P ((d.steps o 0 .broken [] 0).foldl Line.add []) := by
    rw [← Step.forall_lines_iff, linesAt]
    obtain ⟨x, xs, hx⟩ := List.exists_cons_of_ne_nil (Step.lines_ne_nil (d.steps o 0 .broken [] 0))
    rw [hx]
    rfl
  refine ⟨by rw [pieces_eq_steps, linesAt, flatten_lines], splitOn_render ht o, fun l hl hf => ?_⟩
  obtain ⟨closed, narrow⟩ := lines.mp hc
  obtain ⟨hcl, hb⟩ := closed_steps ho d 0 .broken [] [] nofun closed narrow
    fun h => by simp [Line.hasFlat] at h
  have fits : l.Fits o.printWidth := lines.mpr ⟨hcl, fun hf => hb (.inr hf)⟩ l hl
  refine Nat.le_trans ?_ (fits hf)
  have trimmed := (List.dropWhile_suffix (· == ' ') (l := (l.flatMap Step.chars).reverse)).length_le
  simpa [Line.chars, Line.width, Piece.trimmed] using trimmed

/-- Of two groups in a row the first one is flat and the second one is not; the line before it is
as wide as the print width. -/
theorem flat_lines_fit_groups :
    let d : Doc := .concat [.group (.concat [.text "alpha +", .line, .text "beta"]), .text " -",
      .group (.indent (.concat [.line, .text "gamma"])), .text " - delta - epsilon"]
    (d.render ⟨14, 2, 64⟩).toList.splitOn '\n' =
        ["alpha + beta -".toList, "  gamma - delta - epsilon".toList] ∧
      ∀ l ∈ d.linesAt ⟨14, 2, 64⟩, l.hasFlat = true → l.chars.length ≤ 14 := by
  intro d
  obtain ⟨-, hr, hl⟩ := flat_lines_fit (d := d) (o := ⟨14, 2, 64⟩) (by decide) (by decide)
    (by decide +kernel)
  exact ⟨hr.trans (by decide +kernel), hl⟩

end Doc

end CPretty
