import CPretty.Proofs.Doc.Lines
import CPretty.Proofs.Doc.Width

namespace CPretty

variable {o : Options}

/-- A document on the stack of the printer, with its indentation and the mode of its lines. -/
structure Command where
  indent : Nat
  mode : Mode
  doc : Doc

namespace Doc

mutual

/-- The number of documents in a document, itself included. -/
def weight : Doc → Nat
  | .concat parts => weightAll parts + 1
  | .indent body | .group body => weight body + 1
  | .text _ | .line | .softLine | .hardLine => 1

def weightAll : List Doc → Nat
  | [] => 0
  | d :: ds => weight d + weightAll ds

end

theorem weightAll_append (ds es : List Doc) :
    weightAll (ds ++ es) = weightAll ds + weightAll es := by
  induction ds with
  | nil => rw [List.nil_append, weightAll, Nat.zero_add]
  | cons d ds ih => rw [List.cons_append, weightAll, weightAll, ih, Nat.add_assoc]

end Doc

theorem Lead.append_zero (a : Lead) : a.append ⟨0, false⟩ = a := by
  obtain ⟨columns, ended⟩ := a
  cases ended <;> rfl

namespace Pending

theorem leadAll_one (mode : Mode) (d : Doc) (rest : List Pending) :
    leadAll (⟨mode, [d]⟩ :: rest) = (d.lead mode).append (leadAll rest) := by
  rw [leadAll_cons, Doc.leadAll_cons, Doc.leadAll, Lead.append_zero]

theorem leadAll_each (mode : Mode) (ds : List Doc) (rest : List Pending) :
    leadAll (ds.map (fun d => ⟨mode, [d]⟩) ++ rest) = leadAll (⟨mode, ds⟩ :: rest) := by
  induction ds with
  | nil =>
    rw [leadAll_cons]
    simp [Doc.leadAll, Lead.append]
  | cons d ds ih =>
    rw [List.map_cons, List.cons_append, leadAll_one, ih, leadAll_cons, leadAll_cons,
      Doc.leadAll_cons, Lead.append_assoc]

end Pending

/-- The loop that finds out whether a line fits: the columns left, the documents to be printed on
it, and the stack of the printer behind them. -/
structure FitCheck where
  remaining : Int
  work : List (Mode × Doc)
  rest : List Command

namespace FitCheck

/-- One turn of the loop, which goes on or ends with an answer. -/
def step (c : FitCheck) : FitCheck ⊕ Bool :=
  if c.remaining < 0 then .inr false
  else
    match c.work with
    | [] =>
      match c.rest with
      | [] => .inr true
      | k :: rest => .inl { c with work := [(k.mode, k.doc)], rest }
    | (mode, d) :: work =>
      match d with
      | .text s => .inl { c with remaining := c.remaining - s.length, work }
      | .concat parts => .inl { c with work := parts.map (mode, ·) ++ work }
      | .indent body => .inl { c with work := (mode, body) :: work }
      | .group body =>
        let mode := if mode == .broken && body.hasHardLine then .broken else mode
        .inl { c with work := (mode, body) :: work }
      | .line =>
        match mode with
        | .flat => .inl { c with remaining := c.remaining - 1, work }
        | .broken => .inr true
      | .softLine =>
        match mode with
        | .flat => .inl { c with work }
        | .broken => .inr true
      | .hardLine => .inr true

def weight (c : FitCheck) : Nat :=
  Doc.weightAll (c.work.map Prod.snd) + Doc.weightAll (c.rest.map Command.doc) + c.rest.length

theorem weight_lt_of_step {c c' : FitCheck} (h : c.step = .inl c') : c'.weight < c.weight := by
  obtain ⟨remaining, work, rest⟩ := c
  rw [step] at h
  split at h
  · cases h
  cases work with
  | nil =>
    cases rest with
    | nil => cases h
    | cons k rest =>
      cases h
      simp [weight, Doc.weightAll]
  | cons k work =>
    obtain ⟨mode, d⟩ := k
    cases d with
    | text s =>
      cases h
      simp [weight, Doc.weight, Doc.weightAll]
    | concat parts =>
      cases h
      simp [weight, Doc.weight, Doc.weightAll, Function.comp_def, Doc.weightAll_append]
    | indent body =>
      cases h
      simp [weight, Doc.weight, Doc.weightAll]
    | group body =>
      cases h
      simp [weight, Doc.weight, Doc.weightAll]
    | line =>
      cases mode <;> cases h
      simp [weight, Doc.weight, Doc.weightAll]
    | softLine =>
      cases mode <;> cases h
      simp [weight, Doc.weight, Doc.weightAll]
    | hardLine => cases h

def run (c : FitCheck) : Bool :=
  match _h : c.step with
  | .inl c' => run c'
  | .inr answer => answer
termination_by c.weight
decreasing_by exact weight_lt_of_step _h

def ahead (work : List (Mode × Doc)) (rest : List Command) : List Pending :=
  work.map (fun k => ⟨k.1, [k.2]⟩) ++ rest.map (fun k => ⟨k.mode, [k.doc]⟩)

/-- Whether what is printed up to the next line end takes at most the columns left. -/
def fits (c : FitCheck) : Bool := (Pending.leadAll (ahead c.work c.rest)).columns ≤ c.remaining

section

variable {remaining : Int} {mode : Mode} {d : Doc} {work : List (Mode × Doc)} {rest : List Command}

theorem leadAll_ahead_cons : Pending.leadAll (ahead ((mode, d) :: work) rest) =
    (d.lead mode).append (Pending.leadAll (ahead work rest)) :=
  Pending.leadAll_one mode d _

theorem leadAll_ahead_append (parts : List Doc) :
    Pending.leadAll (ahead (parts.map (mode, ·) ++ work) rest) =
      (Doc.leadAll mode parts).append (Pending.leadAll (ahead work rest)) := by
  rw [← Pending.leadAll_cons, ← Pending.leadAll_each]
  simp [ahead, Function.comp_def]

theorem fits_of_neg (h : remaining < 0) : fits ⟨remaining, work, rest⟩ = false :=
  decide_eq_false (by dsimp only; omega)

theorem fits_of_ended (h : ¬ remaining < 0) (hd : d.lead mode = ⟨0, true⟩) :
    fits ⟨remaining, (mode, d) :: work, rest⟩ = true := by
  rw [fits, leadAll_ahead_cons, hd]
  exact decide_eq_true (by simpa [Lead.append] using h)

theorem fits_of_goes {n : Nat} (hd : d.lead mode = ⟨n, false⟩) :
    fits ⟨remaining, (mode, d) :: work, rest⟩ = fits ⟨remaining - n, work, rest⟩ := by
  rw [fits, fits, leadAll_ahead_cons, hd]
  exact decide_eq_decide.mpr (by simp only [Lead.append, Bool.false_eq_true, if_false]; omega)

theorem fits_of_lead {mode' : Mode} {d' : Doc} (hd : d.lead mode = d'.lead mode') :
    fits ⟨remaining, (mode, d) :: work, rest⟩ = fits ⟨remaining, (mode', d') :: work, rest⟩ := by
  rw [fits, fits, leadAll_ahead_cons, leadAll_ahead_cons, hd]

end

/-- No turn changes the answer. -/
theorem elim_step (c : FitCheck) : c.step.elim fits id = c.fits := by
  obtain ⟨remaining, work, rest⟩ := c
  rw [step]
  split
  next hneg => exact (fits_of_neg hneg).symm
  next hpos =>
    cases work with
    | nil =>
      cases rest with
      | nil => exact (decide_eq_true (by simpa [ahead, Pending.leadAll] using hpos)).symm
      | cons k rest => rfl
    | cons k work =>
      obtain ⟨mode, d⟩ := k
      cases d with
      | text s => exact (fits_of_goes rfl).symm
      | concat parts =>
        simp only [Sum.elim_inl, fits, leadAll_ahead_append, leadAll_ahead_cons, Doc.lead]
      | indent body => exact fits_of_lead rfl
      | group body =>
        have same : (if mode == .broken && body.hasHardLine then Mode.broken else mode) = mode := by
          cases mode <;> simp
        dsimp only
        rw [same]
        exact fits_of_lead rfl
      | line =>
        cases mode with
        | flat => exact (fits_of_goes (n := 1) rfl).symm
        | broken => exact (fits_of_ended hpos rfl).symm
      | softLine =>
        cases mode with
        | flat => exact ((fits_of_goes (n := 0) rfl).trans (by simp)).symm
        | broken => exact (fits_of_ended hpos rfl).symm
      | hardLine => exact (fits_of_ended hpos rfl).symm

theorem run_eq_fits (c : FitCheck) : c.run = c.fits := by
  induction c using run.induct with
  | case1 c c' h ih => rw [run, h, ← elim_step, h]; exact ih
  | case2 c answer h => rw [run, h, ← elim_step, h]; rfl

end FitCheck

/-- The loop that prints: the text so far in reverse, the column after it, and the stack of what is
to be printed, the next document first. -/
structure Printer where
  out : List Char
  column : Nat
  stack : List Command

namespace Printer

def start (d : Doc) : Printer := ⟨[], 0, [⟨0, .broken, d⟩]⟩

/-- Ends the line without the spaces at its end, and indents the next one. -/
def newline (p : Printer) (indent : Nat) : Printer :=
  { p with out := List.replicate indent ' ' ++ '\n' :: Piece.trimmed p.out, column := indent }

/-- One turn of the loop, which goes on or ends with the text. -/
def step (o : Options) (p : Printer) : Printer ⊕ String :=
  match p.stack with
  | [] => .inr (String.ofList (Piece.trimmed p.out).reverse)
  | ⟨indent, mode, d⟩ :: stack =>
    match d with
    | .text s => .inl ⟨s.toList.reverse ++ p.out, p.column + s.length, stack⟩
    | .concat parts => .inl { p with stack := parts.map (⟨indent, mode, ·⟩) ++ stack }
    | .indent body => .inl { p with stack := ⟨o.deeper indent, mode, body⟩ :: stack }
    | .group body =>
      let flat := mode == .flat ||
        (!body.hasHardLine && FitCheck.run ⟨o.room p.column, [(.flat, body)], stack⟩)
      .inl { p with stack := ⟨indent, if flat then .flat else .broken, body⟩ :: stack }
    | .line =>
      match mode with
      | .flat => .inl ⟨' ' :: p.out, p.column + 1, stack⟩
      | .broken => .inl { p.newline indent with stack }
    | .softLine =>
      match mode with
      | .flat => .inl { p with stack }
      | .broken => .inl { p.newline indent with stack }
    | .hardLine => .inl { p.newline indent with stack }

def weight (p : Printer) : Nat := Doc.weightAll (p.stack.map Command.doc)

theorem weight_lt_of_step {p p' : Printer} (h : p.step o = .inl p') : p'.weight < p.weight := by
  obtain ⟨out, column, stack⟩ := p
  rw [step] at h
  cases stack with
  | nil => cases h
  | cons k stack =>
    obtain ⟨indent, mode, d⟩ := k
    cases d with
    | text s =>
      cases h
      simp [weight, Doc.weight, Doc.weightAll]
    | concat parts =>
      cases h
      simp [weight, Doc.weight, Doc.weightAll, Function.comp_def, Doc.weightAll_append]
    | indent body =>
      cases h
      simp [weight, Doc.weight, Doc.weightAll]
    | group body =>
      cases h
      simp [weight, Doc.weight, Doc.weightAll]
    | line =>
      cases mode <;> cases h <;> simp [weight, Doc.weight, Doc.weightAll]
    | softLine =>
      cases mode <;> cases h <;> simp [weight, Doc.weight, Doc.weightAll]
    | hardLine =>
      cases h
      simp [weight, Doc.weight, Doc.weightAll]

def run (o : Options) (p : Printer) : String :=
  match _h : p.step o with
  | .inl p' => run o p'
  | .inr text => text
termination_by p.weight
decreasing_by exact weight_lt_of_step _h

def pending (stack : List Command) : List Pending := stack.map fun k => ⟨k.mode, [k.doc]⟩

def pieces (o : Options) (column : Nat) : List Command → List Piece
  | [] => []
  | k :: stack =>
    let (here, column) := k.doc.pieces o k.indent k.mode (pending stack) column
    here ++ pieces o column stack

/-- The text so far and the pieces that are still to be printed. -/
def text (o : Options) (p : Printer) : String :=
  String.ofList (Piece.trimmed ((pieces o p.column p.stack).foldl Piece.write p.out)).reverse

/-- Parts one by one have the pieces that they have together. -/
theorem pieces_each (indent : Nat) (mode : Mode) (ds : List Doc) (stack : List Command)
    (column : Nat) : pieces o column (ds.map (⟨indent, mode, ·⟩) ++ stack) =
      (Doc.piecesAll o indent mode (pending stack) column ds).1 ++
        pieces o (Doc.piecesAll o indent mode (pending stack) column ds).2 stack := by
  induction ds generalizing column with
  | nil => rfl
  | cons d ds ih =>
    have behind : Pending.leadAll (pending (ds.map (⟨indent, mode, ·⟩) ++ stack)) =
        Pending.leadAll (⟨mode, ds⟩ :: pending stack) := by
      rw [← Pending.leadAll_each]
      simp [pending, Function.comp_def]
    simp only [List.map_cons, List.cons_append, pieces, d.pieces_congr _ _ _ behind, ih,
      Doc.piecesAll, List.append_assoc]

theorem run_fitCheck (body : Doc) (stack : List Command) (room : Int) :
    FitCheck.run ⟨room, [(.flat, body)], stack⟩ = body.fits (pending stack) room := by
  rw [FitCheck.run_eq_fits, FitCheck.fits, FitCheck.leadAll_ahead_cons]
  rfl

/-- No turn changes the text that is printed in the end. -/
theorem elim_step (p : Printer) : (p.step o).elim (text o) id = p.text o := by
  obtain ⟨out, column, stack⟩ := p
  rw [step]
  cases stack with
  | nil => rfl
  | cons k stack =>
    obtain ⟨indent, mode, d⟩ := k
    cases d with
    | text s => rfl
    | concat parts =>
      simp only [Sum.elim_inl, text, pieces_each, pieces, Doc.pieces]
    | indent body => rfl
    | group body =>
      simp only [Sum.elim_inl, text, pieces, Doc.pieces, run_fitCheck]
    | line => cases mode <;> rfl
    | softLine => cases mode <;> rfl
    | hardLine => rfl

theorem run_eq_text (p : Printer) : p.run o = p.text o := by
  induction p using run.induct o with
  | case1 p p' h ih => rw [run, h, ← elim_step, h]; exact ih
  | case2 p answer h => rw [run, h, ← elim_step, h]; rfl

theorem run_start (d : Doc) (o : Options) : (start d).run o = d.render o := by
  simp only [run_eq_text, text, start, pieces, List.append_nil]
  rfl

end Printer

end CPretty
