import CPretty.Proofs.Doc.Stack

namespace CPretty

/-- A document with the mode of each of its groups. -/
inductive Arrangement where
  | text (s : String)
  | concat (parts : List Arrangement)
  | indent (body : Arrangement)
  | group (mode : Mode) (body : Arrangement)
  | line
  | softLine
  | hardLine

namespace Arrangement

mutual

def doc : Arrangement → Doc
  | .text s => .text s
  | .concat parts => .concat (docAll parts)
  | .indent body => .indent (doc body)
  | .group _ body => .group (doc body)
  | .line => .line
  | .softLine => .softLine
  | .hardLine => .hardLine

def docAll : List Arrangement → List Doc
  | [] => []
  | t :: ts => doc t :: docAll ts

end

mutual

/-- The groups, inner ones included, each with its mode and what it holds. -/
def groups : Arrangement → List (Mode × Arrangement)
  | .concat parts => groupsAll parts
  | .indent body => groups body
  | .group mode body => (mode, body) :: groups body
  | .text _ | .line | .softLine | .hardLine => []

def groupsAll : List Arrangement → List (Mode × Arrangement)
  | [] => []
  | t :: ts => groups t ++ groupsAll ts

end

mutual

/-- What is printed below `depth` indents, directly inside a group of the given mode. -/
def steps (indentation : Nat → Nat) (depth : Nat) (mode : Mode) : Arrangement → List Step
  | .text s => [.text s]
  | .concat parts => stepsAll indentation depth mode parts
  | .indent body => steps indentation (depth + 1) mode body
  | .group mode body => steps indentation depth mode body
  | .line =>
    match mode with
    | .flat => [.flat true]
    | .broken => [.newline (indentation depth)]
  | .softLine =>
    match mode with
    | .flat => [.flat false]
    | .broken => [.newline (indentation depth)]
  | .hardLine => [.newline (indentation depth)]

def stepsAll (indentation : Nat → Nat) (depth : Nat) (mode : Mode) : List Arrangement → List Step
  | [] => []
  | t :: ts => steps indentation depth mode t ++ stepsAll indentation depth mode ts

end

/-- The lines with a line end between each two of them, none with spaces at its end. Outside of any
group lines are broken. -/
def print (indentation : Nat → Nat) (t : Arrangement) : String :=
  String.ofList (['\n'].intercalate ((Step.lines (t.steps indentation 0 .broken)).map Line.chars))

section

variable {t : Arrangement} {ts : List Arrangement} {d : Doc} {ds : List Doc}

theorem doc_eq_text {s : String} : t.doc = .text s ↔ t = .text s := by cases t <;> simp [doc]

theorem doc_eq_concat : t.doc = .concat ds ↔ ∃ ts, docAll ts = ds ∧ t = .concat ts := by
  cases t <;> simp [doc]

theorem doc_eq_indent : t.doc = .indent d ↔ ∃ b, b.doc = d ∧ t = .indent b := by
  cases t <;> simp [doc]

theorem doc_eq_hardLine : t.doc = .hardLine ↔ t = .hardLine := by cases t <;> simp [doc]

theorem docAll_eq_nil : docAll ts = [] ↔ ts = [] := by cases ts <;> simp [docAll]

theorem docAll_eq_cons :
    docAll ts = d :: ds ↔ ∃ b, b.doc = d ∧ ∃ bs, docAll bs = ds ∧ ts = b :: bs := by
  cases ts <;> simp [docAll]

end

/-- The modes do not contradict each other or the hard lines. -/
structure Consistent (t : Arrangement) : Prop where
  /-- Every group that holds a hard line is broken. -/
  hard : ∀ g ∈ t.groups, g.2.doc.hasHardLine = true → g.1 = .broken
  /-- Every group inside a flat group is flat. -/
  flat : ∀ g ∈ t.groups, g.1 = .flat → ∀ g' ∈ g.2.groups, g'.1 = .flat

end Arrangement

/-- The spaces of so many levels of indentation, as a word of 64 bits. -/
def Options.indentation (o : Options) (depth : Nat) : Nat := o.tabWidth * depth % wordSize

@[simp] theorem Options.indentation_zero (o : Options) : o.indentation 0 = 0 := rfl

theorem Options.deeper_indentation (o : Options) (depth : Nat) :
    o.deeper (o.indentation depth) = o.indentation (depth + 1) := by
  rw [deeper, indentation, indentation, Nat.mod_add_mod, Nat.mul_succ]

theorem Options.deeper_mul {o : Options} {depth : Nat} (h : o.tabWidth * (depth + 1) < wordSize) :
    o.deeper (o.tabWidth * depth) = o.tabWidth * (depth + 1) := by
  rw [deeper, ← Nat.mul_succ, Nat.mod_eq_of_lt h]

namespace Doc

mutual

def depth : Doc → Nat
  | .concat parts => depthAll parts
  | .indent body => depth body + 1
  | .group body => depth body
  | .text _ | .line | .softLine | .hardLine => 0

def depthAll : List Doc → Nat
  | [] => 0
  | d :: ds => max (depth d) (depthAll ds)

end

mutual

/-- The modes that layout finds for the groups of a document. -/
def arrange (o : Options) (indent : Nat) (mode : Mode) (rest : List Pending) (start : Nat) :
    Doc → Arrangement
  | .text s => .text s
  | .concat parts => .concat (arrangeAll o indent mode rest start parts)
  | .indent body => .indent (arrange o (o.deeper indent) mode rest start body)
  | .group body =>
    let flat := mode == .flat || (!body.hasHardLine && fits body rest (o.room start))
    let mode := if flat then .flat else .broken
    .group mode (arrange o indent mode rest start body)
  | .line => .line
  | .softLine => .softLine
  | .hardLine => .hardLine

def arrangeAll (o : Options) (indent : Nat) (mode : Mode) (rest : List Pending) (start : Nat) :
    List Doc → List Arrangement
  | [] => []
  | d :: ds =>
    let after := (steps o indent mode (⟨mode, ds⟩ :: rest) start d).foldl Step.column start
    arrange o indent mode (⟨mode, ds⟩ :: rest) start d :: arrangeAll o indent mode rest after ds

end

variable {o : Options}

theorem doc_arrange (d : Doc) (indent : Nat) (mode : Mode) (rest : List Pending) (start : Nat) :
    (d.arrange o indent mode rest start).doc = d := by
  induction d using induction generalizing indent mode rest start with
  | text s => rfl
  | concat ds ih =>
    rw [arrange, Arrangement.doc]
    congr 1
    induction ds generalizing start with
    | nil => rfl
    | cons d ds ihs =>
      rw [arrangeAll, Arrangement.docAll, ih d List.mem_cons_self]
      congr 1
      apply ihs
      exact fun d hd => ih d (List.mem_cons_of_mem _ hd)
  | indent d ih => exact congrArg Doc.indent (ih _ _ _ _)
  | group d ih => exact congrArg Doc.group (ih _ _ _ _)
  | line => rfl
  | softLine => rfl
  | hardLine => rfl

/-- Under the modes that layout finds a document prints what layout prints. -/
theorem steps_arrange {f : Nat → Nat} (d : Doc) (depth : Nat)
    (hf : ∀ n < depth + d.depth, o.deeper (f n) = f (n + 1)) (mode : Mode) (rest : List Pending)
    (start : Nat) :
    (d.arrange o (f depth) mode rest start).steps f depth mode =
      d.steps o (f depth) mode rest start := by
  induction d using induction generalizing depth mode rest start with
  | text s => rfl
  | concat ds ih =>
    rw [arrange, Arrangement.steps, steps]
    rw [Doc.depth] at hf
    induction ds generalizing start with
    | nil => rfl
    | cons d ds ihs =>
      rw [depthAll] at hf
      rw [arrangeAll, Arrangement.stepsAll, stepsAll, ih d List.mem_cons_self depth
        fun n _ => hf n (by omega)]
      congr 1
      apply ihs
      · exact fun d hd => ih d (List.mem_cons_of_mem _ hd)
      · exact fun n _ => hf n (by omega)
  | indent d ih =>
    rw [Doc.depth] at hf
    rw [arrange, Arrangement.steps, steps, hf depth (by omega)]
    apply ih
    exact fun n _ => hf n (by omega)
  | group d ih => exact ih depth hf _ rest start
  | line => cases mode <;> rfl
  | softLine => cases mode <;> rfl
  | hardLine => rfl

theorem flat_of_mem_groups (d : Doc) (indent : Nat) (rest : List Pending) (start : Nat) :
    ∀ g ∈ (d.arrange o indent .flat rest start).groups, g.1 = .flat := by
  induction d using induction generalizing indent rest start with
  | text | line | softLine | hardLine => exact nofun
  | concat ds ih =>
    rw [arrange, Arrangement.groups]
    induction ds generalizing start with
    | nil => exact nofun
    | cons d ds ihs =>
      intro g hg
      rw [arrangeAll, Arrangement.groupsAll, List.mem_append] at hg
      rcases hg with hg | hg
      · exact ih d List.mem_cons_self _ _ _ g hg
      · exact ihs (fun d hd => ih d (List.mem_cons_of_mem _ hd)) _ g hg
  | indent d ih => exact ih _ rest start
  | group d ih => exact List.forall_mem_cons.mpr ⟨rfl, ih indent rest start⟩

/-- The body of each group is set in the mode of the group, which is flat only if the body holds no
hard line. -/
theorem exists_of_mem_groups (d : Doc) (indent : Nat) (mode : Mode) (rest : List Pending)
    (start : Nat) (h : mode = .flat → d.hasHardLine = false) :
    ∀ g ∈ (d.arrange o indent mode rest start).groups, ∃ body indent rest start,
      g.2 = arrange o indent g.1 rest start body ∧ (g.1 = .flat → body.hasHardLine = false) := by
  induction d using induction generalizing indent mode rest start with
  | text | line | softLine | hardLine => exact nofun
  | concat ds ih =>
    rw [arrange, Arrangement.groups]
    induction ds generalizing start with
    | nil => exact nofun
    | cons d ds ihs =>
      simp only [hasHardLine, anyHardLine, Bool.or_eq_false_iff] at h
      intro g hg
      rw [arrangeAll, Arrangement.groupsAll, List.mem_append] at hg
      rcases hg with hg | hg
      · exact ih d List.mem_cons_self _ _ _ _ (fun hm => (h hm).1) g hg
      · exact ihs (fun d hd => ih d (List.mem_cons_of_mem _ hd)) _ (fun hm => (h hm).2) g hg
  | indent d ih => exact ih _ mode rest start h
  | group d ih =>
    have inner : (if mode == .flat || (!d.hasHardLine && fits d rest (o.room start)) then Mode.flat
        else .broken) = .flat → d.hasHardLine = false := by
      intro hf
      by_cases hm : mode = .flat
      · exact h hm
      · simp only [beq_eq_false_iff_ne.mpr hm, Bool.false_or, ite_eq_left_iff,
          reduceCtorEq, imp_false,
          Decidable.not_not, Bool.and_eq_true, Bool.not_eq_true'] at hf
        exact hf.1
    rw [arrange, Arrangement.groups, List.forall_mem_cons]
    exact ⟨⟨d, _, _, _, rfl, inner⟩, ih indent _ rest start inner⟩

theorem consistent_arrange (d : Doc) (indent : Nat) (mode : Mode) (rest : List Pending)
    (start : Nat)
    (h : mode = .flat → d.hasHardLine = false) :
    (d.arrange o indent mode rest start).Consistent := by
  constructor
  · intro g hg hard
    obtain ⟨body, indent, rest, start, he, hf⟩ := d.exists_of_mem_groups _ _ _ _ h g hg
    rw [he, doc_arrange] at hard
    cases hm : g.1 with
    | flat =>
      rw [hf hm] at hard
      cases hard
    | broken => rfl
  · intro g hg hm
    obtain ⟨body, indent, rest, start, he, -⟩ := d.exists_of_mem_groups _ _ _ _ h g hg
    rw [he, hm]
    exact body.flat_of_mem_groups indent rest start

theorem print_arrange (d : Doc) {f : Nat → Nat} (h : f 0 = 0)
    (hf : ∀ n < d.depth, o.deeper (f n) = f (n + 1)) :
    (d.arrange o 0 .broken [] 0).print f = d.render o := by
  have steps := d.steps_arrange 0 (by simpa using hf) .broken [] 0
  rw [h] at steps
  rw [Arrangement.print, steps, ← linesAt, ← toList_render, String.ofList_toList]

/-- The loop of layout ends with the text of the document. It is what the document prints once each
of its groups is flat or broken, where groups with a hard line are broken and groups inside a flat
group are flat. A line is indented by the tab width for each indent around it, in words of
64 bits. -/
theorem render_eq_print (d : Doc) (o : Options) : (Printer.start d).run o = d.render o ∧
    ∃ t : Arrangement, t.doc = d ∧ t.Consistent ∧ d.render o = t.print o.indentation ∧
      (o.tabWidth * d.depth < Options.wordSize → d.render o = t.print (o.tabWidth * ·)) := by
  refine ⟨Printer.run_start d o, d.arrange o 0 .broken [] 0, d.doc_arrange ..,
    d.consistent_arrange _ _ _ _ nofun, ?_, ?_⟩
  · exact (d.print_arrange o.indentation_zero fun n _ => o.deeper_indentation n).symm
  · intro h
    symm
    apply d.print_arrange
    · rfl
    · intro n hn
      apply Options.deeper_mul
      exact Nat.lt_of_le_of_lt (Nat.mul_le_mul_left _ hn) h

/-- A group is broken for its hard lines. Of the two groups in it one is flat, though its text ends
in a space, and one is broken because it does not fit. -/
theorem render_eq_print_nested :
    let d : Doc := .group (.concat [.text "\x7b", .indent (.concat [.hardLine,
      .group (.concat [.text "a", .softLine, .text "b", .line]), .hardLine,
      .group (.indent (.concat [.text "gamma +", .line, .text "delta"]))]), .hardLine,
      .text "\x7d"])
    (Printer.start d).run ⟨14, 4, 64⟩ = "\x7b\n    ab\n    gamma +\n        delta\n\x7d" ∧
    ∃ t : Arrangement, t.doc = d ∧ t.Consistent ∧
      "\x7b\n    ab\n    gamma +\n        delta\n\x7d" = t.print (4 * ·) := by
  intro d
  obtain ⟨hr, t, hd, hc, -, ht⟩ := render_eq_print d ⟨14, 4, 64⟩
  have text : d.render ⟨14, 4, 64⟩ = "\x7b\n    ab\n    gamma +\n        delta\n\x7d" := by
    decide +kernel
  exact ⟨hr.trans text, t, hd, hc, text ▸ ht (by decide)⟩

def twoDeep : Doc := .indent (.indent (.concat [.hardLine, .text "x"]))

theorem toList_print_twoDeep {t : Arrangement} (ht : t.doc = twoDeep) (f : Nat → Nat) :
    (t.print f).toList = '\n' :: (List.replicate (f 2) ' ' ++ ['x']) := by
  have shape : t = .indent (.indent (.concat [.hardLine, .text "x"])) := by
    simpa [twoDeep, Arrangement.doc_eq_indent, Arrangement.doc_eq_concat,
      Arrangement.docAll_eq_cons, Arrangement.docAll_eq_nil, Arrangement.doc_eq_hardLine,
      Arrangement.doc_eq_text] using ht
  have steps : t.steps f 0 .broken = [.newline (f 2), .text "x"] := by
    rw [shape]
    rfl
  rw [Arrangement.print, steps, String.toList_ofList]
  simp [Step.lines, Step.isNewline, Line.chars, Step.chars, Piece.trimmed]

/-- Beyond that the indentation wraps around: where a level is half a word, a line two levels deep
starts in the first column. -/
theorem render_ne_print {o : Options} (ho : o.tabWidth * 2 = Options.wordSize) :
    twoDeep.render o = "\nx" ∧
      ∀ t : Arrangement, t.doc = twoDeep → twoDeep.render o ≠ t.print (o.tabWidth * ·) := by
  have wrapped : o.indentation 2 = 0 := by rw [Options.indentation, ho, Nat.mod_self]
  have text : (twoDeep.render o).toList = ['\n', 'x'] := by
    rw [← twoDeep.print_arrange o.indentation_zero fun n _ => o.deeper_indentation n,
      toList_print_twoDeep (twoDeep.doc_arrange ..), wrapped]
    rfl
  refine ⟨String.toList_inj.mp text, fun t ht he => ?_⟩
  have length := congrArg List.length (toList_print_twoDeep ht (o.tabWidth * ·))
  rw [← he, text] at length
  simp only [List.length_cons, List.length_nil, List.length_append, List.length_replicate] at length
  rw [Options.wordSize] at ho
  omega

end Doc

end CPretty
