import CPretty.Doc.Layout

namespace CPretty

namespace Doc

variable {o : Options} {rest rest' : List Pending}

theorem induction {P : Doc → Prop} (text : ∀ s, P (.text s))
    (concat : ∀ ds : List Doc, (∀ d ∈ ds, P d) → P (.concat ds)) (indent : ∀ d, P d → P (.indent d))
    (group : ∀ d, P d → P (.group d)) (line : P .line) (softLine : P .softLine)
    (hardLine : P .hardLine) (d : Doc) : P d :=
  @Doc.rec P (fun ds => ∀ d ∈ ds, P d) text concat indent group line softLine hardLine
    (fun _ h => absurd h List.not_mem_nil) (fun _ _ hd hds => List.forall_mem_cons.mpr ⟨hd, hds⟩) d

theorem leadAll_cons_congr (h : Pending.leadAll rest = Pending.leadAll rest') (p : Pending) :
    Pending.leadAll (p :: rest) = Pending.leadAll (p :: rest') := by
  simp only [Pending.leadAll, h]

/-- What comes after a document bears on its layout up to the next line end only. -/
theorem pieces_congr (d : Doc) : ∀ {rest rest' : List Pending} (indent : Nat) (mode : Mode)
    (column : Nat), Pending.leadAll rest = Pending.leadAll rest' →
    pieces o indent mode rest column d = pieces o indent mode rest' column d := by
  induction d using induction with
  | text s => exact fun _ _ _ _ => rfl
  | concat ds ih =>
    intro rest rest' indent mode column h
    rw [pieces, pieces]
    induction ds generalizing column with
    | nil => rfl
    | cons d ds ihs =>
      have tail := ihs fun d hd => ih d (List.mem_cons_of_mem _ hd)
      rw [piecesAll, piecesAll, ih d List.mem_cons_self indent mode column (leadAll_cons_congr h _)]
      simp only [tail]
  | indent d ih =>
    intro rest rest' indent mode column h
    rw [pieces, pieces, ih _ _ _ h]
  | group d ih =>
    intro rest rest' indent mode column h
    rw [pieces, pieces, fits, fits, h, ih _ _ _ h]
  | line => exact fun _ _ _ _ => rfl
  | softLine => exact fun _ _ _ _ => rfl
  | hardLine => exact fun _ _ _ _ => rfl

def linePieces (o : Options) (d : Doc) : List Piece :=
  (pieces o 0 .broken [⟨.broken, [.hardLine]⟩] 0 d).1 ++ [.newline 0]

def lines : List Doc → Doc
  | [] => .concat []
  | ds => .concat [join .hardLine ds, .hardLine]

theorem piecesAll_intersperse (d : Doc) (ds : List Doc) :
    (piecesAll o 0 .broken [⟨.broken, [.hardLine]⟩] 0 ((d :: ds).intersperse .hardLine)).1 ++
      [.newline 0] = (d :: ds).flatMap (linePieces o) := by
  induction ds generalizing d with
  | nil =>
    have last : pieces o 0 .broken [⟨.broken, []⟩, ⟨.broken, [.hardLine]⟩] 0 d =
        pieces o 0 .broken [⟨.broken, [.hardLine]⟩] 0 d := pieces_congr d 0 .broken 0 rfl
    simp [piecesAll, linePieces, last]
  | cons d' ds ih =>
    have first : pieces o 0 .broken
        [⟨.broken, .hardLine :: (d' :: ds).intersperse .hardLine⟩, ⟨.broken, [.hardLine]⟩] 0 d =
          pieces o 0 .broken [⟨.broken, [.hardLine]⟩] 0 d := pieces_congr d 0 .broken 0 rfl
    have shape : (d :: d' :: ds).intersperse .hardLine =
        d :: .hardLine :: (d' :: ds).intersperse .hardLine := rfl
    rw [List.flatMap_cons, ← ih d', shape]
    simp [piecesAll, pieces, linePieces, first]

theorem pieces_lines (ds : List Doc) :
    ((lines ds).pieces o 0 .broken [] 0).1 = ds.flatMap (linePieces o) := by
  cases ds with
  | nil => rfl
  | cons d ds =>
    rw [← piecesAll_intersperse, lines, pieces, piecesAll, join, pieces]
    · simp [piecesAll, pieces]
    · exact nofun

end Doc

namespace Piece

theorem trimmed_append {xs out : List Char} (h : out.head? ≠ some ' ') :
    trimmed (xs ++ out) = trimmed xs ++ out := by
  induction xs with
  | nil =>
    cases out with
    | nil => rfl
    | cons c out =>
      have hc : ¬ (c == ' ') = true := fun hc => h (congrArg some (eq_of_beq hc))
      simp [trimmed, hc]
  | cons x xs ih =>
    rw [List.cons_append, trimmed, trimmed, List.dropWhile_cons, List.dropWhile_cons]
    split
    · exact ih
    · rfl

/-- Behind a line end the pieces of a document are written as at the start. -/
theorem foldl_write {out : List Char} (h : out.head? ≠ some ' ') (ps : List Piece)
    (xs : List Char) :
    ps.foldl write (xs ++ out) = ps.foldl write xs ++ out := by
  induction ps generalizing xs with
  | nil => rfl
  | cons p ps ih =>
    have first : write (xs ++ out) p = write xs p ++ out := by
      cases p with
      | text s => simp [write]
      | space => rfl
      | newline indent => simp [write, trimmed_append h]
    rw [List.foldl_cons, List.foldl_cons, first, ih]

end Piece

namespace Doc

/-- The text of a document on lines of its own, with the line end after it. -/
def lineText (o : Options) (d : Doc) : List Char := ((linePieces o d).foldl Piece.write []).reverse

theorem foldl_linePieces (o : Options) (d : Doc) :
    ∃ xs, (linePieces o d).foldl Piece.write [] = '\n' :: xs := by
  rw [linePieces, List.foldl_append]
  exact ⟨_, rfl⟩

/-- Lines are written one after another, and a line end stands before the next. -/
theorem foldl_lines (o : Options) (ds : List Doc) {out : List Char} (h : out.head? ≠ some ' ') :
    (ds.flatMap (linePieces o)).foldl Piece.write out = (ds.flatMap (lineText o)).reverse ++ out ∧
      ((ds.flatMap (lineText o)).reverse ++ out).head? ≠ some ' ' := by
  induction ds generalizing out with
  | nil => exact ⟨rfl, h⟩
  | cons d ds ih =>
    have first := Piece.foldl_write h (linePieces o d) []
    have line : ((lineText o d).reverse ++ out).head? ≠ some ' ' := by
      obtain ⟨xs, hx⟩ := foldl_linePieces o d
      rw [lineText, List.reverse_reverse, hx]
      simp
    obtain ⟨he, hh⟩ := ih line
    rw [List.nil_append] at first
    rw [List.flatMap_cons, List.foldl_append, first, List.flatMap_cons, List.reverse_append,
      List.append_assoc]
    rw [lineText, List.reverse_reverse] at he hh ⊢
    exact ⟨he, hh⟩

theorem render_lines (o : Options) (ds : List Doc) :
    (lines ds).render o = String.ofList (ds.flatMap (lineText o)) := by
  obtain ⟨he, hh⟩ := foldl_lines o ds (show ([] : List Char).head? ≠ some ' ' from nofun)
  rw [List.append_nil] at he hh
  rw [render, pieces_lines, Piece.assemble, he]
  have last : Piece.trimmed ([] ++ (ds.flatMap (lineText o)).reverse) =
      (ds.flatMap (lineText o)).reverse := Piece.trimmed_append hh
  rw [List.nil_append] at last
  rw [last, List.reverse_reverse]

theorem render_lines_append (o : Options) (ds ds' : List Doc) :
    (lines (ds ++ ds')).render o = (lines ds).render o ++ (lines ds').render o := by
  rw [render_lines, render_lines, render_lines, List.flatMap_append, String.ofList_append]

end Doc
end CPretty
