import CPretty.Doc.Basic
import CPretty.Options.Basic

namespace CPretty

/-- Whether the lines of a group are printed as spaces or as line ends. -/
inductive Mode where
  | flat | broken
deriving DecidableEq, Repr

/-- What is printed before the next line end: its width, and whether that line end was met. -/
structure Lead where
  columns : Nat
  ended : Bool
deriving DecidableEq, Repr

namespace Lead

def append (a : Lead) (b : Lead) : Lead :=
  if a.ended then a else ⟨a.columns + b.columns, b.ended⟩

end Lead

/-- Documents still to be printed, with the mode they are printed in. -/
structure Pending where
  mode : Mode
  docs : List Doc

/-- What layout prints: a text, a space or a line end with the indentation after it. -/
inductive Piece where
  | text (s : String)
  | space
  | newline (indent : Nat)
deriving DecidableEq, Repr

namespace Doc

mutual

/-- The lead of a document printed in a given mode. -/
def lead (mode : Mode) : Doc → Lead
  | .text s => ⟨s.length, false⟩
  | .concat parts => leadAll mode parts
  | .indent body | .group body => lead mode body
  | .line =>
    match mode with
    | .flat => ⟨1, false⟩
    | .broken => ⟨0, true⟩
  | .softLine =>
    match mode with
    | .flat => ⟨0, false⟩
    | .broken => ⟨0, true⟩
  | .hardLine => ⟨0, true⟩

def leadAll (mode : Mode) : List Doc → Lead
  | [] => ⟨0, false⟩
  | d :: ds =>
    let a := lead mode d
    if a.ended then a else a.append (leadAll mode ds)

end

end Doc

def Pending.leadAll : List Pending → Lead
  | [] => ⟨0, false⟩
  | p :: ps =>
    let a := Doc.leadAll p.mode p.docs
    if a.ended then a else a.append (Pending.leadAll ps)

namespace Doc

/-- Whether a document printed flat, and what follows it on the line, takes at most `room`
columns. -/
def fits (d : Doc) (rest : List Pending) (room : Int) : Bool :=
  ((d.lead .flat).append (Pending.leadAll rest)).columns ≤ room

mutual

/-- The pieces of a document that starts at `column` and is followed by `rest`, and the column
after it. -/
def pieces (o : Options) (indent : Nat) (mode : Mode) (rest : List Pending) (column : Nat) :
    Doc → List Piece × Nat
  | .text s => ([.text s], column + s.length)
  | .concat parts => piecesAll o indent mode rest column parts
  | .indent body => pieces o (o.deeper indent) mode rest column body
  | .group body =>
    let flat := mode == .flat || (!body.hasHardLine && fits body rest (o.room column))
    pieces o indent (if flat then .flat else .broken) rest column body
  | .line =>
    match mode with
    | .flat => ([.space], column + 1)
    | .broken => ([.newline indent], indent)
  | .softLine =>
    match mode with
    | .flat => ([], column)
    | .broken => ([.newline indent], indent)
  | .hardLine => ([.newline indent], indent)

def piecesAll (o : Options) (indent : Nat) (mode : Mode) (rest : List Pending) (column : Nat) :
    List Doc → List Piece × Nat
  | [] => ([], column)
  | d :: ds =>
    let (here, column) := pieces o indent mode (⟨mode, ds⟩ :: rest) column d
    let (there, column) := piecesAll o indent mode rest column ds
    (here ++ there, column)

end

end Doc

namespace Piece

/-- Without the spaces at the end of a text that is held in reverse. -/
def trimmed (out : List Char) : List Char := out.dropWhile (· == ' ')

def write (out : List Char) : Piece → List Char
  | .text s => s.toList.reverse ++ out
  | .space => ' ' :: out
  | .newline indent => List.replicate indent ' ' ++ '\n' :: trimmed out

def assemble (ps : List Piece) : String :=
  String.ofList (trimmed (ps.foldl write [])).reverse

end Piece

/-- The text of a document. A group is flat when what it prints up to the next line end, together
with what follows it there, fits on the line; a group that holds a hard line is never flat. Blanks
before a line end and at the end of the text are dropped. -/
def Doc.render (d : Doc) (o : Options) : String :=
  Piece.assemble (d.pieces o 0 .broken [] 0).1

end CPretty
