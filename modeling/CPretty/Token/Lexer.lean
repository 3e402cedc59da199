import CPretty.Text.Blank
import CPretty.Token.Scan

namespace CPretty

/-- A lexeme with its text and the place of its first character. -/
structure Located where
  lexeme : Lexeme
  text : String
  location : Location
deriving DecidableEq, Repr

namespace Located

def token? (l : Located) : Option Token :=
  match l.lexeme with
  | .token kind => some ⟨kind, l.text, l.location⟩
  | _ => none

def comment? (l : Located) : Option Comment :=
  match l.lexeme with
  | .comment kind => some ⟨kind, l.text, l.location⟩
  | _ => none

def error? (l : Located) : Option LexError :=
  match l.lexeme with
  | .fault reason => some ⟨reason, l.location⟩
  | _ => none

end Located

/-- The lexemes of `cs`, whose first character stands at `loc`. The first `skip` characters belong
to a lexeme already listed. The flag `lineStart` tells that only blanks and comments were passed
since the last line end. -/
def lexemesFrom (loc : Location) (lineStart : Bool) : (skip : Nat) → List Char → List Located
  | _, [] => []
  | skip + 1, c :: cs => lexemesFrom (loc.next c) (lineStart || c == '\n') skip cs
  | 0, c :: cs =>
    if Text.isBlank c then lexemesFrom (loc.next c) (lineStart || c == '\n') 0 cs
    else
      let (lexeme, text) := Scan.lexeme lineStart c cs
      ⟨lexeme, String.ofList text, loc⟩ ::
        lexemesFrom (loc.next c) (lineStart && lexeme.isComment) (text.length - 1) cs

def lexemes (source : String) : List Located :=
  lexemesFrom .start true 0 source.toList

/-- The tokens and comments of a source, or all its faults: lexing never stops at one. -/
def tokenize (source : String) : Except (List LexError) TokenStream :=
  let found := lexemes source
  match found.filterMap Located.error? with
  | [] =>
    .ok {
      tokens := found.filterMap Located.token?
      comments := found.filterMap Located.comment?
      finish := Location.start.after source.toList }
  | errors => .error errors

end CPretty
