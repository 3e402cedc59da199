import CPretty.Source.Location
import CPretty.Text.Quoted

namespace CPretty

/-- Why no token starts at a place. -/
inductive LexFault where
  | unexpectedChar (c : Char)
  | unterminatedComment
  | unterminatedString
  | unterminatedChar
  | emptyChar
  | malformedNumber (text : String)
deriving DecidableEq, Repr

namespace LexFault

def name : LexFault → String
  | .unexpectedChar _ => "UnexpectedChar"
  | .unterminatedComment => "UnterminatedComment"
  | .unterminatedString => "UnterminatedString"
  | .unterminatedChar => "UnterminatedChar"
  | .emptyChar => "EmptyChar"
  | .malformedNumber _ => "MalformedNumber"

def describe : LexFault → String
  | .unexpectedChar c => "unexpected character " ++ Text.quotedChar c
  | .unterminatedComment => "unterminated block comment"
  | .unterminatedString => "unterminated string literal"
  | .unterminatedChar => "unterminated character constant"
  | .emptyChar => "empty character constant"
  | .malformedNumber text => "malformed number " ++ Text.quoted text

end LexFault

/-- A fault and the place where the offending text starts. -/
structure LexError where
  fault : LexFault
  location : Location
deriving DecidableEq, Repr

def LexError.message (e : LexError) : String :=
  "Lexer error at " ++ e.location.describe ++ ": " ++ e.fault.describe

end CPretty
