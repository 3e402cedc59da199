import CPretty.Text.CombiningMark
import CPretty.Text.Unprintable

namespace CPretty.Text

/-- A code point in hexadecimal, lower case and without leading zeros, between braces. -/
def hexEscape (c : Char) : List Char :=
  ['\\', 'u', '\x7b'] ++ Nat.toDigits 16 c.toNat ++ ['\x7d']

/-- One character as it stands between two `quote` characters. -/
def escapeChar (quote : Char) (c : Char) : List Char :=
  if c = '\x00' then ['\\', '0']
  else if c = '\t' then ['\\', 't']
  else if c = '\r' then ['\\', 'r']
  else if c = '\n' then ['\\', 'n']
  else if c = '\\' then ['\\', '\\']
  else if c = quote then ['\\', c]
  else if isCombiningMark c || isUnprintable c then hexEscape c
  else [c]

def quoteWith (quote : Char) (cs : List Char) : List Char :=
  quote :: cs.flatMap (escapeChar quote) ++ [quote]

def quoted (s : String) : String :=
  String.ofList (quoteWith '"' s.toList)

def quotedChar (c : Char) : String :=
  String.ofList (quoteWith '\'' [c])

end CPretty.Text
