import CPretty.Doc.Basic
import CPretty.Text.Quoted

namespace CPretty.Doc

mutual

def dumpChars : Doc → List Char
  | .text s => Text.quoteWith '"' s.toList
  | .concat parts => '[' :: dumpParts parts ++ [']']
  | .indent body => "indent(".toList ++ dumpChars body ++ [')']
  | .group body => "group(".toList ++ dumpChars body ++ [')']
  | .line => "line".toList
  | .softLine => "softline".toList
  | .hardLine => "hardline".toList

/-- The written forms of the parts with a comma and a space between each two. -/
def dumpParts : List Doc → List Char
  | [] => []
  | [d] => dumpChars d
  | d :: ds => dumpChars d ++ ',' :: ' ' :: dumpParts ds

end

def dump (d : Doc) : String := String.ofList d.dumpChars

end CPretty.Doc
