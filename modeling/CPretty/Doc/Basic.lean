namespace CPretty

/-- Layout instructions: what to print and where a line may break, but not where it does. -/
inductive Doc where
  /-- Text that is never broken. -/
  | text (s : String)
  | concat (parts : List Doc)
  /-- Lines broken inside start one level deeper. -/
  | indent (body : Doc)
  /-- Flat if it fits; otherwise every line directly inside breaks. -/
  | group (body : Doc)
  /-- A space when flat, a line end when broken. -/
  | line
  /-- Nothing when flat, a line end when broken. -/
  | softLine
  /-- Always a line end; the groups around it break. -/
  | hardLine
deriving Repr, Inhabited

namespace Doc

/-- The documents in order with `separator` between each two of them. -/
def join (separator : Doc) (docs : List Doc) : Doc :=
  .concat (docs.intersperse separator)

mutual

def hasHardLine : Doc → Bool
  | .hardLine => true
  | .concat parts => anyHardLine parts
  | .indent body | .group body => hasHardLine body
  | .text _ | .line | .softLine => false

def anyHardLine : List Doc → Bool
  | [] => false
  | d :: ds => hasHardLine d || anyHardLine ds

end

end Doc

end CPretty
