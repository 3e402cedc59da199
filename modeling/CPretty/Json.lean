namespace CPretty

/-- A JSON value. Numbers are the natural ones, and an object keeps the order of its fields. -/
inductive Json where
  | null
  | bool (b : Bool)
  | num (n : Nat)
  | str (s : String)
  | arr (items : List Json)
  | obj (fields : List (String × Json))

namespace Json

def optional (value : Option Json) : Json := value.getD .null

/-- One character of a string: quotes, backslashes and control characters are escaped. -/
def escapeChar (c : Char) : String :=
  if c = '"' then "\\\""
  else if c = '\\' then "\\\\"
  else if c = '\x08' then "\\b"
  else if c = '\x0c' then "\\f"
  else if c = '\n' then "\\n"
  else if c = '\r' then "\\r"
  else if c = '\t' then "\\t"
  else if c.toNat < 0x10 then "\\u000" ++ String.ofList (Nat.toDigits 16 c.toNat)
  else if c.toNat < 0x20 then "\\u00" ++ String.ofList (Nat.toDigits 16 c.toNat)
  else c.toString

def quote (s : String) : String :=
  "\"" ++ String.join (s.toList.map escapeChar) ++ "\""

def lineBreak (depth : Nat) : String := "\n" ++ String.ofList (List.replicate (2 * depth) ' ')

mutual

/-- The text of a value whose lines are indented by two spaces a level. -/
def indented (depth : Nat) : Json → String
  | .null => "null"
  | .bool b => if b then "true" else "false"
  | .num n => toString n
  | .str s => quote s
  | .arr [] => "[]"
  | .arr (item :: items) =>
    "[" ++ lineBreak (depth + 1) ++ indented (depth + 1) item ++
      indentedItems (depth + 1) items ++ lineBreak depth ++ "]"
  | .obj [] => "\x7b\x7d"
  | .obj ((name, value) :: fields) =>
    "\x7b" ++ lineBreak (depth + 1) ++ quote name ++ ": " ++ indented (depth + 1) value ++
      indentedFields (depth + 1) fields ++ lineBreak depth ++ "\x7d"

def indentedItems (depth : Nat) : List Json → String
  | [] => ""
  | item :: items =>
    "," ++ lineBreak depth ++ indented depth item ++ indentedItems depth items

def indentedFields (depth : Nat) : List (String × Json) → String
  | [] => ""
  | (name, value) :: fields =>
    "," ++ lineBreak depth ++ quote name ++ ": " ++ indented depth value ++
      indentedFields depth fields

end

def pretty (j : Json) : String := indented 0 j

end Json

end CPretty
