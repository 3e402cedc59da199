import CPretty.Token.Basic

namespace CPretty

/-- What a token is and how it is spelled, wherever it stands. -/
structure Key where
  kind : Kind
  text : String
deriving DecidableEq, Repr

def Kind.brackets : List Kind := [.lBrace, .rBrace, .lBracket, .rBracket]

namespace Token

def key (t : Token) : Key := ⟨t.kind, t.text⟩

/-- The key of a token, where brackets and braces have their canonical spelling. -/
def canonicalKey (t : Token) : Key :=
  if t.kind ∈ Kind.brackets then ⟨t.kind, t.kind.spelling.getD t.text⟩
  else t.key

end Token

/-- The canonical keys of a list of tokens without the commas directly before a closing brace. -/
def canonicalKeys : List Token → List Key
  | [] => []
  | t :: ts =>
    if t.kind = .comma ∧ ts.head?.any (·.kind == .rBrace) then canonicalKeys ts
    else t.canonicalKey :: canonicalKeys ts

@[simp] theorem canonicalKeys_nil : canonicalKeys [] = [] := rfl

theorem canonicalKeys_cons {t : Token} (h : t.kind ≠ .comma) (ts : List Token) :
    canonicalKeys (t :: ts) = t.canonicalKey :: canonicalKeys ts := by
  rw [canonicalKeys, if_neg fun hc => h hc.1]

theorem canonicalKeys_comma {t : Token} {ts : List Token}
    (h : ∀ u ∈ ts.head?, u.kind ≠ .rBrace) :
    canonicalKeys (t :: ts) = t.canonicalKey :: canonicalKeys ts := by
  refine if_neg fun hc => ?_
  cases ts with
  | nil => simp at hc
  | cons u us => exact h u rfl (by simpa using hc.2)

theorem canonicalKeys_trailing {t u : Token} {ts : List Token} (ht : t.kind = .comma)
    (hu : u.kind = .rBrace) : canonicalKeys (t :: u :: ts) = canonicalKeys (u :: ts) := by
  rw [canonicalKeys, if_pos ⟨ht, by simp [hu]⟩]

end CPretty
