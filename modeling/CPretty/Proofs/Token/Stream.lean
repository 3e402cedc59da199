import CPretty.Proofs.Token.Adjacent
import CPretty.Token.Lexer

namespace CPretty

open Scan

variable {b : Bool} {c : Char} {cs text : List Char} {k : Kind}

theorem exists_ok_of_any {ε α : Type} {x : Except ε α} {p : α → Bool}
    (h : x.toOption.any p = true) : ∃ a, x = .ok a ∧ p a = true := by
  cases x with
  | error e => cases h
  | ok a => exact ⟨a, rfl, h⟩

theorem exists_error_of_any {ε α : Type} {x : Except ε α} {p : ε → Bool}
    (h : (match x with | .error e => p e | .ok _ => false) = true) :
    ∃ e, x = .error e ∧ p e = true := by
  cases x with
  | error e => exact ⟨e, rfl, h⟩
  | ok a => cases h

namespace Scan

theorem token_of_lexeme (h : lexeme b c cs = (.token k, text)) : token c cs = (.token k, text) := by
  unfold lexeme at h
  split at h
  · cases h
  · split at h
    · cases h
    · dsimp only at h
      split at h <;> cases h
    · exact h

end Scan

/-- A token among the lexemes of a text was read at its place. -/
theorem lexed_of_mem_lexemesFrom {loc : Location} {b : Bool} {n : Nat} {cs : List Char}
    {l : Located} {t : Token} (h : l ∈ lexemesFrom loc b n cs) (ht : l.token? = some t) :
    t.Lexed := by
  fun_induction lexemesFrom loc b n cs with
  | case1 => cases h
  | case2 _ _ _ _ _ ih => exact ih h
  | case3 _ _ _ _ _ ih => exact ih h
  | case4 loc b c cs _ lexeme text he ih =>
    rcases List.mem_cons.mp h with rfl | h
    · cases lexeme with
      | token k =>
        cases ht
        rw [Token.Lexed, String.toList_ofList]
        exact token_ok (Scan.token_of_lexeme he)
      | _ => cases ht
    · exact ih h

theorem lexed_of_tokenize {source : String} {s : TokenStream} (h : tokenize source = .ok s) :
    ∀ t ∈ s.tokens, t.Lexed := by
  intro t ht
  rw [tokenize] at h
  split at h
  · cases h
    obtain ⟨l, hl, htl⟩ := List.mem_filterMap.mp ht
    exact lexed_of_mem_lexemesFrom hl htl
  · cases h

def tokenKeys (ls : List Located) : List Key := (ls.filterMap Located.token?).map Token.key

/-- The lexemes are the given tokens, with no comments or faults between them. -/
def AreTokens (ls : List Located) (ks : List Key) : Prop :=
  ls.map (fun l => (l.lexeme, l.text)) = ks.map fun k => (.token k.kind, k.text)

theorem AreTokens.tokenKeys {ls : List Located} {ks : List Key} (h : AreTokens ls ks) :
    tokenKeys ls = ks ∧ ls.filterMap Located.error? = [] ∧ ls.filterMap Located.comment? = [] := by
  induction ls generalizing ks with
  | nil =>
    cases ks with
    | nil => exact ⟨rfl, rfl, rfl⟩
    | cons k ks => cases h
  | cons l ls ih =>
    cases ks with
    | nil => cases h
    | cons k ks =>
      obtain ⟨lexeme, text, loc⟩ := l
      simp only [AreTokens, List.map_cons, List.cons.injEq, Prod.mk.injEq] at h
      obtain ⟨⟨rfl, rfl⟩, h⟩ := h
      obtain ⟨hk, he, hc⟩ := ih h
      refine ⟨?_, ?_, ?_⟩
      · rw [CPretty.tokenKeys, List.filterMap_cons, Located.token?, List.map_cons]
        exact congrArg (k :: ·) hk
      · rw [List.filterMap_cons, Located.error?]
        exact he
      · rw [List.filterMap_cons, Located.comment?]
        exact hc

theorem or_contains_cons (b : Bool) (c : Char) (cs : List Char) :
    (b || (c :: cs).contains '\n') = (b || c == '\n' || cs.contains '\n') := by
  rw [List.contains_cons, Bool.or_assoc, Bool.beq_comm]

theorem lexemesFrom_behind (loc : Location) (b : Bool) (xs rest : List Char) :
    lexemesFrom loc b xs.length (xs ++ rest) =
      lexemesFrom (loc.after xs) (b || xs.contains '\n') 0 rest := by
  induction xs generalizing loc b with
  | nil => simp
  | cons x xs ih =>
    rw [List.length_cons, List.cons_append, lexemesFrom, ih, or_contains_cons, Location.after_cons]

theorem lexemesFrom_lexeme {l : Lexeme} {xs rest : List Char} (hb : Text.isBlank c = false)
    (h : Scan.lexeme b c (xs ++ rest) = (l, c :: xs)) (loc : Location) :
    lexemesFrom loc b 0 (c :: (xs ++ rest)) = ⟨l, String.ofList (c :: xs), loc⟩ ::
      lexemesFrom (loc.after (c :: xs)) (b && l.isComment || xs.contains '\n') 0 rest := by
  rw [lexemesFrom, if_neg (by simp [hb]), h]
  exact congrArg (_ :: ·) (lexemesFrom_behind _ _ xs rest)

end CPretty
