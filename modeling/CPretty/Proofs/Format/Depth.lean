import CPretty.Proofs.Format.Tokens
import CPretty.Proofs.Grammar.Nesting

namespace CPretty

variable {source : String} {o : Options} {parsed : Parsed} {stream : TokenStream} {ts : List Token}

theorem TokenStream.depth_le_of_parse {limit : Nat} {n : Node} (h : stream.parse limit = .ok n)
    (ht : ts <+: stream.tokens) : (OpenBrackets.after ts).depth ≤ 2 * limit + 2 := by
  rw [TokenStream.parse] at h
  cases hr : Grammar.sourceFile (.levels limit limit) ⟨stream.tokens, Token.eof stream.finish⟩ with
  | error e => rw [hr] at h; cases h
  | ok r =>
    obtain ⟨n, d⟩ := r
    have ended : (⟨stream.tokens, Token.eof stream.finish⟩ : Cursor).Ended := rfl
    obtain ⟨sp, ns, -, -, hd⟩ := Grammar.sourceFile_reads (.levels limit limit) ended hr
    have room : Room (2 * limit + 2) (2 * limit + 2) [] := by simp [Room]
    obtain ⟨xs, p, hx⟩ := Grammar.sourceFile_opens (.levels limit limit) room n d ended hr false
    have hp := p.ahead
    rw [hd, List.append_nil] at hp
    exact hx.depth_le (hp ▸ ht)

/-- At no point of a source that parses are more brackets open at once than twice the nesting limit
and two more, where parentheses directly after `_Atomic` do not count. -/
theorem open_brackets_le (hs : tokenize source = .ok stream) (hp : parse source o = .ok parsed)
    (ht : ts <+: stream.tokens) :
    (OpenBrackets.after ts).depth ≤ 2 * min o.maxNestingDepth 256 + 2 := by
  obtain ⟨stream', hs', htree, -⟩ := parse_cases hp
  rw [hs] at hs'
  cases hs'
  exact TokenStream.depth_le_of_parse htree ht

/-- Nine parentheses of atomic types are open at once within a limit of one, and none counts. -/
theorem open_brackets_le_atomic : ∃ stream parsed,
    tokenize
      "_Atomic(_Atomic(_Atomic(_Atomic(_Atomic(_Atomic(_Atomic(_Atomic(_Atomic(int))))))))) x;" =
        .ok stream ∧
    parse
      "_Atomic(_Atomic(_Atomic(_Atomic(_Atomic(_Atomic(_Atomic(_Atomic(_Atomic(int))))))))) x;"
      ⟨80, 2, 1⟩ = .ok parsed ∧
    (OpenBrackets.after (stream.tokens.take 18)).counted.length = 9 ∧
    (OpenBrackets.after (stream.tokens.take 18)).depth ≤ 2 * min 1 256 + 2 := by
  obtain ⟨stream, hs, hl⟩ := exists_ok_of_any
    (x := tokenize
      "_Atomic(_Atomic(_Atomic(_Atomic(_Atomic(_Atomic(_Atomic(_Atomic(_Atomic(int))))))))) x;")
    (p := fun s => (OpenBrackets.after (s.tokens.take 18)).counted.length == 9) (by decide +kernel)
  obtain ⟨parsed, hp, -⟩ := exists_ok_of_any
    (x := parse
      "_Atomic(_Atomic(_Atomic(_Atomic(_Atomic(_Atomic(_Atomic(_Atomic(_Atomic(int))))))))) x;"
      ⟨80, 2, 1⟩)
    (p := fun _ => true) (by decide +kernel)
  have ht := open_brackets_le hs hp (List.take_prefix 18 stream.tokens)
  exact ⟨stream, parsed, hs, hp, eq_of_beq hl, ht⟩

end CPretty
