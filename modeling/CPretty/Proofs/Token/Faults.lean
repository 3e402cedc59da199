import CPretty.Proofs.Token.Segments

namespace CPretty

variable {source : String}

theorem pairwise_lexErrors (source : String) :
    (lexErrors source).Pairwise (·.location < ·.location) := by
  have place {l : Located} {e : LexError} (h : e ∈ l.error?) : e.location = l.location := by
    obtain ⟨lexeme, text, loc⟩ := l
    cases lexeme with
    | fault r =>
      cases h
      rfl
    | token => cases h
    | comment => cases h
  rw [lexErrors_eq, List.pairwise_filterMap]
  apply (fills_lexemes source).pairwise.imp
  intro l l' hlt e he e' he'
  rw [place he, place he']
  exact hlt

theorem exists_of_lexErrors (h : lexErrors source = []) :
    ∃ stream, tokenize source = .ok stream := by
  cases hs : tokenize source with
  | ok stream => exact ⟨stream, rfl⟩
  | error es =>
    have faults := tokenize_of_error hs
    rw [← lexErrors_eq, h] at faults
    exact absurd faults.1.symm faults.2

/-- Lexing goes line by line. A source is followed by another one on the lines after it; it does not
end in a backslash, and no comment is left open in it. The faults of the whole are those of the
first and then those of the second, moved down by the lines of the first, in the order of their
places. If there are none, the tokens and the comments are composed in the same way. -/
theorem tokenize_line_append (he : EndsLine source.toList)
    (hc : ∀ e ∈ lexErrors source, e.fault ≠ .unterminatedComment) (source' : String) :
    lexErrors (source ++ "\n" ++ source') =
        lexErrors source ++ (lexErrors source').map (LexError.shift (lineCount source)) ∧
      (lexErrors (source ++ "\n" ++ source')).Pairwise (·.location < ·.location) ∧
      (lexErrors (source ++ "\n" ++ source') = [] → ∃ stream stream' both,
        tokenize source = .ok stream ∧ tokenize source' = .ok stream' ∧
        tokenize (source ++ "\n" ++ source') = .ok both ∧
        both.terminated =
          stream.tokens ++ stream'.terminated.map (Token.shift (lineCount source)) ∧
        both.comments =
          stream.comments ++ stream'.comments.map (Comment.shift (lineCount source))) := by
  have errors := lexErrors_append he hc source'
  refine ⟨errors, pairwise_lexErrors _, fun h => ?_⟩
  rw [errors, List.append_eq_nil_iff, List.map_eq_nil_iff] at h
  obtain ⟨stream, hs⟩ := exists_of_lexErrors h.1
  obtain ⟨stream', hs'⟩ := exists_of_lexErrors h.2
  refine ⟨stream, stream', _, hs, hs', tokenize_append he hs hs', ?_, rfl⟩
  rw [TokenStream.terminated, TokenStream.terminated, List.map_append, ← List.append_assoc]
  rfl

/-- The first source ends inside a string literal, which the line end stops, and the directive after
it starts its line. -/
theorem tokenize_line_append_faults :
    lexErrors "'' \"a" = [⟨.emptyChar, ⟨1, 1⟩⟩, ⟨.unterminatedString, ⟨1, 4⟩⟩] ∧
      lexErrors ("'' \"a" ++ "\n" ++ "#b\n0x") =
        [⟨.emptyChar, ⟨1, 1⟩⟩, ⟨.unterminatedString, ⟨1, 4⟩⟩, ⟨.malformedNumber "0x", ⟨3, 1⟩⟩] ∧
      ∃ stream stream' both, tokenize "a // b" = .ok stream ∧ tokenize "#c\nd" = .ok stream' ∧
        tokenize ("a // b" ++ "\n" ++ "#c\nd") = .ok both ∧
        both.terminated = stream.tokens ++ stream'.terminated.map (Token.shift 1) ∧
        both.comments = stream.comments ++ stream'.comments.map (Comment.shift 1) := by
  have faults : lexErrors "'' \"a" = [⟨.emptyChar, ⟨1, 1⟩⟩, ⟨.unterminatedString, ⟨1, 4⟩⟩] := by
    decide +kernel
  have fault : lexErrors "#b\n0x" = [⟨.malformedNumber "0x", ⟨2, 1⟩⟩] := by decide +kernel
  have none : lexErrors "a // b" = [] := by decide +kernel
  have ends : EndsLine "'' \"a".toList := ⟨by decide +kernel, by decide +kernel⟩
  have ends' : EndsLine "a // b".toList := ⟨by decide +kernel, by decide +kernel⟩
  refine ⟨faults, ?_, ?_⟩
  · have closed : ∀ e ∈ lexErrors "'' \"a", e.fault ≠ .unterminatedComment := by
      rw [faults]
      decide
    obtain ⟨errors, -, -⟩ := tokenize_line_append ends closed "#b\n0x"
    rw [errors, faults, fault]
    rfl
  · obtain ⟨-, -, composed⟩ := tokenize_line_append ends' (by rw [none]; exact nofun) "#c\nd"
    exact composed (by decide +kernel)

end CPretty
