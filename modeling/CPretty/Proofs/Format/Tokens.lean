import CPretty.Format
import CPretty.Proofs.Grammar.Soundness.SourceFile
import CPretty.Proofs.Syntax.Printed.SourceFile
import CPretty.Proofs.Token.Stream

namespace CPretty

theorem Key.Canonical.solid {k : Key} (h : k.Canonical) : k.Solid :=
  ⟨h.lexical.ne_nil, fun c hc hs => by
    have := h.lexical.getLast?_not_isBlank c hc
    rw [hs] at this
    cases this⟩

theorem canonical_of_mem_canonicalKeys {ts : List Token} (h : AllLexed ts) :
    ∀ k ∈ canonicalKeys ts, k.Canonical := by
  induction ts with
  | nil => simp
  | cons t ts ih =>
    rw [allLexed_cons] at h
    rw [canonicalKeys]
    split
    · exact ih h.2
    · exact List.forall_mem_cons.mpr ⟨h.1.canonical, ih h.2⟩

variable {source text : String} {o : Options} {parsed : Parsed} {stream : TokenStream}

theorem parse_cases (h : parse source o = .ok parsed) :
    ∃ stream, tokenize source = .ok stream ∧ stream.parse o.nestingLimit = .ok parsed.tree ∧
      parsed.comments = stream.comments := by
  rw [parse] at h
  split at h
  · cases h
  · split at h
    · cases h
    · cases h
      exact ⟨_, ‹_›, ‹_›, rfl⟩

theorem format_cases (h : format source o = .ok text) :
    ∃ parsed doc, parse source o = .ok parsed ∧ parsed.tree.toDoc = .ok doc ∧
      doc.render o = text := by
  rw [format, layoutDoc] at h
  split at h
  · cases h
  · split at h
    · cases h
    · cases h
      exact ⟨_, _, ‹_›, ‹_›, rfl⟩

theorem format_spread (hs : tokenize source = .ok stream) (hp : parse source o = .ok parsed)
    (hh : parsed.tree.hasPlainHeaders = true) (hf : format source o = .ok text) :
    ∃ ms, Spread true ms text.toList ∧ words ms = canonicalKeys stream.tokens ∧
      (ms = [] ∨ ∃ ms' a z, ms = ms' ++ [.gap] ∧ Run a ms' z ∧ a ≠ .dot) := by
  obtain ⟨parsed', doc, hp', hd, rfl⟩ := format_cases hf
  rw [hp] at hp'
  cases hp'
  obtain ⟨stream', hs', htree, -⟩ := parse_cases hp
  rw [hs] at hs'
  cases hs'
  have hx := lexed_of_tokenize hs
  obtain ⟨sp, ns, hroot, hder⟩ := TokenStream.derives_of_parse htree
  rw [hroot, Node.hasPlainHeaders, List.all_eq_true] at hh
  obtain ⟨doc', ms, hd', hm, hw, hr⟩ := (hder.printout_plain hh).toDoc hx sp
  rw [hroot, hd'] at hd
  cases hd
  refine ⟨ms, hm.render (fun k hk => ?_) o, hw, hr⟩
  rw [hw] at hk
  exact (canonical_of_mem_canonicalKeys hx k hk).solid

/-- Formatting changes nothing but blanks, comments, commas before closing braces and the spelling
of brackets: the text has the tokens of the source in order, with blanks around them. -/
theorem format_keeps_tokens (hs : tokenize source = .ok stream) (hp : parse source o = .ok parsed)
    (hh : parsed.tree.hasPlainHeaders = true) (hf : format source o = .ok text) :
    Spaced ((canonicalKeys stream.tokens).map Key.text) text.toList := by
  obtain ⟨ms, hsp, hw, -⟩ := format_spread hs hp hh hf
  rw [← hw]
  exact hsp.spaced

/-- Digraphs, a comma before a closing brace and a comment in the body of a function. -/
theorem format_keeps_tokens_digraphs :
    Spaced ["int", "*", "f", "(", "void", ")", "\x7b", "enum", "\x7b", "A", "\x7d", ";", "\x7d"]
      "int *f(void) \x7b\n  enum \x7b\n    A\n  \x7d;\n\x7d\n".toList := by
  let source := "int*f(void)<%enum\x7bA,\x7d; /* none */%>"
  obtain ⟨stream, hs, hk⟩ := exists_ok_of_any (x := tokenize source)
    (p := fun s => (canonicalKeys s.tokens).map Key.text == ["int", "*", "f", "(", "void", ")",
      "\x7b", "enum", "\x7b", "A", "\x7d", ";", "\x7d"]) (by decide +kernel)
  obtain ⟨parsed, hp, hh⟩ := exists_ok_of_any (x := parse source {})
    (p := fun q => q.tree.hasPlainHeaders) (by decide +kernel)
  obtain ⟨text, hf, ht⟩ := exists_ok_of_any (x := format source {})
    (p := (· == "int *f(void) \x7b\n  enum \x7b\n    A\n  \x7d;\n\x7d\n")) (by decide +kernel)
  rw [← eq_of_beq hk, ← eq_of_beq ht]
  exact format_keeps_tokens hs hp hh hf

end CPretty
