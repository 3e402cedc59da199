import CPretty.Proofs.Doc.Lines
import CPretty.Proofs.Format.Independence
import CPretty.Proofs.Grammar.Concat
import CPretty.Proofs.Token.LineEnd

namespace CPretty

open Node (outerDoc)

variable {source source' : String} {o : Options} {parsed parsed' : Parsed} {ds : List Doc}
  {ns : List Node} {sp : Span} {k : Nat}

theorem Node.toDoc_root (sp : Span) (ns : List Node) :
    Node.toDoc ⟨sp, .root ns⟩ = Doc.lines <$> ns.mapM outerDoc := by
  cases ns with
  | nil => rfl
  | cons n ns =>
    rw [Node.toDoc, List.mapM_cons]
    · cases outerDoc n with
      | error e => rfl
      | ok d => cases ns.mapM outerDoc <;> rfl
    · intro hns
      cases hns

theorem Node.outerDocs_shift (h : ns.mapM outerDoc = .ok ds) :
    (ns.map (Node.shift k)).mapM outerDoc = .ok ds := by
  have hs := Node.outerDocs_respan (f := Span.shift k) ns
  rw [h] at hs
  exact hs

theorem format_root (h : parse source o = .ok parsed) :
    ∃ sp ns ds, parsed.tree = ⟨sp, .root ns⟩ ∧ ns.mapM outerDoc = .ok ds ∧
      format source o = .ok ((Doc.lines ds).render o) := by
  obtain ⟨stream, hs, ht, -⟩ := parse_cases h
  obtain ⟨sp, ns, hroot, -⟩ := TokenStream.derives_of_parse ht
  obtain ⟨doc, hd, hf⟩ := format_of_parse h
  rw [hroot, Node.toDoc_root] at hd
  cases hds : ns.mapM outerDoc with
  | error e =>
    rw [hds] at hd
    cases hd
  | ok ds =>
    rw [hds] at hd
    cases hd
    exact ⟨sp, ns, ds, hroot, hds, hf⟩

def SyntaxError.shift (k : Nat) : SyntaxError → SyntaxError
  | .lex e => .lex (e.shift k)
  | .parse e => .parse (e.shift k)

theorem parse_append (h : parse source o = .ok parsed) (he : EndsLine source.toList)
    (h' : parse source' o = .ok parsed') :
    ∃ both, parse (source ++ "\n" ++ source') o = .ok both ∧
      both.tree.children = parsed.tree.children ++
        parsed'.tree.children.map (Node.shift (lineCount source)) ∧
      both.comments = parsed.comments ++
        parsed'.comments.map (Comment.shift (lineCount source)) := by
  obtain ⟨stream, hs, ht, hc⟩ := parse_cases h
  obtain ⟨stream', hs', ht', hc'⟩ := parse_cases h'
  obtain ⟨sp', ns', hroot', -⟩ := TokenStream.derives_of_parse ht'
  have later : (stream'.shift (lineCount source)).parse o.nestingLimit =
      .ok (parsed'.tree.shift (lineCount source)) := by
    obtain ⟨n, hn, hn'⟩ | ⟨e, hn, -⟩ := stream'.parse_shift (lineCount source) o.nestingLimit
    · rw [ht'] at hn
      cases hn
      exact hn'
    · rw [ht'] at hn
      cases hn
  obtain ⟨n, hn, hshape⟩ := TokenStream.parse_append ht later
  refine ⟨⟨n, _⟩, parse_of_ok (tokenize_append he hs hs') hn, ?_, ?_⟩
  · rw [Node.children, hshape, Node.shift, Node.shape_respan, hroot']
    rfl
  · rw [hc, hc']
    rfl

theorem parse_append_error {es : List SyntaxError} (h : parse source o = .ok parsed)
    (he : EndsLine source.toList) (h' : parse source' o = .error es) :
    parse (source ++ "\n" ++ source') o =
      .error (es.map (SyntaxError.shift (lineCount source))) := by
  obtain ⟨stream, hs, ht, -⟩ := parse_cases h
  cases hs' : tokenize source' with
  | error es' =>
    simp only [parse, hs'] at h'
    cases h'
    simp only [parse, tokenize_append_error he hs hs', List.map_map]
    rfl
  | ok stream' =>
    simp only [parse, hs'] at h'
    split at h'
    next e ht' =>
      cases h'
      obtain ⟨n, hn, -⟩ | ⟨e', hn, hn'⟩ := stream'.parse_shift (lineCount source) o.nestingLimit
      · rw [ht'] at hn
        cases hn
      · rw [ht'] at hn
        cases hn
        exact parse_of_error (tokenize_append he hs hs') (TokenStream.parse_append_error ht hn')
    next => cases h'

/-- Formatting respects putting one source on the lines after another. If both can be read, so can
the whole: it has the declarations and comments of the first and then those of the second, moved
down by the lines of the first, and its text is the two texts one after the other. If only the first
can be read, the whole has the faults of the second, moved down. -/
theorem format_append (h : parse source o = .ok parsed) (he : EndsLine source.toList)
    (source' : String) :
    (∀ parsed', parse source' o = .ok parsed' → ∃ both text text',
      parse (source ++ "\n" ++ source') o = .ok both ∧
      both.tree.children = parsed.tree.children ++
        parsed'.tree.children.map (Node.shift (lineCount source)) ∧
      both.comments = parsed.comments ++
        parsed'.comments.map (Comment.shift (lineCount source)) ∧
      format source o = .ok text ∧ format source' o = .ok text' ∧
      format (source ++ "\n" ++ source') o = .ok (text ++ text')) ∧
    ∀ es, parse source' o = .error es → parse (source ++ "\n" ++ source') o =
      .error (es.map (SyntaxError.shift (lineCount source))) := by
  refine ⟨fun parsed' h' => ?_, fun es h' => parse_append_error h he h'⟩
  obtain ⟨both, hb, hn, hc⟩ := parse_append h he h'
  obtain ⟨sp, ns, ds, ht, hds, hf⟩ := format_root h
  obtain ⟨sp', ns', ds', ht', hds', hf'⟩ := format_root h'
  obtain ⟨sp'', ns'', ds'', ht'', hds'', hf''⟩ := format_root hb
  have docs : ds'' = ds ++ ds' := by
    have hns : ns'' = ns ++ ns'.map (Node.shift (lineCount source)) := by
      rw [ht, ht', ht''] at hn
      exact hn
    rw [hns, List.mapM_append, hds, Node.outerDocs_shift hds'] at hds''
    cases hds''
    rfl
  refine ⟨both, _, _, hb, hn, hc, hf, hf', ?_⟩
  rw [hf'', docs, Doc.render_lines_append]

/-- A function after a comment, and after the same comment a declaration with a fault. -/
theorem format_append_comment :
    (∃ both text text', parse ("int a; // one" ++ "\n" ++ "int f() \x7b\x7d") {} = .ok both ∧
      both.comments.map Comment.text = ["// one"] ∧
      format "int a; // one" {} = .ok text ∧ format "int f() \x7b\x7d" {} = .ok text' ∧
      format ("int a; // one" ++ "\n" ++ "int f() \x7b\x7d") {} = .ok (text ++ text')) ∧
    ∃ es, parse "int b = ;" {} = .error es ∧
      parse ("int a; // one" ++ "\n" ++ "int b = ;") {} =
        .error (es.map (SyntaxError.shift 1)) := by
  obtain ⟨first, h, hc⟩ := exists_ok_of_any (x := parse "int a; // one" {})
    (p := fun q => q.comments.map Comment.text == ["// one"]) (by decide +kernel)
  obtain ⟨second, h', hn⟩ := exists_ok_of_any (x := parse "int f() \x7b\x7d" {})
    (p := fun q => q.comments.isEmpty) (by decide +kernel)
  have ends : EndsLine "int a; // one".toList := ⟨by decide +kernel, by decide +kernel⟩
  have fails : (parse "int b = ;" {}).toOption.isNone = true := by decide +kernel
  refine ⟨?_, ?_⟩
  · obtain ⟨both, text, text', hb, -, hcomments, hf, hf', hboth⟩ :=
      (format_append h ends "int f() \x7b\x7d").1 second h'
    refine ⟨both, text, text', hb, ?_, hf, hf', hboth⟩
    rw [hcomments, List.isEmpty_iff.mp hn]
    simpa using hc
  · cases he : parse "int b = ;" {} with
    | error es => exact ⟨es, rfl, (format_append h ends "int b = ;").2 es he⟩
    | ok p =>
      rw [he] at fails
      cases fails

end CPretty
