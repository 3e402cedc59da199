import CPretty.Proofs.Format.Independence
import CPretty.Proofs.Syntax.Placement

namespace CPretty

theorem Node.exists_toDoc_iff_wellPlaced {n : Node} : (∃ d, n.toDoc = .ok d) ↔ n.WellPlaced :=
  exists_toDoc.trans wellPlaced_iff.symm

/-- A tree is printed exactly when its roots and function definitions are well placed. They are in
every tree of a source, and so no source is refused for its tree. -/
theorem printed_iff_wellPlaced :
    (∀ n : Node, (∃ d, n.toDoc = .ok d) ↔ n.WellPlaced) ∧
      ∀ (source : String) (o : Options),
        (∀ parsed, parse source o = .ok parsed → parsed.tree.WellPlaced) ∧
          ∀ e, format source o ≠ .error (.unsupported e) := by
  refine ⟨fun n => Node.exists_toDoc_iff_wellPlaced, fun source o => ⟨fun parsed h => ?_, ?_⟩⟩
  · obtain ⟨doc, hd, -⟩ := format_of_parse h
    exact Node.exists_toDoc_iff_wellPlaced.mp ⟨doc, hd⟩
  · intro e he
    cases h : parse source o with
    | error es =>
      rw [format_of_error h] at he
      cases he
    | ok parsed =>
      obtain ⟨doc, -, hf⟩ := format_of_parse h
      rw [hf] at he
      cases he

/-- A definition with a block directly in a root is printed, a root in the place of the block is
not. -/
theorem printed_iff_wellPlaced_definition :
    (∃ parsed, parse "int f() \x7b\x7d" {} = .ok parsed ∧ parsed.tree.WellPlaced) ∧
      ¬ Node.WellPlaced ⟨default, .root [⟨default, .func none ⟨default, .ident "f"⟩ none []
        ⟨default, .root []⟩⟩]⟩ := by
  obtain ⟨printed, sources⟩ := printed_iff_wellPlaced
  refine ⟨?_, fun h => ?_⟩
  · obtain ⟨parsed, h, -⟩ := exists_ok_of_any (x := parse "int f() \x7b\x7d" {})
      (p := fun _ => true) (by decide +kernel)
    exact ⟨parsed, h, (sources _ _).1 parsed h⟩
  · obtain ⟨d, hd⟩ := (printed _).mpr h
    cases hd

end CPretty
