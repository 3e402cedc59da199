import CPretty.Proofs.Grammar.Blind.Statement

namespace CPretty.Linked

open Parse Place Grammar

variable {e : Ending} {c c' : Cursor} {deep : Nested} {Q : Cursor → Cursor → Prop}

theorem parameterDeclarations_blind (h : Nesteds e deep) (he : e.part ≠ .declaration) :
    Blind e (At [] .block) (At [] .block)
      (many do if ← check .lBrace then return none else return some (← declaration deep)) := by
  refine Blind.many (.of_item (declaration_reads h.sound) fun c a d hr => ?_) fun c c' hc => ?_
  · obtain ⟨b, c₁, h₁, hr⟩ := bind_ok hr
    cases h₁
    split at hr
    · cases hr
    · obtain ⟨n, c₁, h₁, hr⟩ := bind_ok hr
      cases hr
      exact h₁
  · refine .check (hc.sees (by decide)) ?_
    split
    · exact .pure hc
    · exact .bind (declaration_blind h (by simp) (Ending.not_at_semicolon_of he) hc.free)
        fun hd => .pure hd

theorem functionDefinition_outcome (h : Nesteds e deep) (he : e.part ≠ .declaration)
    {specs : Option Node} (hc : Cursors e (Free []) c c')
    (hQ : ∀ {d d'}, d.peek.kind = .rBrace → Cursors e (At [.block] .block) d d' →
      Q d.advance d'.advance) :
    Outcome Q (functionDefinition deep specs c) (functionDefinition deep specs c') := by
  refine .bind (h.declarator (by simp) hc) fun hd => ?_
  split
  · refine .bind (parameterDeclarations_blind h he hd) fun hd => ?_
    exact .bind (compound_outcome h hd hQ) fun hd => .pure hd
  · exact .fail _

/-- A function definition or a declaration, whichever the tokens up to the end of the part make. -/
theorem externalDeclaration_outcome (h : Nesteds e deep) (he : e.part ≠ .declaration)
    (hc : Cursors e (At [] .block) c c')
    (hQ : ∀ {d d'}, d.peek.kind = .rBrace → Cursors e (At [.block] .block) d d' →
      Q d.advance d'.advance)
    (hQ' : ∀ {d d'}, Cursors e (At [] .block) d d' → Q d d') :
    Outcome Q (externalDeclaration deep c) (externalDeclaration deep c') := by
  have apart := Ending.not_at_semicolon_of he (s := [])
  refine .either (.either ?_ ?_) (functionDefinition_outcome h he hc.free hQ)
  · exact .bind (declSpecs_blind h hc.free) fun hd => functionDefinition_outcome h he hd hQ
  · exact (declaration_blind h (by simp) apart hc.free).mono hQ'

end CPretty.Linked
