import CPretty.Proofs.Doc.Arrangement

namespace CPretty

theorem Options.room_neg {o : Options} (ho : o.printWidth < wordSize)
    (hs : signBit ≤ o.printWidth) : o.room 0 < 0 := by
  rw [wordSize] at ho
  rw [signBit] at hs
  rw [room, wordSize, Int.bmod_def]
  omega

theorem Step.lines_eq_singleton {ss : List Step} (h : ∀ s ∈ ss, s.isNewline = false) :
    lines ss = [ss] := by
  induction ss with
  | nil => rfl
  | cons s ss ih =>
    rw [List.forall_mem_cons] at h
    rw [lines, ih h.2, h.1]
    rfl

namespace Doc

mutual

/-- The characters of a document that is printed flat. Hard lines, which are never printed flat,
have none. -/
def flatChars : Doc → List Char
  | .text s => s.toList
  | .concat parts => flatCharsAll parts
  | .indent body | .group body => flatChars body
  | .line => [' ']
  | .softLine | .hardLine => []

def flatCharsAll : List Doc → List Char
  | [] => []
  | d :: ds => flatChars d ++ flatCharsAll ds

end

variable {d : Doc} {o : Options}

theorem lead_flat (h : d.hasHardLine = false) : d.lead .flat = ⟨d.flatChars.length, false⟩ := by
  induction d using induction with
  | text s => simp only [lead, flatChars, String.length_toList]
  | concat ds ih =>
    rw [hasHardLine] at h
    rw [lead, flatChars]
    induction ds with
    | nil => rfl
    | cons d ds ihs =>
      rw [anyHardLine, Bool.or_eq_false_iff] at h
      have first := ih d List.mem_cons_self h.1
      have others := ihs (fun d hd => ih d (List.mem_cons_of_mem _ hd)) h.2
      rw [leadAll_cons, first, others, flatCharsAll, List.length_append]
      rfl
  | indent d ih => exact ih h
  | group d ih => exact ih h
  | line => rfl
  | softLine => rfl
  | hardLine => cases h

theorem steps_flat (h : d.hasHardLine = false) (indent : Nat) (rest : List Pending) (start : Nat) :
    (d.steps o indent .flat rest start).flatMap Step.chars = d.flatChars ∧
      ∀ s ∈ d.steps o indent .flat rest start, s.isNewline = false := by
  induction d using induction generalizing indent rest start with
  | text s => simp [steps, flatChars, Step.chars, Step.isNewline]
  | concat ds ih =>
    rw [hasHardLine] at h
    rw [steps, flatChars]
    induction ds generalizing start with
    | nil => exact ⟨rfl, List.forall_mem_nil _⟩
    | cons d ds ihs =>
      rw [anyHardLine, Bool.or_eq_false_iff] at h
      obtain ⟨chars, stays⟩ := ih d List.mem_cons_self h.1 indent (⟨.flat, ds⟩ :: rest) start
      obtain ⟨chars', stays'⟩ := ihs (fun d hd => ih d (List.mem_cons_of_mem _ hd)) h.2
        ((d.steps o indent .flat (⟨.flat, ds⟩ :: rest) start).foldl Step.column start)
      rw [stepsAll, flatCharsAll, List.flatMap_append, chars, chars', List.forall_mem_append]
      exact ⟨rfl, stays, stays'⟩
  | indent d ih => exact ih h _ rest start
  | group d ih => exact ih h indent rest start
  | line => exact ⟨rfl, by simp [steps, Step.isNewline]⟩
  | softLine => exact ⟨rfl, by simp [steps, Step.isNewline]⟩
  | hardLine => cases h

theorem arrange_group (h : d.hasHardLine = false) : (group d).arrange o 0 .broken [] 0 =
    let mode := if (d.flatChars.length : Int) ≤ o.room 0 then .flat else .broken
    .group mode (d.arrange o 0 mode [] 0) := by
  have room : fits d [] (o.room 0) = decide ((d.flatChars.length : Int) ≤ o.room 0) := by
    rw [fits, lead_flat h]
    rfl
  rw [arrange, h, room]
  simp

theorem print_flat_arrange (h : d.hasHardLine = false) :
    (Arrangement.group .flat (d.arrange o 0 .flat [] 0)).print o.indentation =
      String.ofList (Piece.trimmed d.flatChars.reverse).reverse := by
  have steps := d.steps_arrange 0 (fun n _ => o.deeper_indentation n) .flat [] 0
  rw [o.indentation_zero] at steps
  obtain ⟨chars, stays⟩ := steps_flat (o := o) h 0 [] 0
  rw [Arrangement.print, Arrangement.steps, steps, Step.lines_eq_singleton stays,
    List.map_singleton,
    Line.chars, chars]
  simp [List.intercalate]

/-- A group without hard lines that stands alone. Below the sign bit it is printed flat on one line
if its flat text is no longer than the print width, and if it is longer, or from the sign bit on,
every line and soft line directly inside it ends a line. -/
theorem render_group (hd : d.hasHardLine = false) (ho : o.printWidth < Options.wordSize) :
    (o.printWidth < Options.signBit → d.flatChars.length ≤ o.printWidth →
      (group d).render o = String.ofList (Piece.trimmed d.flatChars.reverse).reverse) ∧
    (Options.signBit ≤ o.printWidth ∨ o.printWidth < d.flatChars.length →
      ∃ t : Arrangement, t.doc = d ∧ t.Consistent ∧
        (group d).render o = (Arrangement.group .broken t).print o.indentation) := by
  rw [← (group d).print_arrange o.indentation_zero fun n _ => o.deeper_indentation n,
    arrange_group hd]
  have below (hs : o.printWidth < Options.signBit) : o.room 0 = o.printWidth :=
    Options.room_eq hs (by decide)
  constructor
  · intro hs hw
    have fits : (d.flatChars.length : Int) ≤ o.room 0 := by
      rw [below hs]
      exact Int.ofNat_le.mpr hw
    rw [if_pos fits]
    exact print_flat_arrange hd
  · intro h
    have none : ¬ (d.flatChars.length : Int) ≤ o.room 0 := by
      by_cases hs : o.printWidth < Options.signBit
      · have long := h.resolve_left (Nat.not_le.mpr hs)
        rw [below hs]
        omega
      · have room := Options.room_neg ho (Nat.not_lt.mp hs)
        omega
    rw [if_neg none]
    exact ⟨d.arrange o 0 .broken [] 0, d.doc_arrange .., d.consistent_arrange _ _ _ _ nofun, rfl⟩

/-- Twelve characters fit the print width 12 and not 11. The largest width that is accepted leaves
no room at all. -/
theorem render_group_widths :
    let d : Doc := .concat [.text "alpha +", .indent (.concat [.line, .text "beta"])]
    let wide : Options := ⟨Options.wordSize - 1, 2, 64⟩
    (group d).render ⟨12, 2, 64⟩ = "alpha + beta" ∧
      (∃ t : Arrangement, t.doc = d ∧ t.Consistent ∧
        (group d).render ⟨11, 2, 64⟩ =
          (Arrangement.group .broken t).print (⟨11, 2, 64⟩ : Options).indentation) ∧
      wide.violation? = none ∧ ∃ t : Arrangement, t.doc = d ∧ t.Consistent ∧
        "alpha +\n  beta" = (Arrangement.group .broken t).print wide.indentation := by
  intro d wide
  have fits := (render_group (d := d) (o := ⟨12, 2, 64⟩) rfl (by decide)).1 (by decide) (by decide)
  have breaks := (render_group (d := d) (o := ⟨11, 2, 64⟩) rfl (by decide)).2 (by decide)
  obtain ⟨t, ht, hc, hr⟩ := (render_group (d := d) (o := wide) rfl (by decide)).2 (by decide)
  have text : (group d).render wide = "alpha +\n  beta" := by decide +kernel
  exact ⟨fits.trans (by decide +kernel), breaks, by decide, t, ht, hc, text ▸ hr⟩

end Doc

end CPretty
