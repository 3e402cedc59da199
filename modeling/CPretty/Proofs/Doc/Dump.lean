import CPretty.Doc.Dump
import CPretty.Proofs.Text.Quoted

namespace CPretty.Doc

variable {d d' : Doc} {xs ys : List Char}

@[simp] theorem dumpChars_text (s : String) :
    dumpChars (.text s) = Text.quoteWith '"' s.toList := rfl

@[simp] theorem dumpChars_concat (parts : List Doc) :
    dumpChars (.concat parts) = '[' :: (dumpParts parts ++ [']']) := rfl

@[simp] theorem dumpChars_indent (body : Doc) :
    dumpChars (.indent body) = "indent(".toList ++ (body.dumpChars ++ [')']) := rfl

@[simp] theorem dumpChars_group (body : Doc) :
    dumpChars (.group body) = "group(".toList ++ (body.dumpChars ++ [')']) := rfl

@[simp] theorem dumpChars_line : dumpChars .line = "line".toList := rfl

@[simp] theorem dumpChars_softLine : dumpChars .softLine = "softline".toList := rfl

@[simp] theorem dumpChars_hardLine : dumpChars .hardLine = "hardline".toList := rfl

def initial : Doc → Char
  | .text _ => '"'
  | .concat _ => '['
  | .indent _ => 'i'
  | .group _ => 'g'
  | .line => 'l'
  | .softLine => 's'
  | .hardLine => 'h'

theorem exists_dumpChars (d : Doc) : ∃ cs, d.dumpChars = d.initial :: cs := by
  cases d <;> simp [initial, Text.quoteWith]

theorem initial_eq (h : d.dumpChars ++ xs = d'.dumpChars ++ ys) : d.initial = d'.initial := by
  obtain ⟨cs, hd⟩ := exists_dumpChars d
  obtain ⟨cs', hd'⟩ := exists_dumpChars d'
  rw [hd, hd'] at h
  exact List.head_eq_of_cons_eq h

theorem dumpChars_ne_bracket (d : Doc) : d.dumpChars ++ xs ≠ ']' :: ys := by
  obtain ⟨cs, hd⟩ := exists_dumpChars d
  rw [hd]
  intro h
  have bracket := List.head_eq_of_cons_eq h
  cases d <;> simp [initial] at bracket

/-- What stands behind the first part of a list: nothing, or a comma and further parts. -/
def dumpTail : List Doc → List Char
  | [] => []
  | d :: ds => ',' :: ' ' :: dumpParts (d :: ds)

theorem dumpParts_cons (d : Doc) (ds : List Doc) :
    dumpParts (d :: ds) = d.dumpChars ++ dumpTail ds := by
  cases ds with
  | nil => exact (List.append_nil _).symm
  | cons d' ds => rfl

mutual

/-- A document is known from its written form, whatever stands behind it. -/
theorem dumpChars_append_inj (d d' : Doc) {xs ys : List Char}
    (h : d.dumpChars ++ xs = d'.dumpChars ++ ys) : d = d' ∧ xs = ys := by
  have hi := initial_eq h
  cases d with
  | text s =>
    cases d' with
    | text s' =>
      obtain ⟨chars, rest⟩ := Text.quoteWith_append_inj h
      exact ⟨congrArg text (String.toList_inj.mp chars), rest⟩
    | _ => simp [initial] at hi
  | concat parts =>
    cases d' with
    | concat parts' =>
      simp only [dumpChars_concat, List.cons_append, List.append_assoc] at h
      obtain ⟨rfl, rest⟩ := dumpParts_append_inj parts parts' (List.tail_eq_of_cons_eq h)
      exact ⟨rfl, rest⟩
    | _ => simp [initial] at hi
  | indent body =>
    cases d' with
    | indent body' =>
      simp only [dumpChars_indent, List.append_assoc, List.append_cancel_left_eq] at h
      obtain ⟨rfl, rest⟩ := dumpChars_append_inj body body' h
      exact ⟨rfl, List.append_cancel_left rest⟩
    | _ => simp [initial] at hi
  | group body =>
    cases d' with
    | group body' =>
      simp only [dumpChars_group, List.append_assoc, List.append_cancel_left_eq] at h
      obtain ⟨rfl, rest⟩ := dumpChars_append_inj body body' h
      exact ⟨rfl, List.append_cancel_left rest⟩
    | _ => simp [initial] at hi
  | line =>
    cases d' with
    | line => exact ⟨rfl, List.append_cancel_left h⟩
    | _ => simp [initial] at hi
  | softLine =>
    cases d' with
    | softLine => exact ⟨rfl, List.append_cancel_left h⟩
    | _ => simp [initial] at hi
  | hardLine =>
    cases d' with
    | hardLine => exact ⟨rfl, List.append_cancel_left h⟩
    | _ => simp [initial] at hi

/-- The same of the parts of a list, up to its closing bracket. -/
theorem dumpParts_append_inj (ds es : List Doc) {xs ys : List Char}
    (h : dumpParts ds ++ ']' :: xs = dumpParts es ++ ']' :: ys) : ds = es ∧ xs = ys := by
  cases ds with
  | nil =>
    cases es with
    | nil => exact ⟨rfl, List.tail_eq_of_cons_eq h⟩
    | cons e es =>
      rw [dumpParts_cons, List.append_assoc] at h
      exact absurd h.symm (dumpChars_ne_bracket e)
  | cons d ds =>
    rw [dumpParts_cons, List.append_assoc] at h
    cases es with
    | nil => exact absurd h (dumpChars_ne_bracket d)
    | cons e es =>
      rw [dumpParts_cons, List.append_assoc] at h
      obtain ⟨rfl, tails⟩ := dumpChars_append_inj d e h
      cases ds with
      | nil =>
        cases es with
        | nil => exact ⟨rfl, List.tail_eq_of_cons_eq tails⟩
        | cons e es => exact absurd (List.head_eq_of_cons_eq tails) (by decide)
      | cons d' ds =>
        cases es with
        | nil => exact absurd (List.head_eq_of_cons_eq tails) (by decide)
        | cons e es =>
          obtain ⟨same, rest⟩ := dumpParts_append_inj (d' :: ds) (e :: es)
            (List.tail_eq_of_cons_eq (List.tail_eq_of_cons_eq tails))
          exact ⟨congrArg (List.cons d) same, rest⟩

end

/-- The written form tells the document: two documents have the same one only if they are the same.
-/
theorem dump_inj {d d' : Doc} : d.dump = d'.dump ↔ d = d' := by
  refine ⟨fun h => ?_, congrArg dump⟩
  have chars : d.dumpChars ++ [] = d'.dumpChars ++ [] :=
    congrArg (· ++ []) (String.ofList_injective h)
  exact (dumpChars_append_inj d d' chars).1

end CPretty.Doc
