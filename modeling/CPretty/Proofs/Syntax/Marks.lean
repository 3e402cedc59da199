import CPretty.Proofs.Doc.Layout
import CPretty.Proofs.Grammar.Derivation
import CPretty.Proofs.Token.Adjacent
import CPretty.Syntax.ToDoc

namespace CPretty

open Doc (Marked text)

abbrev Mark.of (k : Kind) : Mark := .word (.of k)

/-- Marks from a token of one kind to a token of another. Where no gap parts two tokens, they may
stand side by side; a dot always stands directly after another token. -/
inductive Run : Kind → List Mark → Kind → Prop
  | word (k : Key) : Run k.kind [.word k] k.kind
  | join {a b c d : Kind} {ms ms' : List Mark} : Run a ms b → Run c ms' d → b.abuts c = true →
      Run a (ms ++ ms') d
  | gap {a b c d : Kind} {ms ms' : List Mark} : Run a ms b → Run c ms' d → c ≠ .dot →
      Run a (ms ++ .gap :: ms') d
  | soft {a b c d : Kind} {ms ms' : List Mark} : Run a ms b → Run c ms' d → b.breaks c = true →
      c ≠ .dot → Run a (ms ++ .soft :: ms') d

/-- Marks that start with a token that can lead. If they have a value, they end in a token that one
can end in. -/
def Neat (valued : Bool) (ms : List Mark) : Prop :=
  ∃ a z, Run a ms z ∧ a.leads = true ∧ (valued = true → z.ends = true)

structure Item where
  doc : Doc
  marks : List Mark

/-- Documents with their marks, each of them neat. -/
structure Items (valued : Bool) (items : List Item) : Prop where
  marked : ∀ i ∈ items, i.doc.Marked i.marks
  neat : ∀ i ∈ items, Neat valued i.marks

namespace Kind

theorem abuts_quiet (k : Kind) {k' : Kind} (h : k'.isQuiet = true) : k.abuts k' = true := by
  simp [abuts, h]

theorem abuts_of_isWhole {k : Kind} (h : k.isWhole = true) (k' : Kind) : k.abuts k' = true := by
  simp [abuts, h]

theorem abuts_access {k k' : Kind} (h : k.ends = true) (h' : k'.isAccess = true) :
    k.abuts k' = true := by
  simp [abuts, h, h']

theorem abuts_star {k : Kind} (h : k.leads = true) : star.abuts k = true := by
  have hk : k ≠ .eq ∧ k ≠ .eqEq := by
    refine ⟨?_, ?_⟩ <;> (rintro rfl; revert h; decide)
  simp [abuts, hk]

theorem ne_dot {k : Kind} (h : k.leads = true) : k ≠ .dot := by
  rintro rfl
  cases h

end Kind

namespace Run

variable {a z : Kind} {ms : List Mark}

theorem quiet (h : Run a ms z) {k : Kind} (hk : k.isQuiet = true) :
    Run a (ms ++ [.of k]) k :=
  h.join (.word (.of k)) (Kind.abuts_quiet z hk)

theorem head (h : Run a ms z) : ∃ k, (words ms).head? = some k ∧ k.kind = a := by
  induction h with
  | word k => exact ⟨k, rfl, rfl⟩
  | join _ _ _ ih _ =>
    obtain ⟨k, hk, ha⟩ := ih
    exact ⟨k, by simp [hk], ha⟩
  | gap _ _ _ ih _ =>
    obtain ⟨k, hk, ha⟩ := ih
    exact ⟨k, by simp [hk], ha⟩
  | soft _ _ _ _ ih _ =>
    obtain ⟨k, hk, ha⟩ := ih
    exact ⟨k, by simp [hk], ha⟩

end Run

/-- The marks of several documents with others between each two of them. -/
def joined (between : List Mark) (items : List Item) : List Mark :=
  ((items.map Item.marks).intersperse between).flatten

@[simp] theorem joined_nil (between : List Mark) : joined between [] = [] := rfl

@[simp] theorem joined_singleton (between : List Mark) (i : Item) :
    joined between [i] = i.marks := by
  simp [joined]

@[simp] theorem joined_cons_cons (between : List Mark) (i j : Item) (items : List Item) :
    joined between (i :: j :: items) = i.marks ++ between ++ joined between (j :: items) := by
  simp [joined]

def commaGap : List Mark := [.of .comma, .gap]

theorem Doc.Marked.append {ds es : List Doc} {ms ms' : List Mark} (h : Marked (.concat ds) ms)
    (h' : Marked (.concat es) ms') : Marked (.concat (ds ++ es)) (ms ++ ms') := by
  induction ds generalizing ms with
  | nil =>
    cases h
    exact h'
  | cons d ds ih =>
    cases h with
    | cons hd hds =>
      rw [List.append_assoc]
      exact hd.cons (ih hds)

theorem Doc.Marked.single {d : Doc} {ms : List Mark} (h : Marked d ms) :
    Marked (.concat [d]) ms := by
  simpa using h.cons .nil

theorem Doc.Marked.join {sep : Doc} {between : List Mark} (hs : Marked sep between)
    {items : List Item} (h : ∀ i ∈ items, i.doc.Marked i.marks) :
    Marked (Doc.join sep (items.map Item.doc)) (joined between items) := by
  induction items with
  | nil => exact .nil
  | cons i items ih =>
    have ih := ih fun j hj => h j (by simp [hj])
    cases items with
    | nil => simpa [Doc.join] using (h i (by simp)).single
    | cons j items =>
      simpa [Doc.join] using (h i (by simp)).cons (hs.cons ih)

/-- Items with gaps, or with commas and gaps, between each two of them. -/
theorem Items.neat_joined {v : Bool} {items : List Item} (h : Items v items) (hne : items ≠ [])
    {between : List Mark} (hb : between = [.gap] ∨ between = commaGap) :
    Neat v (joined between items) := by
  induction items with
  | nil => exact absurd rfl hne
  | cons i items ih =>
    obtain ⟨a, z, r, ha, hz⟩ := h.neat i (by simp)
    cases items with
    | nil => exact ⟨a, z, by simpa using r, ha, hz⟩
    | cons j items =>
      have hj : Items v (j :: items) :=
        ⟨fun k hk => h.marked k (by simp [hk]), fun k hk => h.neat k (by simp [hk])⟩
      obtain ⟨a', z', r', ha', hz'⟩ := ih hj (by simp)
      obtain rfl | rfl := hb
      · exact ⟨a, z', by simpa using r.gap r' (Kind.ne_dot ha'), ha, hz'⟩
      · have r'' := (r.quiet (k := .comma) rfl).gap r' (Kind.ne_dot ha')
        exact ⟨a, z', by simpa [commaGap] using r'', ha, hz'⟩

def braces (between : List Mark) : List Item → List Mark
  | [] => [.of .lBrace, .of .rBrace]
  | items => .of .lBrace :: .gap :: joined between items ++ [.gap, .of .rBrace]

def parentheses : List Item → List Mark
  | [] => [.of .lParen, .of .rParen]
  | items => .of .lParen :: .soft :: joined commaGap items ++ [.soft, .of .rParen]

@[simp] theorem words_braces (between : List Mark) (items : List Item) :
    words (braces between items) = .of .lBrace :: words (joined between items) ++
      [.of .rBrace] := by
  cases items <;> simp [braces]

@[simp] theorem words_parentheses (items : List Item) :
    words (parentheses items) = .of .lParen :: words (joined commaGap items) ++ [.of .rParen] := by
  cases items <;> simp [parentheses]

theorem Run.braces {v : Bool} {items : List Item} (h : Items v items) {between : List Mark}
    (hb : between = [.gap] ∨ between = commaGap) : Run .lBrace (braces between items) .rBrace := by
  cases items with
  | nil => exact (Run.word (.of .lBrace)).quiet rfl
  | cons i items =>
    obtain ⟨a, z, r, ha, -⟩ := h.neat_joined (by simp) hb
    simpa [CPretty.braces] using
      ((Run.word (.of .lBrace)).gap r (Kind.ne_dot ha)).gap (.word (.of .rBrace)) nofun

theorem Run.parentheses {v : Bool} {items : List Item} (h : Items v items) :
    Run .lParen (parentheses items) .rParen := by
  cases items with
  | nil => exact (Run.word (.of .lParen)).quiet rfl
  | cons i items =>
    obtain ⟨a, z, r, ha, -⟩ := h.neat_joined (by simp) (.inr rfl)
    simpa [CPretty.parentheses] using
      ((Run.word (.of .lParen)).soft r rfl (Kind.ne_dot ha)).soft
        (.word (.of .rParen)) (Bool.or_true _) nofun

section

variable {v : Bool} {items : List Item} (h : Items v items)
include h

theorem Items.block {sep : Doc} {between : List Mark} (hs : Marked sep between) :
    Marked (Doc.block sep (items.map Item.doc)) (braces between items) := by
  cases items with
  | nil => exact .text _ _ rfl
  | cons i items =>
    have body := (Marked.hardLine.cons (hs.join h.marked).single).indent
    have whole := (Marked.text "\x7b" [.of .lBrace] rfl).cons
      (body.cons (Marked.hardLine.cons
        (Marked.text "\x7d" [.of .rBrace] rfl).single))
    simpa [Doc.block, braces] using whole

theorem Items.enclosed {opening closing : String} {edge : Doc} (l r : List Mark) {m : List Mark}
    (hl : opening.toList = l.flatMap Mark.chars) (hr : closing.toList = r.flatMap Mark.chars)
    (hm : Marked edge m) : Marked (.concat (Doc.enclosed opening closing edge (items.map Item.doc)))
      (l ++ m ++ joined commaGap items ++ m ++ r) := by
  have comma : Marked Doc.comma commaGap :=
    (Marked.text "," [.of .comma] rfl).cons Marked.line.single
  have body := (hm.cons (comma.join h.marked).single).indent
  simpa [Doc.enclosed] using (Marked.text opening l hl).cons
    (body.cons (hm.cons (Marked.text closing r hr).single))

theorem Items.parameters :
    Marked (Doc.parameters (items.map Item.doc)) (parentheses items) := by
  cases items with
  | nil => exact .text _ _ rfl
  | cons i items =>
    have whole : Marked (.concat (Doc.enclosed "(" ")" .softLine _)) _ :=
      h.enclosed [.of .lParen] [.of .rParen] rfl rfl .softLine
    simpa [Doc.parameters, parentheses] using whole.group

end

end CPretty
