import CPretty.Proofs.Doc.Tidy
import CPretty.Proofs.Format.Append

namespace CPretty

open Scan

variable {source text : String} {o : Options} {cs tail : List Char} {quote : Char} {k : Kind}

theorem Continued.of_not_mem (h : '\n' ∉ cs) : Continued cs := by
  rintro us vs rfl
  simp at h

theorem Continued.behind {xs : List Char} (h : Continued cs) (hx : '\n' ∉ xs) :
    Continued (xs ++ cs) := by
  intro us vs he
  obtain ⟨ws, rfl, hw⟩ | ⟨ws, rfl, hw⟩ := List.append_eq_append_iff.mp he
  · rw [List.getLast?_append, h ws vs hw]
    rfl
  · cases ws with
    | nil =>
      have := h [] vs (by simpa using hw.symm)
      cases this
    | cons w ws =>
      cases hw
      simp at hx

/-- A line end inside a literal is taken with the backslash before it. -/
theorem continued_of_quotedTail (h : quotedTail quote cs = (true, tail)) :
    Continued tail := by
  fun_induction quotedTail quote cs generalizing tail with
  | case3 c cs closed tail' ht ih =>
    obtain ⟨rfl, rfl⟩ := Prod.mk.inj h
    intro us vs he
    rcases us with _ | ⟨u, _ | ⟨u', us⟩⟩
    · cases he
    · cases he
      rfl
    · cases he
      rw [List.getLast?_cons_cons, List.getLast?_cons, ih ht us vs rfl]
      rfl
  | case5 cs hbs hbs' hn =>
    obtain ⟨-, rfl⟩ := Prod.mk.inj h
    exact .of_not_mem (by simpa using Ne.symm hn)
  | case6 c cs hbs hbs' hn hne closed tail' ht ih =>
    obtain ⟨rfl, rfl⟩ := Prod.mk.inj h
    have fresh : '\n' ∉ [c] := by simpa using Ne.symm hn
    exact (ih ht).behind fresh
  | _ => simp at h

theorem Key.Canonical.tidy {k : Key} (h : k.Canonical) : k.Tidy where
  continued := by
    have not_mem {xs : List Char} (hx : ∀ c ∈ xs, Text.isBlank c = false) : '\n' ∉ xs :=
      fun hm => absurd (hx _ hm) (by decide)
    obtain ⟨mark, quote, tail, he, hq, hm, ht⟩ | hc := h.lexical.literal_or_inked
    · have plain : quote ≠ '\n' := by obtain rfl | rfl := hq <;> decide
      have front : '\n' ∉ mark ++ [quote] := by simpa [not_mem hm] using Ne.symm plain
      rw [he, List.append_cons]
      exact (continued_of_quotedTail ht).behind front
    · exact .of_not_mem (not_mem hc)
  ends := by
    obtain he | ⟨cs, c, he⟩ := k.text.toList.eq_nil_or_concat
    · exact absurd he h.lexical.ne_nil
    · rw [List.concat_eq_append] at he
      exact ⟨cs, c, he, h.lexical.getLast?_not_isBlank c (by simp [he])⟩

theorem words_joined_gap (items : List Item) :
    words (joined [.gap] items) = items.flatMap fun i => words i.marks := by
  induction items with
  | nil => rfl
  | cons i items ih =>
    cases items with
    | nil => simp
    | cons j items => simpa using ih

theorem exists_tidyLines {v : Bool} {items : List Item} (hi : Items v items)
    (hk : ∀ i ∈ items, ∀ k ∈ words i.marks, k.Tidy) : ∃ ls, (∀ l ∈ ls, TidyLine l) ∧
      (ls = [] ↔ items = []) ∧ (items.map Item.doc).flatMap (Doc.lineText o) = joinLines ls := by
  induction items with
  | nil => exact ⟨[], by simp, by simp, rfl⟩
  | cons i items ih =>
    rw [List.forall_mem_cons] at hk
    have rest : Items v items :=
      ⟨fun j hj => hi.marked j (by simp [hj]), fun j hj => hi.neat j (by simp [hj])⟩
    obtain ⟨ls', hls', -, he'⟩ := ih rest hk.2
    obtain ⟨a, z, hr, -⟩ := hi.neat i (by simp)
    obtain ⟨ls, hls, hne, he⟩ := (hi.marked i (by simp)).lineText (o := o) hk.1 hr
    refine ⟨ls ++ ls', ?_, by simp [hne], ?_⟩
    · simpa [or_imp, forall_and] using ⟨hls, hls'⟩
    · rw [List.map_cons, List.flatMap_cons, he, he', joinLines_append]

theorem joinLines_eq_nil {ls : List (List Char)} : joinLines ls = [] ↔ ls = [] := by
  cases ls <;> simp [joinLines]

theorem exists_last_of_tidy {ls : List (List Char)} (h : ∀ l ∈ ls, TidyLine l) (hne : ls ≠ []) :
    ∃ front c, joinLines ls = front ++ [c, '\n'] ∧ c ≠ '\n' := by
  obtain rfl | ⟨ls, l, rfl⟩ := ls.eq_nil_or_concat
  · exact absurd rfl hne
  · have tidy : TidyLine l := h l (by simp)
    obtain rfl | ⟨l, c, rfl⟩ := l.eq_nil_or_concat
    · obtain ⟨c, hc, -⟩ := tidy.inked
      cases hc
    · refine ⟨joinLines ls ++ l, c, by simp, ?_⟩
      rintro rfl
      exact tidy.unbroken (by simp)

/-- A formatted text is empty exactly for a source without declarations. Otherwise it is lines with
a line end after each, so it ends in exactly one of them; no line is blank, and none ends in a
space. -/
theorem format_tidy (h : format source o = .ok text) :
    ∃ parsed sp decls ls, parse source o = .ok parsed ∧ parsed.tree = ⟨sp, .root decls⟩ ∧
      (text = "" ↔ decls = []) ∧ text.toList = joinLines ls ∧ (∀ l ∈ ls, TidyLine l) ∧
      (decls ≠ [] → ∃ front c, text.toList = front ++ [c, '\n'] ∧ c ≠ '\n') := by
  obtain ⟨parsed, doc, hp, hd, rfl⟩ := format_cases h
  obtain ⟨stream, hs, ht, -⟩ := parse_cases hp
  obtain ⟨sp, ns, hroot, hder⟩ := TokenStream.derives_of_parse ht
  obtain ⟨ys, hprint, hy⟩ := hder.printout (lexed_of_tokenize hs)
  obtain ⟨items, hi, hds, hc⟩ := hprint.items hy
  rw [hroot, Node.toDoc_root, hds] at hd
  cases hd
  have tidy : ∀ i ∈ items, ∀ k ∈ words i.marks, k.Tidy := by
    intro i hm k hk
    have keys : words (joined [.gap] items) = canonicalKeys ys := by
      have := (hc []).symm
      rwa [List.append_nil, canonicalKeys_nil, List.append_nil] at this
    refine (canonical_of_mem_canonicalKeys hy k ?_).tidy
    rw [← keys, words_joined_gap]
    exact List.mem_flatMap.mpr ⟨i, hm, hk⟩
  have decls : ns = [] ↔ items = [] := by
    cases ns with
    | nil => cases items with
      | nil => simp
      | cons i items => cases hds
    | cons n ns =>
      have := Node.outerDocs_ne_nil hds
      simpa using this
  obtain ⟨ls, hls, hne, he⟩ := exists_tidyLines (o := o) hi tidy
  have text : ((Doc.lines (items.map Item.doc)).render o).toList = joinLines ls := by
    rw [Doc.render_lines, String.toList_ofList, he]
  refine ⟨parsed, sp, ns, ls, hp, hroot, ?_, text, hls, fun hn => ?_⟩
  · rw [← String.toList_eq_nil_iff, text, joinLines_eq_nil, hne, decls]
  · rw [text]
    exact exists_last_of_tidy hls fun he => hn (decls.mpr (hne.mp he))

/-- A literal with a line of blanks up to its backslash, and a structure body inside an
expression. -/
theorem format_tidy_continued : ∃ text ls,
    format "int f() \x7b return sizeof(struct \x7b int a; \x7d) + g(\"one\\\n   \\\n two\"); \x7d" {} =
      .ok text ∧ text ≠ "" ∧ text.toList = joinLines ls ∧ (∀ l ∈ ls, TidyLine l) ∧
      ∃ front c, text.toList = front ++ [c, '\n'] ∧ c ≠ '\n' := by
  obtain ⟨text, h, ht⟩ := exists_ok_of_any
    (x := format "int f() \x7b return sizeof(struct \x7b int a; \x7d) + g(\"one\\\n   \\\n two\"); \x7d" {})
    (p := (· != "")) (by decide +kernel)
  obtain ⟨parsed, sp, decls, ls, -, -, empty, lines, tidy, ends⟩ := format_tidy h
  have filled : text ≠ "" := bne_iff_ne.mp ht
  exact ⟨text, ls, h, filled, lines, tidy, ends fun he => filled (empty.mpr he)⟩

end CPretty
