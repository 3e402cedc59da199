import CPretty.Proofs.Doc.Lines
import CPretty.Proofs.Format.Layouts
import CPretty.Proofs.Grammar.Reprinted
import CPretty.Proofs.Grammar.Spelling
import CPretty.Proofs.Grammar.Trailing
import CPretty.Proofs.Syntax.Bare

namespace CPretty

variable {o o' : Options} {ns : List Node} {sp : Span} {l : Nat} {n : Node}
  {s s' : TokenStream}

theorem Doc.pieces_of_widths (hp : o.printWidth = o'.printWidth) (ht : o.tabWidth = o'.tabWidth)
    (d : Doc) : ∀ (indent : Nat) (mode : Mode) (rest : List Pending) (column : Nat),
    pieces o indent mode rest column d = pieces o' indent mode rest column d := by
  induction d using Doc.induction with
  | text s => exact fun _ _ _ _ => rfl
  | concat ds ih =>
    intro indent mode rest column
    rw [pieces, pieces]
    induction ds generalizing column with
    | nil => rfl
    | cons d ds ihs =>
      have tail := ihs fun d hd => ih d (List.mem_cons_of_mem _ hd)
      rw [piecesAll, piecesAll, ih d List.mem_cons_self]
      simp only [tail]
  | indent d ih =>
    intro indent mode rest column
    rw [pieces, pieces, ih, Options.deeper, Options.deeper, ht]
  | group d ih =>
    intro indent mode rest column
    rw [pieces, pieces, ih, Options.room, Options.room, hp]
  | line | softLine | hardLine => exact fun _ _ _ _ => rfl

theorem Doc.render_of_widths (hp : o.printWidth = o'.printWidth) (ht : o.tabWidth = o'.tabWidth)
    (d : Doc) : d.render o = d.render o' := by
  rw [render, render, d.pieces_of_widths hp ht]

theorem Token.canonicalKey_of_not_bracket {t : Token} (h : t.kind ∉ Kind.brackets) :
    t.canonicalKey = t.key :=
  if_neg h

theorem Span.default_through (a b : Span) : (fun _ => default : Span → Span) (a.through b) =
    ((fun _ => default : Span → Span) a).through ((fun _ => default : Span → Span) b) := rfl

/-- Tokens and those that they are formatted to. -/
def Likeness.canonical : Likeness where
  token t t' := t'.key = t.canonicalKey
  left _ := default
  right _ := default
  limit? := none
  kind_eq h := ((congrArg Key.kind h).trans (Token.canonicalKey_kind _)).symm
  text_eq h hk := (congrArg Key.text (h.trans (Token.canonicalKey_of_not_bracket hk))).symm
  span_eq _ := rfl
  left_through := Span.default_through
  right_through := Span.default_through

theorem TokenStream.parse_of_canonicalKeys (h : s.parse l = .ok n)
    (hk : s'.tokens.map Token.key = canonicalKeys s.tokens) :
    ∃ n', s'.parse l = .ok n' ∧ n'.bare = n.bare := by
  obtain ⟨n₁, h₁, hs⟩ := parse_dropTrailing h
  have levels := (Likeness.Nesteds.refused (L := .canonical) l).levels l
  have tokens : List.Forall₂ Likeness.canonical.token (dropTrailing s.tokens) s'.tokens := by
    have same : List.Forall₂ Eq (s'.tokens.map Token.key)
        ((dropTrailing s.tokens).map Token.canonicalKey) := by
      rw [List.forall₂_eq_eq_eq, map_canonicalKey_dropTrailing, hk]
    rw [List.forall₂_map_left_iff, List.forall₂_map_right_iff] at same
    exact same.flip
  obtain ⟨n, n', hn, hn', hb⟩ | ⟨e, _, he, -⟩ | ⟨_, _, _, hl, _⟩ :=
    Likeness.parse_alike (s := { s with tokens := dropTrailing s.tokens }) levels tokens rfl
  · cases h₁.symm.trans hn
    exact ⟨n', hn', hb.symm.trans (Node.bare_of_shape_eq hs)⟩
  · cases h₁.symm.trans he
  · cases hl

theorem Shape.keepsDots_bare (s : Shape Node) : (s.map Node.bare).KeepsDots ↔ s.KeepsDots := by
  cases s with
  | field object op name =>
    exact imp_congr_right fun _ => by rw [Node.isDigits_bare]
  | _ => exact Iff.rfl

theorem Node.every_keepsDots_of_bare_eq {m : Node} (h : n.bare = m.bare)
    (hn : n.Every Shape.KeepsDots) : m.Every Shape.KeepsDots := by
  rw [← Node.every_bare_iff Shape.keepsDots_bare] at hn ⊢
  rwa [← h]

variable {source text : String} {parsed : Parsed} {stream : TokenStream} {xs ys ts : List Token}

theorem Printout.tokenize_render (hp : Printout xs ns) (hx : AllLexed xs)
    (hn : Node.Every Shape.KeepsDots ⟨sp, .root ns⟩) (o : Options) :
    ∃ doc stream, Node.toDoc ⟨sp, .root ns⟩ = .ok doc ∧ tokenize (doc.render o) = .ok stream ∧
      stream.tokens.map Token.key = canonicalKeys xs ∧ stream.comments = [] := by
  obtain ⟨doc, ms, hd, hm, hw, hr⟩ := hp.toDoc hx sp
  have hc : ∀ k ∈ words ms, k.Canonical := hw ▸ canonical_of_mem_canonicalKeys hx
  have apart : dotsApart (words ms) = true := by
    rw [hw, dotsApart_canonicalKeys]
    exact (hp.undotted hx fun n hm => hn.child hm).apart
  obtain ⟨stream, hs, hk, hcs⟩ :=
    (hm.render (fun k hk => (hc k hk).solid) o).tokenize hc (abutting_of_run hr) apart
  exact ⟨doc, stream, hd, hs, hk.trans hw, hcs⟩

theorem TokenStream.ReadsPrinted.parse_render {doc : Doc} (h : ReadsPrinted l n)
    (hn : n.Every Shape.KeepsDots) (hd : n.toDoc = .ok doc) (o : Options) :
    ∃ stream n', tokenize (doc.render o) = .ok stream ∧ stream.comments = [] ∧
      stream.parse l = .ok n' ∧ n'.bare = n.bare := by
  obtain ⟨s', sp, ns, hs, hb, hpr, hx⟩ := h
  obtain ⟨doc', stream, hd', ht, hk, hc⟩ :=
    hpr.tokenize_render hx (Node.every_keepsDots_of_bare_eq hb.symm hn) o
  cases hd.symm.trans (Node.toDoc_of_bare_eq hb hd')
  obtain ⟨n', hn', hb'⟩ := TokenStream.parse_of_canonicalKeys hs hk
  exact ⟨stream, n', ht, hc, hn', hb'.trans hb⟩

/-- The text is read back as the tree, without comments, and formatting it changes nothing. -/
def ReadsBack (text : String) (o : Options) (tree : Node) : Prop :=
  ∃ parsed, parse text o = .ok parsed ∧ parsed.tree.bare = tree.bare ∧ parsed.comments = [] ∧
    format text o = .ok text

theorem readsBack_of_parse {doc : Doc} {n' : Node} (hd : n.toDoc = .ok doc)
    (ho : o.printWidth = o'.printWidth) (ht : o.tabWidth = o'.tabWidth)
    (hs : tokenize (doc.render o) = .ok stream) (hc : stream.comments = [])
    (hp : stream.parse o'.nestingLimit = .ok n') (hb : n'.bare = n.bare) :
    ReadsBack (doc.render o) o' n := by
  have again := parse_of_ok hs hp
  obtain ⟨doc', hd', hf⟩ := format_of_parse again
  rw [Node.toDoc_of_bare_eq hb.symm hd] at hd'
  cases hd'
  rw [← doc.render_of_widths ho ht] at hf
  exact ⟨_, again, hb, hc, hf⟩

/-- Tokens are not what other tokens print that part with them at a bracket. -/
theorem Parting.not_printed (h : Parting xs ys) : xs.map Token.key ≠ canonicalKeys ys := by
  obtain ⟨zs, t, ts, u, us, rfl, rfl, ht, hu, hne⟩ := h
  have comma : u.kind ≠ .comma := by
    rintro hk
    simp [hk] at hu
  have brace : u.kind ≠ .rBrace := by
    rintro hk
    simp [hk] at hu
  clear ht hu
  induction zs with
  | nil =>
    rw [List.nil_append, List.nil_append, canonicalKeys_cons comma]
    intro he
    have kinds := congrArg Key.kind (List.cons.inj he).1
    rw [Token.canonicalKey_kind] at kinds
    exact hne kinds
  | cons z zs ih =>
    rw [List.cons_append, List.cons_append, List.map_cons, canonicalKeys]
    split
    next hz =>
      -- The token after the comma that is not printed is a brace in both.
      cases zs with
      | nil => exact absurd (by simpa using hz.2) brace
      | cons y zs =>
        have hy : y.kind = .rBrace := by simpa using hz.2
        rw [List.cons_append, List.cons_append, canonicalKeys_cons (by rw [hy]; decide)]
        intro he
        have kinds := congrArg Key.kind (List.cons.inj he).1
        rw [Token.canonicalKey_kind, hy] at kinds
        cases hz.1.symm.trans kinds
    next => exact fun he => ih (List.cons.inj he).2

/-- A header that is lost is not read back. -/
theorem ReadsBack.losesHeader (h : ReadsBack text o n) (hd : n.Every Shape.KeepsDots) :
    ∀ m ∈ n.children, m.losesHeader = false := by
  obtain ⟨parsed, hp, hb, -, hf⟩ := h
  obtain ⟨stream, hs, htree, -⟩ := parse_cases hp
  obtain ⟨parsed', doc, hp', hdoc, rfl⟩ := format_cases hf
  cases hp.symm.trans hp'
  obtain ⟨sp, ns, hroot, hder⟩ := TokenStream.derives_of_parse htree
  have kept : ∀ m ∈ ns, m.losesHeader = false := by
    obtain kept | ⟨ys, hpr, hy, hpart⟩ := hder.printout_cases (lexed_of_tokenize hs)
    · exact kept
    · have dots := Node.every_keepsDots_of_bare_eq hb.symm hd
      rw [hroot] at dots hdoc
      obtain ⟨doc', stream', hd', hs', hk, -⟩ := hpr.tokenize_render hy dots o
      cases hdoc.symm.trans hd'
      cases hs.symm.trans hs'
      exact absurd hk hpart.not_printed
  intro m hm
  have same : n.children.map Node.bare = ns.map Node.bare := by
    rw [← Node.children_bare, ← hb, Node.children_bare, hroot]
    rfl
  obtain ⟨m', hm', he⟩ := List.mem_map.mp (same ▸ List.mem_map_of_mem hm)
  rw [← Node.losesHeader_bare, ← he, Node.losesHeader_bare, kept m' hm']

/-- Formatted text is read back as the tree that it was printed from, without comments, and
formatting it with the same widths changes nothing. There are two exceptions: a dot directly after
digits, and a header that no longer declares a function where the list of the name is put back at
another place. A list that is put back elsewhere can also be nested too deeply there. -/
theorem format_round_trip (hs : tokenize source = .ok stream) (hp : parse source o = .ok parsed)
    (hf : format source o = .ok text) (hd : parsed.tree.Every Shape.KeepsDots) :
    (HasDefinition (·.losesList = true) stream.tokens parsed.tree.children ∧
      ¬ ReadsBack text { o with maxNestingDepth := 256 } parsed.tree) ∨
    (¬ HasDefinition (·.losesList = true) stream.tokens parsed.tree.children ∧
      (ReadsBack text { o with maxNestingDepth := 256 } parsed.tree ∨
        HasDefinition (·.movesList = true) stream.tokens parsed.tree.children ∧
          ∃ e, parse text { o with maxNestingDepth := 256 } = .error [.parse e] ∧
            e.fault = .tooDeep 256)) := by
  obtain ⟨parsed', doc, hp', hdoc, rfl⟩ := format_cases hf
  cases hp.symm.trans hp'
  obtain ⟨stream', hs', htree, -⟩ := parse_cases hp
  cases hs.symm.trans hs'
  by_cases lost : HasDefinition (·.losesList = true) stream.tokens parsed.tree.children
  · refine .inl ⟨lost, fun back => ?_⟩
    obtain ⟨n, hn, hl⟩ := lost.exists_losesHeader
    rw [back.losesHeader hd n hn] at hl
    cases hl
  refine .inr ⟨lost, ?_⟩
  have hx := lexed_of_tokenize hs
  have deepest : stream.parse 256 = .ok parsed.tree := by
    have least : o.nestingLimit ≤ 256 := Nat.min_le_right _ _
    obtain ⟨e, he, -⟩ | he := stream.parse_of_le least
    · cases htree.symm.trans he
    · exact he.trans htree
  obtain moved | reads := TokenStream.reprint (Likeness.lower_levels 256 256 256 0) (by decide)
    (regrafting_unmoved 256 256 _) deepest hx
  · obtain lost' | reads := TokenStream.reprint
      (Likeness.lower_levels 256 (256 + stream.tokens.length) 256 stream.tokens.length)
      (Nat.le_add_right_of_le (by decide)) (regrafting_unlost 256 _ 256 _ _ le_rfl) deepest hx
    · exact absurd lost' lost
    obtain ⟨stream', n', ht, hc, hn', hb⟩ := reads.parse_render hd hdoc o
    obtain ⟨e, he, hf⟩ | he := stream'.parse_of_le (Nat.le_add_right 256 stream.tokens.length)
    · exact .inr ⟨moved, e, parse_of_error ht he, hf⟩
    · exact .inl (readsBack_of_parse hdoc rfl rfl ht hc (he.symm.trans hn') hb)
  · obtain ⟨stream', n', ht, hc, hn', hb⟩ := reads.parse_render hd hdoc o
    exact .inl (readsBack_of_parse hdoc rfl rfl ht hc hn' hb)

example : (format "int ((*f))(int) \x7b\x7d" {}).toOption = some "int ((*f(int))) \x7b\x7d\n" ∧
    (parse "int ((*f(int))) \x7b\x7d\n" {}).toOption.isNone = true := by
  decide +kernel

theorem HasDefinition.not_plain {ts : List Token}
    (h : HasDefinition (·.movesList = true) ts ns) : ∃ n ∈ ns, n.hasPlainHeader = false := by
  induction h with
  | later _ _ ih =>
    obtain ⟨n, hn, hp⟩ := ih
    exact ⟨n, List.mem_cons_of_mem _ hn, hp⟩
  | @here _ _ a n _ hdef ha _ =>
    refine ⟨n, List.mem_cons_self, Bool.eq_false_iff.mpr fun hp => ?_⟩
    cases hdef with
    | mk _ _ hf =>
      have kept := Node.keepsList_of_isPlainHeader ((Node.isPointedName_header hf).mp hp)
      simp [Node.movesList, kept] at ha

/-- A comment, two digraphs and a comma before a brace go, and the tree stays, with no room on a
line at all. -/
theorem format_round_trip_narrow : ∃ parsed text parsed',
    parse "int f()<%enum\x7bA,\x7d;/**/return f(A).x;%>" { printWidth := 0 } = .ok parsed ∧
    format "int f()<%enum\x7bA,\x7d;/**/return f(A).x;%>" { printWidth := 0 } = .ok text ∧
    parsed.comments ≠ [] ∧ parse text { printWidth := 0, maxNestingDepth := 256 } = .ok parsed' ∧
    parsed'.tree.bare = parsed.tree.bare ∧ parsed'.comments = [] ∧
    format text { printWidth := 0, maxNestingDepth := 256 } = .ok text := by
  obtain ⟨stream, hs, -⟩ := exists_ok_of_any (p := fun _ => true)
    (x := tokenize "int f()<%enum\x7bA,\x7d;/**/return f(A).x;%>") (by decide +kernel)
  obtain ⟨parsed, hp, hq⟩ := exists_ok_of_any
    (x := parse "int f()<%enum\x7bA,\x7d;/**/return f(A).x;%>" { printWidth := 0 })
    (p := fun q => decide (q.tree.Every Shape.KeepsDots) && !q.comments.isEmpty &&
      q.tree.children.all Node.hasPlainHeader) (by decide +kernel)
  obtain ⟨text, hf, -⟩ := exists_ok_of_any (p := fun _ => true)
    (x := format "int f()<%enum\x7bA,\x7d;/**/return f(A).x;%>" { printWidth := 0 })
    (by decide +kernel)
  simp only [Bool.and_eq_true, decide_eq_true_eq, List.all_eq_true] at hq
  obtain ⟨⟨hd, hc⟩, plain⟩ := hq
  have unmoved : ¬ HasDefinition (·.movesList = true) stream.tokens parsed.tree.children := by
    intro moved
    obtain ⟨n, hn, hk⟩ := moved.not_plain
    rw [plain n hn] at hk
    cases hk
  obtain ⟨lost, -⟩ | ⟨-, ⟨parsed', hp', hb, hc', hf'⟩ | ⟨moved, -⟩⟩ := format_round_trip hs hp hf hd
  · exact absurd lost.moved unmoved
  · exact ⟨parsed, text, parsed', hp, hf, by simpa using hc, hp', hb, hc', hf'⟩
  · exact absurd moved unmoved

end CPretty
