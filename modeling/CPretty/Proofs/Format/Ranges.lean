import CPretty.Proofs.Format.Independence
import CPretty.Proofs.Grammar.Spans.SourceFile
import CPretty.Proofs.Token.Segments

namespace CPretty

variable {source : String} {stream : TokenStream} {loc : Location} {cs : List Char}
  {xs ys : List Token} {n : Node} {ns : List Node} {t : Token}

/-- The characters of a text that starts at `loc`, each with its place. -/
def Location.places (loc : Location) : List Char → List (Location × Char)
  | [] => []
  | c :: cs => (loc, c) :: (loc.next c).places cs

namespace Span

/-- The place is none before the first and none after the last of the range. -/
def Holds (sp : Span) (loc : Location) : Prop := sp.first ≤ loc ∧ loc ≤ sp.last

instance (sp : Span) (loc : Location) : Decidable (sp.Holds loc) :=
  inferInstanceAs (Decidable (sp.first ≤ loc ∧ loc ≤ sp.last))

def slice (sp : Span) (source : String) : String :=
  String.ofList (((Location.start.places source.toList).filter
    fun p => decide (sp.Holds p.1)).map Prod.snd)

end Span

namespace Location

theorem le_trans {a b c : Location} (h : a ≤ b) (h' : b ≤ c) : a ≤ c := by
  obtain rfl | h := h
  · exact h'
  · exact .inr (lt_of_lt_of_le h h')

theorem lt_of_le_of_lt {a b c : Location} (h : a ≤ b) (h' : b < c) : a < c := by
  obtain rfl | h := h
  · exact h'
  · exact lt_trans h h'

theorem places_append (loc : Location) (cs ds : List Char) :
    loc.places (cs ++ ds) = loc.places cs ++ (loc.after cs).places ds := by
  induction cs generalizing loc with
  | nil => rfl
  | cons c cs ih => rw [List.cons_append, places, places, ih]; rfl

theorem map_snd_places (loc : Location) (cs : List Char) : (loc.places cs).map Prod.snd = cs := by
  induction cs generalizing loc with
  | nil => rfl
  | cons c cs ih => rw [places, List.map_cons, ih]

theorem le_of_mem_places {p : Location × Char} (h : p ∈ loc.places cs) :
    loc ≤ p.1 ∧ p.1 < loc.after cs := by
  induction cs generalizing loc with
  | nil => cases h
  | cons c cs ih =>
    rw [places, List.mem_cons] at h
    obtain rfl | h := h
    · exact ⟨.inl rfl, loc.lt_after (List.cons_ne_nil c cs)⟩
    · exact ⟨.inr (lt_of_lt_of_le (loc.lt_next c) (ih h).1), (ih h).2⟩

theorem after_dropLast_lt (loc : Location) (h : cs ≠ []) :
    loc.after cs.dropLast < loc.after cs := by
  rw [← List.dropLast_append_getLast h, after_append, List.dropLast_concat]
  exact lt_next _ _

theorem le_after_dropLast {p : Location × Char} (h : p ∈ loc.places cs) :
    p.1 ≤ loc.after cs.dropLast := by
  have hne : cs ≠ [] := by
    rintro rfl
    cases h
  rw [← List.dropLast_append_getLast hne, places_append, List.mem_append] at h
  obtain h | h := h
  · exact .inr (le_of_mem_places h).2
  · rw [places, List.mem_cons] at h
    obtain rfl | h := h
    · exact .inl rfl
    · cases h

end Location

theorem filter_middle {α : Type} {p : α → Bool} {us xs vs : List α}
    (hu : ∀ a ∈ us, ¬ p a = true) (hx : ∀ a ∈ xs, p a = true) (hv : ∀ a ∈ vs, ¬ p a = true) :
    (us ++ xs ++ vs).filter p = xs := by
  rw [List.filter_append, List.filter_append, List.filter_eq_nil_iff.mpr hu,
    List.filter_eq_self.mpr hx, List.filter_eq_nil_iff.mpr hv, List.nil_append, List.append_nil]

/-- The slice from the first to the last character of a part of a source is that part. -/
theorem Span.slice_eq {before text rest : List Char} {sp : Span}
    (hs : source.toList = before ++ text ++ rest) (ht : text ≠ [])
    (hf : sp.first = Location.start.after before)
    (hl : sp.last = (Location.start.after before).after text.dropLast) :
    sp.slice source = String.ofList text := by
  rw [slice, hs, Location.places_append, Location.places_append,
    filter_middle (fun p hp => ?ahead) (fun p hp => ?inside) (fun p hp => ?behind),
    Location.map_snd_places]
  case ahead =>
    have := Location.not_le_of_lt (Location.le_of_mem_places hp).2
    simp [Span.Holds, hf, this]
  case inside =>
    exact decide_eq_true ⟨hf ▸ (Location.le_of_mem_places hp).1, hl ▸ Location.le_after_dropLast hp⟩
  case behind =>
    have first := (Location.le_of_mem_places hp).1
    rw [Location.after_append] at first
    have := Location.not_le_of_lt (Location.lt_of_lt_of_le
      ((Location.start.after before).after_dropLast_lt ht) first)
    simp [Span.Holds, hl, this]

abbrev InOrder (xs : List Token) : Prop := xs.Pairwise (·.lastLocation < ·.location)

theorem Fills.apart {b : Bool} {ls : List Located} (h : Fills loc b cs ls) :
    ls.Pairwise fun a b => a.location.after a.text.toList.dropLast < b.location := by
  induction h with
  | nil => exact .nil
  | blank _ _ _ ih => exact ih
  | lexeme loc _ _ h ih =>
    refine .cons (fun m hm => ?_) ih
    rw [String.toList_ofList]
    exact Location.lt_of_lt_of_le (loc.after_dropLast_lt (List.cons_ne_nil _ _)) (h.le m hm)

theorem Fills.exists_text {b : Bool} {ls : List Located} {l : Located} (h : Fills loc b cs ls)
    (hl : l ∈ ls) :
    ∃ before rest, cs = before ++ l.text.toList ++ rest ∧ l.text.toList ≠ [] ∧
      l.location = loc.after before := by
  induction h with
  | nil => cases hl
  | @blank loc b c cs ls _ _ ih =>
    obtain ⟨before, rest, rfl, hne, hloc⟩ := ih hl
    exact ⟨c :: before, rest, rfl, hne, hloc⟩
  | @lexeme loc b c tail cs l' ls _ _ _ ih =>
    obtain rfl | hl := List.mem_cons.mp hl
    · exact ⟨[], cs, by simp, by simp, rfl⟩
    · obtain ⟨before, rest, rfl, hne', hloc⟩ := ih hl
      exact ⟨c :: tail ++ before, rest, by simp, hne', hloc.trans (Location.after_append ..).symm⟩

theorem Located.of_token? {l : Located} (h : l.token? = some t) :
    l.text = t.text ∧ l.location = t.location := by
  obtain ⟨lexeme, text, loc⟩ := l
  cases lexeme <;> cases h
  exact ⟨rfl, rfl⟩

theorem inOrder_of_tokenize (h : tokenize source = .ok stream) : InOrder stream.tokens := by
  rw [← (tokenize_of_ok h).2.1, InOrder, List.pairwise_filterMap]
  refine (fills_lexemes source).apart.imp fun {a b} hab t ht u hu => ?_
  obtain ⟨hx, hl⟩ := Located.of_token? ht
  rw [Token.lastLocation, ← hx, ← hl, ← (Located.of_token? hu).2]
  exact hab

theorem slice_of_mem (h : tokenize source = .ok stream) (ht : t ∈ stream.tokens) :
    t.span.slice source = t.text := by
  rw [← (tokenize_of_ok h).2.1, List.mem_filterMap] at ht
  obtain ⟨l, hl, ht⟩ := ht
  obtain ⟨hx, hloc⟩ := Located.of_token? ht
  obtain ⟨before, rest, hs, hne, hfirst⟩ := (fills_lexemes source).exists_text hl
  rw [hx] at hs hne
  rw [hloc] at hfirst
  rw [Span.slice_eq hs hne hfirst (by rw [Token.span, Token.lastLocation, hfirst]),
    String.ofList_toList]

namespace Spans

theorem le_of_starts {l : Location} (h : StartsAt xs l) (hx : InOrder xs) (ht : t ∈ xs) :
    l ≤ t.location := by
  obtain ⟨u, us, rfl, rfl⟩ := h
  obtain rfl | ht := List.mem_cons.mp ht
  · exact .inl rfl
  · exact .inr (Location.lt_of_le_of_lt (Location.le_after _ _) ((List.pairwise_cons.mp hx).1 t ht))

theorem le_of_ends {l : Location} (h : EndsAt xs l) (hx : InOrder xs) (ht : t ∈ xs) :
    t.lastLocation ≤ l := by
  obtain ⟨us, u, rfl, rfl⟩ := h
  rw [List.mem_append, List.mem_singleton] at ht
  obtain ht | rfl := ht
  · have := (List.pairwise_append.mp hx).2.2 t ht u (List.mem_singleton.mpr rfl)
    exact .inr (Location.lt_of_lt_of_le this (Location.le_after _ _))
  · exact .inl rfl

theorem exists_first (h : Spans xs n) : ∃ t ∈ xs, t.location = n.span.first := by
  obtain ⟨t, ts, rfl, ht⟩ := h.starts
  exact ⟨t, List.mem_cons_self, ht⟩

theorem exists_last (h : Spans xs n) : ∃ t ∈ xs, t.lastLocation = n.span.last := by
  obtain ⟨ts, t, rfl, ht⟩ := h.ends
  exact ⟨t, List.mem_append_right ts (List.mem_singleton.mpr rfl), ht⟩

theorem wellFormed (h : Spans xs n) (hx : InOrder xs) : n.span.WellFormed := by
  obtain ⟨t, ht, hl⟩ := h.exists_first
  rw [Span.WellFormed, ← hl]
  exact Location.le_trans (Location.le_after _ _) (le_of_ends h.ends hx ht)

theorem inside {m : Node} (h : Spans xs n) (hx : InOrder xs) (hm : Spans ys m)
    (hy : ∀ t ∈ ys, t ∈ xs) : n.span.first ≤ m.span.first ∧ m.span.last ≤ n.span.last := by
  obtain ⟨t, ht, hf⟩ := hm.exists_first
  obtain ⟨u, hu, hl⟩ := hm.exists_last
  exact ⟨hf ▸ le_of_starts h.starts hx (hy t ht), hl ▸ le_of_ends h.ends hx (hy u hu)⟩

/-- In a source, the tokens in the range of a node are those it covers. -/
theorem filter_eq {us vs : List Token} (h : Spans xs n) (hx : InOrder (us ++ xs ++ vs)) :
    (us ++ xs ++ vs).filter (fun t => decide (n.span.Holds t.location)) = xs := by
  obtain ⟨hux, -, hv⟩ := List.pairwise_append.mp hx
  obtain ⟨-, order, hu⟩ := List.pairwise_append.mp hux
  obtain ⟨t, ht, hf⟩ := h.exists_first
  obtain ⟨t', ht', hl⟩ := h.exists_last
  refine filter_middle (fun u hm => ?ahead) (fun u hm => ?inside) fun v hm => ?behind
  case ahead =>
    have before := Location.lt_of_le_of_lt (Location.le_after _ _) (hu u hm t ht)
    simp [Span.Holds, ← hf, Location.not_le_of_lt before]
  case inside =>
    have before := Location.le_trans (Location.le_after _ _) (le_of_ends h.ends order hm)
    exact decide_eq_true ⟨le_of_starts h.starts order hm, before⟩
  case behind =>
    have after := hv t' (List.mem_append_right us ht') v hm
    simp [Span.Holds, ← hl, Location.not_le_of_lt after]

end Spans

theorem Parts.apart (h : Parts Spans xs ns) (hx : InOrder xs) :
    ns.Pairwise (·.span.last < ·.span.first) := by
  induction h with
  | nil => exact .nil
  | token t _ ih => exact ih (List.pairwise_cons.mp hx).2
  | node hn hs ih =>
    obtain ⟨-, hy, hxy⟩ := List.pairwise_append.mp hx
    refine .cons (fun m hm => ?_) (ih hy)
    obtain ⟨t, ht, hl⟩ := hn.exists_last
    obtain ⟨us, ys, vs, rfl, hm⟩ := hs.of_mem hm
    obtain ⟨u, hu, hf⟩ := hm.exists_first
    rw [← hl, ← hf]
    exact hxy t ht u (by simp [hu])

def Shape.word? {α : Type} : Shape α → Option String
  | .ident text | .keyword text | .const text => some text
  | _ => none

/-- The range of the node ends where it starts or later and holds those of its children, and the
children in each row stand one after another. -/
structure Node.Ranged (n : Node) : Prop where
  wellFormed : n.span.WellFormed
  inside : ∀ c ∈ n.children, n.span.first ≤ c.span.first ∧ c.span.last ≤ n.span.last
  apart : ∀ row ∈ n.shape.rows, row.Pairwise (·.span.last < ·.span.first)

theorem Spans.ranged (h : Spans xs n) (hx : InOrder xs) : n.Ranged := by
  refine ⟨h.wellFormed hx, fun c hc => ?_, fun row hr => (h.rows row hr).apart hx⟩
  obtain ⟨ys, hy, hc⟩ := h.within (.child hc .refl)
  exact h.inside hx hc fun t ht => hy.subset ht

theorem InOrder.eq_of_location {a b : Token} (hx : InOrder xs) (ha : a ∈ xs) (hb : b ∈ xs)
    (h : a.location = b.location) : a = b := by
  have earlier {a b : Token} (hab : a.lastLocation < b.location) : a.location ≠ b.location :=
    fun h => Location.not_le_of_lt hab (h ▸ Location.le_after _ _)
  induction xs with
  | nil => cases ha
  | cons t ts ih =>
    obtain ⟨ht, hts⟩ := List.pairwise_cons.mp hx
    obtain rfl | ha' := List.mem_cons.mp ha <;> obtain rfl | hb' := List.mem_cons.mp hb
    · rfl
    · exact absurd h (earlier (ht b hb'))
    · exact absurd h.symm (earlier (ht a ha'))
    · exact ih hts ha' hb'

/-- Tokens in a row with the range of a single token are that token. -/
theorem InOrder.eq_singleton {sp : Span} (hx : InOrder xs) (hy : ys <:+: xs)
    (hs : StartsAt ys sp.first) (he : EndsAt ys sp.last) (ht : t ∈ xs) (h : t.span = sp) :
    ys = [t] := by
  subst h
  have hys : InOrder ys := hx.sublist hy.sublist
  obtain ⟨u, us, rfl, hu⟩ := hs
  obtain rfl := hx.eq_of_location (hy.subset List.mem_cons_self) ht hu
  cases us with
  | nil => rfl
  | cons v vs =>
    have later := (List.pairwise_cons.mp hys).1 v List.mem_cons_self
    have last : v.lastLocation ≤ u.lastLocation := Spans.le_of_ends he hys (by simp)
    exact absurd (Location.le_trans (Location.le_after _ _) last) (Location.not_le_of_lt later)

theorem Shape.Spells.text_eq {α : Type} {s : Shape α} {text : String} (h : s.Spells [t])
    (hw : s.word? = some text) : text = t.text := by
  cases s with
  | ident | keyword =>
    cases hw
    obtain ⟨u, hu, rfl⟩ := h
    cases hu
    rfl
  | const =>
    cases hw
    rw [Spells, Token.texts, List.map_singleton, String.intercalate_singleton] at h
    exact h
  | _ => cases hw

/-- The ranges of a tree are exact and nest. A name, a keyword or a constant has the text of the
tokens in its range, and where that is a single token the source has the same text there. -/
theorem ranges_of_parse {o : Options} {parsed : Parsed} (h : parse source o = .ok parsed) :
    ∃ stream, tokenize source = .ok stream ∧ ∀ n : Node, n.Within parsed.tree → n.Ranged ∧
      ∀ text, n.shape.word? = some text →
        (∃ ts, ts <:+: stream.tokens ∧ StartsAt ts n.span.first ∧ EndsAt ts n.span.last ∧
          n.shape.Spells ts) ∧
        ∀ t ∈ stream.tokens, t.span = n.span → n.span.slice source = text := by
  rw [parse] at h
  split at h
  · cases h
  next stream hs =>
  split at h
  · cases h
  next tree ht =>
  cases h
  refine ⟨stream, hs, fun n hn => ?_⟩
  have order := inOrder_of_tokenize hs
  obtain ⟨ns, row, rfl⟩ := TokenStream.row_of_parse ht
  by_cases hne : ns = []
  · -- The root of a source without tokens stands at the end marker.
    subst hne
    cases hn with
    | child hc => cases hc
    | refl =>
      refine ⟨⟨.inl rfl, fun _ hc => ?_, ?_⟩, fun _ hw => by cases hw⟩
      · cases hc
      · simp [Node.shape, Shape.rows, Shape.children]
  · obtain ⟨first, last⟩ := row.spanOf hne (Token.eof stream.finish).span
    have root : Spans stream.tokens ⟨_, .root ns⟩ := .plain rfl first last row.parts
    obtain ⟨ys, hy, hn⟩ := root.within hn
    refine ⟨hn.ranged (order.sublist hy.sublist), fun text hw => ?_⟩
    refine ⟨⟨ys, hy, hn.starts, hn.ends, hn.spells⟩, fun t ht hsp => ?_⟩
    have single := order.eq_singleton hy hn.starts hn.ends ht hsp
    rw [← hsp, slice_of_mem hs ht, Shape.Spells.text_eq (single ▸ hn.spells) hw]

/-- A string over two lines ends on the second one, before the semicolon that ends the root. -/
theorem ranges_of_parse_continued :
    ∃ parsed, parse "char *s = \"a\\\nb\";" {} = .ok parsed ∧
      parsed.tree.span = ⟨⟨1, 1⟩, ⟨2, 3⟩⟩ ∧ ∀ n : Node, n.Within parsed.tree → n.Ranged := by
  obtain ⟨parsed, h, hs⟩ := exists_ok_of_any (x := parse "char *s = \"a\\\nb\";" {})
    (p := fun parsed => parsed.tree.span = ⟨⟨1, 1⟩, ⟨2, 3⟩⟩) (by decide +kernel)
  obtain ⟨stream, -, ranges⟩ := ranges_of_parse h
  exact ⟨parsed, h, of_decide_eq_true hs, fun n hn => (ranges n hn).1⟩

example : (⟨⟨1, 11⟩, ⟨2, 2⟩⟩ : Span).slice "char *s = \"a\\\nb\";" = "\"a\\\nb\"" := by
  decide +kernel

end CPretty
