import CPretty.Proofs.Grammar.Attached
import CPretty.Proofs.Grammar.Sited.SourceFile

namespace CPretty

variable {source : String} {o : Options} {stream : TokenStream} {e : ParseError}

theorem Location.lt_or_eq_or_gt (a b : Location) : a < b ∨ a = b ∨ b < a := by
  obtain ⟨l, c⟩ := a
  obtain ⟨l', c'⟩ := b
  change (l < l' ∨ l = l' ∧ c < c') ∨ _ ∨ (l' < l ∨ l' = l ∧ c' < c)
  rw [Location.mk.injEq]
  omega

theorem Location.le_antisymm {a b : Location} (h : a ≤ b) (h' : b ≤ a) : a = b := by
  obtain h | h := h
  · exact h
  · exact absurd h' (Location.not_le_of_lt h)

theorem inOrder_terminated (h : tokenize source = .ok stream) : InOrder stream.terminated := by
  obtain ⟨-, ht, -, hf⟩ := tokenize_of_ok h
  refine List.pairwise_append.mpr ⟨inOrder_of_tokenize h, List.pairwise_singleton _ _, ?_⟩
  intro t hm u hu
  obtain rfl := List.mem_singleton.mp hu
  rw [← ht, List.mem_filterMap] at hm
  obtain ⟨l, hl, hm⟩ := hm
  obtain ⟨hx, hloc⟩ := Located.of_token? hm
  obtain ⟨before, rest, hs, hne, hplace⟩ := (fills_lexemes source).exists_text hl
  rw [Token.lastLocation, ← hloc, ← hx, hplace]
  refine Location.lt_of_lt_of_le (Location.after_dropLast_lt _ hne) ?_
  change _ ≤ stream.finish
  rw [← hf, hs, Location.after_append, Location.after_append]
  exact Location.le_after _ _

theorem Cursor.Passes.terminated {xs : List Token} {c d : Cursor} (p : c.Passes xs d) :
    ∃ ys, c.ahead ++ [c.finish] = xs ++ d.peek :: ys := by
  rw [p.ahead, List.append_assoc, ← p.finish]
  obtain ⟨_ | ⟨t, ts⟩, finish⟩ := d
  · exact ⟨[], rfl⟩
  · exact ⟨ts ++ [finish], rfl⟩

theorem Lands.sited {α : Type} {s : Cursor} {limit : Nat} {Q : α → Cursor → Prop}
    (h : Lands s limit Q (.error e)) : e.Sited s limit := by
  cases h with
  | error h => exact h

namespace ParseError.Sited

variable {s : Cursor} {limit : Nat} {a b : ParseError}

theorem exists_place (h : e.Sited s limit) :
    ∃ xs ys, s.ahead ++ [s.finish] = xs ++ e.found :: ys ∧ e.left = ys.length ∧
      e.fault.Fits limit xs e.found.kind := by
  obtain ⟨xs, d, p, hf, hl, hx⟩ := h
  obtain ⟨ys, hy⟩ := p.terminated
  have behind := congrArg List.length hy
  simp only [p.ahead, List.length_append, List.length_cons, List.length_nil] at behind
  exact ⟨xs, ys, hf ▸ hy, by omega, hf ▸ hx⟩

theorem location_lt (ha : a.Sited s limit) (hb : b.Sited s limit)
    (order : InOrder (s.ahead ++ [s.finish])) (h : b.left < a.left) : a.location < b.location := by
  obtain ⟨xs, us, hx, hu, -⟩ := ha.exists_place
  obtain ⟨ys, vs, hy, hv, -⟩ := hb.exists_place
  have suffix : b.found :: vs <:+ us :=
    List.suffix_of_suffix_length_le ⟨ys, hy.symm⟩ ⟨xs ++ [a.found], by simp [hx]⟩
      (by simp only [List.length_cons]; omega)
  rw [hx] at order
  have later := (List.pairwise_cons.mp (List.pairwise_append.mp order).2.1).1 b.found
    (suffix.subset List.mem_cons_self)
  exact Location.lt_of_le_of_lt (Location.le_after _ _) later

theorem location_eq (ha : a.Sited s limit) (hb : b.Sited s limit) (h : a.left = b.left) :
    a.location = b.location := by
  obtain ⟨xs, us, hx, hu, -⟩ := ha.exists_place
  obtain ⟨ys, vs, hy, hv, -⟩ := hb.exists_place
  obtain ⟨-, same⟩ := List.append_inj' (hx.symm.trans hy) (by simp only [List.length_cons]; omega)
  rw [location, location, (List.cons.inj same).1]

theorem furthest_eq {known more : List Expected} (ha : a.Sited s limit) (hb : b.Sited s limit)
    (order : InOrder (s.ahead ++ [s.finish])) (hka : a.fault = .unexpected known)
    (hkb : b.fault = .unexpected more) :
    a.furthest b =
      if a.location = b.location then { a with fault := .unexpected (Expected.pool known more) }
      else if a.location < b.location then b else a := by
  rw [ParseError.furthest, hka, hkb]
  obtain later | same | earlier := Nat.lt_trichotomy b.left a.left
  · have hl := ha.location_lt hb order later
    obtain ⟨apart, -⟩ := not_or.mp (Location.not_le_of_lt hl)
    simp only [if_neg (Nat.ne_of_gt later), if_pos later, if_neg (Ne.symm apart), if_pos hl]
  · simp only [if_pos same.symm, if_pos (ha.location_eq hb same.symm)]
  · obtain ⟨apart, before⟩ := not_or.mp (Location.not_le_of_lt (hb.location_lt ha order earlier))
    simp only [if_neg (Nat.ne_of_lt earlier), if_neg (Nat.lt_asymm earlier), if_neg apart,
      if_neg before]

end ParseError.Sited

namespace ParseError

def expected (e : ParseError) : List Expected :=
  match e.fault with
  | .unexpected es => es
  | .tooDeep _ => []

/-- The error stands at the last place at which one of the readings failed, and lists what the
readings that failed there expected. -/
structure Reports (e : ParseError) (failed : List ParseError) : Prop where
  latest : ∀ f ∈ failed, f.location ≤ e.location
  lists : ∀ x, x ∈ e.expected ↔ ∃ f ∈ failed, f.location = e.location ∧ x ∈ f.expected

variable {s : Cursor} {limit : Nat} {a b d : ParseError}

theorem expected_of_fault {es : List Expected} (h : a.fault = .unexpected es) :
    a.expected = es := by
  rw [expected, h]

theorem exists_fault (h : a.isTooDeep = false) : ∃ es, a.fault = .unexpected es := by
  rw [isTooDeep] at h
  cases hf : a.fault with
  | unexpected es => exact ⟨es, rfl⟩
  | tooDeep l =>
    rw [hf] at h
    cases h

theorem Sited.furthest_reports (ha : a.Sited s limit) (hb : b.Sited s limit)
    (order : InOrder (s.ahead ++ [s.finish])) (hna : a.isTooDeep = false)
    (hnb : b.isTooDeep = false) : (a.furthest b).Reports [a, b] := by
  obtain ⟨known, hka⟩ := exists_fault hna
  obtain ⟨more, hkb⟩ := exists_fault hnb
  have la := expected_of_fault hka
  have lb := expected_of_fault hkb
  rw [ha.furthest_eq hb order hka hkb]
  split
  next same =>
    refine ⟨?_, fun x => ?_⟩
    · exact List.forall_mem_cons.mpr ⟨.inl rfl, List.forall_mem_singleton.mpr (.inl same.symm)⟩
    · change _ ↔ ∃ f ∈ [a, b], f.location = a.location ∧ x ∈ f.expected
      rw [expected_of_fault rfl, Expected.mem_pool, ← la, ← lb]
      simp [same]
  next apart =>
    split
    next later =>
      refine ⟨?_, fun x => by simp [apart]⟩
      exact List.forall_mem_cons.mpr ⟨.inr later, List.forall_mem_singleton.mpr (.inl rfl)⟩
    next earlier =>
      have before : b.location < a.location :=
        ((Location.lt_or_eq_or_gt _ _).resolve_left earlier).resolve_left apart
      refine ⟨?_, fun x => by simp [Ne.symm apart]⟩
      exact List.forall_mem_cons.mpr ⟨.inl rfl, List.forall_mem_singleton.mpr (.inr before)⟩

theorem Reports.trans {g : ParseError} (h : e.Reports [d, g]) (h' : d.Reports [a, b]) :
    e.Reports [a, b, g] := by
  have hd : d.location ≤ e.location := h.latest d List.mem_cons_self
  have hg : g.location ≤ e.location := h.latest g (by simp)
  have inner : ∀ f ∈ [a, b], f.location ≤ d.location := h'.latest
  constructor
  · intro f hf
    obtain hf | hf := List.mem_append.mp (show f ∈ [a, b] ++ [g] from hf)
    · exact Location.le_trans (inner f hf) hd
    · exact List.mem_singleton.mp hf ▸ hg
  · intro x
    have lists : (∃ f ∈ [a, b, g], f.location = e.location ∧ x ∈ f.expected) ↔
        (∃ f ∈ [a, b], f.location = e.location ∧ x ∈ f.expected) ∨
          g.location = e.location ∧ x ∈ g.expected := by simp [or_assoc]
    have listed : (∃ f ∈ [a, b], f.location = e.location ∧ x ∈ f.expected) ↔
        d.location = e.location ∧ x ∈ d.expected := by
      rw [h'.lists]
      constructor
      · rintro ⟨f, hf, hl, hx⟩
        have same : d.location = e.location := Location.le_antisymm hd (hl ▸ inner f hf)
        exact ⟨same, f, hf, hl.trans same.symm, hx⟩
      · rintro ⟨same, f, hf, hl, hx⟩
        exact ⟨f, hf, hl.trans same, hx⟩
    rw [lists, listed, h.lists]
    simp

end ParseError

theorem TokenStream.exists_place {limit : Nat} (h : stream.parse limit = .error e) :
    ∃ xs ys, stream.terminated = xs ++ e.found :: ys ∧ e.fault.Fits limit xs e.found.kind := by
  let start : Cursor := ⟨stream.tokens, Token.eof stream.finish⟩
  have lands : Lands start limit _ (Grammar.sourceFile (.levels limit limit) start) :=
    Grammar.sourceFile_steady (.levels limit) (.start rfl)
  rw [TokenStream.parse] at h
  cases hr : Grammar.sourceFile (.levels limit limit) start with
  | ok r =>
    rw [hr] at h
    cases h
  | error e' =>
    rw [hr] at h lands
    cases h
    obtain ⟨xs, ys, hx, -, hf⟩ := lands.sited.exists_place
    exact ⟨xs, ys, hx, hf⟩

theorem parse_error_cases {es : List SyntaxError} (hs : tokenize source = .ok stream)
    (h : parse source o = .error es) :
    ∃ e, es = [.parse e] ∧ stream.parse o.nestingLimit = .error e := by
  rw [parse, hs] at h
  dsimp only at h
  split at h
  next e he =>
    cases h
    exact ⟨e, rfl, he⟩
  next => cases h

/-- A source that has tokens but no tree has exactly one error. It stands at a token of the source,
the only one there, which is the one that it names as found. It lists at least one alternative and
none twice, or it gives the nesting limit. -/
theorem parse_error_single {es : List SyntaxError} (hs : tokenize source = .ok stream)
    (h : parse source o = .error es) :
    ∃ e, es = [.parse e] ∧ e.found ∈ stream.terminated ∧
      (∀ t ∈ stream.terminated, t.location = e.location → t = e.found) ∧
      match e.fault with
      | .unexpected expected => expected ≠ [] ∧ expected.Nodup
      | .tooDeep limit => limit = min o.maxNestingDepth 256 := by
  obtain ⟨e, rfl, he⟩ := parse_error_cases hs h
  obtain ⟨xs, ys, hx, hf⟩ := TokenStream.exists_place he
  have found : e.found ∈ stream.terminated := by simp [hx]
  refine ⟨e, rfl, found, fun t ht hl => ?_, ?_⟩
  · exact (inOrder_terminated hs).eq_of_location ht found hl
  · split
    next expected hk =>
      rw [hk] at hf
      exact ⟨hf.nonempty, hf.nodup⟩
    next limit hk =>
      rw [hk] at hf
      exact hf

/-- The same alternatives are listed by two readings of the whole, and are reported once. -/
theorem parse_error_single_parameter : ∃ stream e,
    tokenize "int f(int a b);" = .ok stream ∧ parse "int f(int a b);" {} = .error [.parse e] ∧
      e.found ∈ stream.terminated ∧
      (∀ t ∈ stream.terminated, t.location = e.location → t = e.found) ∧
      e.fault = .unexpected [.token .comma, .token .rParen] ∧
      [Expected.token .comma, .token .rParen].Nodup := by
  let reported : ParseError :=
    ⟨.unexpected [.token .comma, .token .rParen], ⟨.ident, "b", ⟨1, 13⟩⟩, 3⟩
  obtain ⟨stream, hs, -⟩ := exists_ok_of_any (x := tokenize "int f(int a b);")
    (p := fun _ => true) (by decide +kernel)
  obtain ⟨es, h, he⟩ := exists_error_of_any (x := parse "int f(int a b);" {})
    (p := fun es => es == [.parse reported]) (by decide +kernel)
  obtain rfl := eq_of_beq he
  obtain ⟨e, same, found, only, told⟩ := parse_error_single hs h
  cases same
  exact ⟨stream, reported, hs, h, found, only, rfl, told.2⟩

/-- The error of a source tells of the first declaration that cannot be read. It may be a function
definition with specifiers, a declaration, or a function definition without specifiers. Each reading
fails, and the error stands where the one that got furthest failed and lists what was expected
there. -/
theorem parse_error_furthest (hs : tokenize source = .ok stream)
    (h : parse source o = .error [.parse e]) (he : e.isTooDeep = false) :
    let deep := Nested.levels o.nestingLimit o.nestingLimit
    ∃ xs ns c a b d, stream.terminated = xs ++ (c.ahead ++ [c.finish]) ∧
      Derives (.sequence .external) xs ns ∧ Grammar.typed deep c = .error a ∧
      Grammar.declaration deep c = .error b ∧ Grammar.functionDefinition deep none c = .error d ∧
      e.Reports [a, b, d] := by
  intro deep
  obtain ⟨e', h', hp⟩ := parse_error_cases hs h
  cases h'
  have sound : deep.Sound := .levels _ _
  have steady (c : Cursor) : deep.AllSteady c o.nestingLimit := .levels _
  have ended : (⟨stream.tokens, .eof stream.finish⟩ : Cursor).Ended := rfl
  obtain ⟨xs, ns, c, p, hx, hr⟩ := Grammar.externals_error sound ended
    (Grammar.externals_of_error (TokenStream.sourceFile_of_parse_error hp))
  have ahead : stream.terminated = xs ++ (c.ahead ++ [c.finish]) := by
    rw [p.finish, ← List.append_assoc, ← p.ahead]
    rfl
  have order : InOrder (c.ahead ++ [c.finish]) :=
    (List.pairwise_append.mp (ahead ▸ inOrder_terminated hs)).2.1
  obtain ⟨ab, d, hab, hd, rfl, nab, nd⟩ := either_error_cases hr he
  obtain ⟨a, b, ha, hb, rfl, na, nb⟩ := either_error_cases hab nab
  -- The readings start at the declaration, so their errors stand in what is left from there on.
  have clear := Cursor.Clear.start (p.ended ended)
  have sited {q : Parse Node} {f : ParseError} (steady : Steady c o.nestingLimit q)
      (hf : q c = .error f) : f.Sited c o.nestingLimit := by
    have lands := steady clear
    rw [hf] at lands
    exact lands.sited
  have typed : Steady c o.nestingLimit (Grammar.typed deep) := fun _ _ hc =>
    .bind (Grammar.declSpecs_steady (steady c) hc) fun hd =>
      Grammar.functionDefinition_steady (steady c) _ hd
  have sa := sited typed ha
  have sb := sited (Grammar.declaration_steady (steady c)) hb
  have sd := sited (Grammar.functionDefinition_steady (steady c) none) hd
  have first := sa.furthest_reports sb order na nb
  have both := (sa.furthest sb).furthest_reports sd order nab nd
  exact ⟨xs, ns, c, a, b, d, ahead, hx, ha, hb, hd, both.trans first⟩

theorem dotted_iff {xs ys : List Token} {t : Token} (hx : InOrder (xs ++ t :: ys)) :
    Dotted xs ↔ ∃ d : Token, d.kind = .ellipsis ∧ [d, t] <:+: xs ++ t :: ys := by
  constructor
  · rintro ⟨d, hd, hk⟩
    obtain ⟨us, rfl⟩ := List.getLast?_eq_some_iff.mp hd
    exact ⟨d, hk, us, ys, by simp⟩
  · rintro ⟨d, hk, us, vs, he⟩
    have split : (us ++ [d, t]) ++ vs = (xs ++ [t]) ++ ys := by rw [he]; simp
    have order : InOrder ((us ++ [d, t]) ++ vs) := by rwa [he]
    obtain ⟨same, -⟩ := order.split_unique split ⟨us ++ [d], t, by simp, rfl⟩ ⟨xs, t, rfl, rfl⟩
    have before : us ++ [d] = xs := by
      have := congrArg List.dropLast same
      rwa [List.dropLast_concat, show us ++ [d, t] = (us ++ [d]) ++ [t] by simp,
        List.dropLast_concat] at this
    rw [← before, dotted_concat]
    exact hk

/-- What was found is among what is listed as expected in one case only: a comma straight after an
ellipsis. Nothing but the closing parenthesis can stand there, but the comma is listed as well. -/
theorem accepts_found_iff {expected : List Expected} (hs : tokenize source = .ok stream)
    (h : parse source o = .error [.parse e]) (he : e.fault = .unexpected expected) :
    (∃ x ∈ expected, x.accepts e.found.kind = true) ↔
      e.found.kind = .comma ∧
        ∃ d : Token, d.kind = .ellipsis ∧ [d, e.found] <:+: stream.terminated := by
  obtain ⟨e', h', hp⟩ := parse_error_cases hs h
  cases h'
  obtain ⟨xs, ys, hx, hf⟩ := TokenStream.exists_place hp
  rw [he] at hf
  have order := inOrder_terminated hs
  rw [hx] at order ⊢
  rw [← dotted_iff order]
  constructor
  · rintro ⟨x, hm, ha⟩
    obtain ⟨rfl, hd⟩ := hf.accepts x hm ha
    exact ⟨eq_of_beq ha, hd⟩
  · rintro ⟨hk, hd⟩
    exact ⟨_, hf.comma hd, by rw [hk]; decide⟩

/-- A comma is found where a comma or a closing parenthesis is said to be expected. -/
theorem accepts_found_iff_dots : ∃ stream e,
    tokenize "int f(int, ..., int);" = .ok stream ∧
      parse "int f(int, ..., int);" {} = .error [.parse e] ∧
      e.fault = .unexpected [.token .comma, .token .rParen] ∧ e.found.kind = .comma ∧
      ∃ d : Token, d.kind = .ellipsis ∧ [d, e.found] <:+: stream.terminated := by
  let dots : ParseError :=
    ⟨.unexpected [.token .comma, .token .rParen], ⟨.comma, ",", ⟨1, 15⟩⟩, 4⟩
  obtain ⟨stream, hs, -⟩ := exists_ok_of_any (x := tokenize "int f(int, ..., int);")
    (p := fun _ => true) (by decide +kernel)
  obtain ⟨es, h, he⟩ := exists_error_of_any (x := parse "int f(int, ..., int);" {})
    (p := fun es => es == [.parse dots]) (by decide +kernel)
  obtain rfl := eq_of_beq he
  exact ⟨stream, dots, hs, h, rfl,
    (accepts_found_iff hs h rfl).mp ⟨.token .comma, by simp, by decide⟩⟩

end CPretty
