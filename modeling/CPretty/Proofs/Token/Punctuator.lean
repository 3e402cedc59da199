import CPretty.Proofs.Token.Lexical

namespace CPretty

namespace Scan

/-- How a punctuator goes on after its first character. The characters of `pair`, both together, are
looked for before any follower, and the first follower that stands next is the one taken. -/
structure Arm where
  first : Char
  pair : Option (Char × Char × Kind)
  followers : List (Char × Kind)
  single : Kind

namespace Arm

def pick (a : Arm) : List Char → Kind × List Char
  | [] => (a.single, [a.first])
  | c :: _ =>
    match a.followers.lookup c with
    | some k => (k, [a.first, c])
    | none => (a.single, [a.first])

def read (a : Arm) (cs : List Char) : Kind × List Char :=
  match a.pair with
  | some (c, d, k) => if [c, d] <+: cs then (k, [a.first, c, d]) else a.pick cs
  | none => a.pick cs

end Arm

/-- One arm for each character that starts a punctuator. -/
def arms : List Arm :=
  [⟨'+', none, [('+', .plusPlus), ('=', .plusEq)], .plus⟩,
   ⟨'-', none, [('-', .minusMinus), ('=', .minusEq), ('>', .arrow)], .minus⟩,
   ⟨'*', none, [('=', .starEq)], .star⟩,
   ⟨'/', none, [('=', .slashEq)], .slash⟩,
   ⟨'%', none, [('=', .percentEq), ('>', .rBrace)], .percent⟩,
   ⟨'=', none, [('=', .eqEq)], .eq⟩,
   ⟨'!', none, [('=', .notEq)], .bang⟩,
   ⟨'<', some ('<', '=', .ltLtEq),
     [('<', .ltLt), ('=', .le), ('%', .lBrace), (':', .lBracket)], .lt⟩,
   ⟨'>', some ('>', '=', .gtGtEq), [('>', .gtGt), ('=', .ge)], .gt⟩,
   ⟨'&', none, [('&', .andAnd), ('=', .ampEq)], .amp⟩,
   ⟨'|', none, [('|', .orOr), ('=', .pipeEq)], .pipe⟩,
   ⟨'^', none, [('=', .caretEq)], .caret⟩,
   ⟨':', none, [('>', .rBracket)], .colon⟩,
   ⟨'.', some ('.', '.', .ellipsis), [], .dot⟩,
   ⟨'~', none, [], .tilde⟩,
   ⟨'?', none, [], .question⟩,
   ⟨'(', none, [], .lParen⟩,
   ⟨')', none, [], .rParen⟩,
   ⟨'\x7b', none, [], .lBrace⟩,
   ⟨'\x7d', none, [], .rBrace⟩,
   ⟨'[', none, [], .lBracket⟩,
   ⟨']', none, [], .rBracket⟩,
   ⟨';', none, [], .semicolon⟩,
   ⟨',', none, [], .comma⟩]

def arm? (c : Char) : Option Arm := arms.find? (·.first == c)

theorem mem_arms {c : Char} {a : Arm} (h : arm? c = some a) : a ∈ arms ∧ a.first = c :=
  ⟨List.mem_of_find?_eq_some h, by simpa using List.find?_some h⟩

namespace Arm

variable {a : Arm} {k : Kind} {cs xs : List Char}

/-- Every way in which a punctuator of the arm goes on, with the kind that it then has. -/
def table (a : Arm) : List (List Char × Kind) :=
  a.pair.toList.map (fun p => ([p.1, p.2.1], p.2.2)) ++
    (a.followers.map (fun p => ([p.1], p.2)) ++ [([], a.single)])

theorem lookup_singles (ps : List (Char × Kind)) (c : Char) :
    (ps.map fun p => ([p.1], p.2)).lookup [c] = ps.lookup c := by
  induction ps with
  | nil => rfl
  | cons p ps ih =>
    rw [List.map_cons, List.lookup_cons, List.lookup_cons, ih]
    simp

theorem lookup_singles_of_length_ne (ps : List (Char × Kind)) (h : xs.length ≠ 1) :
    (ps.map fun p => ([p.1], p.2)).lookup xs = none := by
  refine List.lookup_eq_none_iff.mpr fun p hp => ?_
  obtain ⟨q, -, rfl⟩ := List.mem_map.mp hp
  rw [bne_iff_ne]
  rintro rfl
  exact h rfl

theorem lookup_nil (a : Arm) : a.table.lookup [] = some a.single := by
  rw [table, List.lookup_append, List.lookup_append, lookup_singles_of_length_ne _ (by simp)]
  obtain ⟨_, _ | _, _, _⟩ := a <;> rfl

theorem lookup_one (a : Arm) (c : Char) : a.table.lookup [c] = a.followers.lookup c := by
  rw [table, List.lookup_append, List.lookup_append, lookup_singles]
  obtain ⟨_, _ | _, ps, _⟩ := a <;> cases ps.lookup c <;> simp [List.lookup_cons]

theorem lookup_two (a : Arm) (c d : Char) : a.table.lookup [c, d] =
    a.pair.bind fun p => if p.1 = c ∧ p.2.1 = d then some p.2.2 else none := by
  rw [table, List.lookup_append, List.lookup_append, lookup_singles_of_length_ne _ (by simp)]
  obtain ⟨_, _ | ⟨x, y, k⟩, _, _⟩ := a
  · rfl
  · by_cases h : x = c ∧ y = d
    · obtain ⟨rfl, rfl⟩ := h
      simp
    · have : ([c, d] == [x, y]) = false := by
        rw [beq_eq_false_iff_ne]
        rintro ⟨⟩
        exact h ⟨rfl, rfl⟩
      simp [h, this, List.lookup_cons]

theorem ofPunctuator?_cons (ha : a ∈ arms) (xs : List Char) :
    Kind.ofPunctuator? (String.ofList (a.first :: xs)) = a.table.lookup xs := by
  have listed : ∀ p ∈ Kind.punctuatorSpellings, ∀ a ∈ arms, p.1.toList.head? = some a.first →
      a.table.lookup p.1.toList.tail = some p.2 := by decide
  have spelled : ∀ a ∈ arms, ∀ p ∈ a.table,
      Kind.ofPunctuator? (String.ofList (a.first :: p.1)) = some p.2 := by decide
  refine Option.ext fun k => ⟨fun hk => ?_, fun hk => spelled a ha _ (mem_of_lookup hk)⟩
  have := listed _ (mem_punctuatorSpellings hk) a ha
  rw [String.toList_ofList] at this
  exact this rfl

theorem read_of_pair {x y : Char} (ha : a.pair = some (x, y, k)) (cs : List Char) :
    a.read cs = if [x, y] <+: cs then (k, [a.first, x, y]) else a.pick cs := by
  rw [read, ha]

theorem read_of_short (h : cs.length < 2) : a.read cs = a.pick cs := by
  cases hp : a.pair with
  | none => rw [read, hp]
  | some p =>
    have : ¬ [p.1, p.2.1] <+: cs := fun hx => absurd hx.length_le (Nat.not_le_of_lt h)
    rw [read_of_pair hp, if_neg this]

theorem punctuator?_cons (ha : a ∈ arms) (cs : List Char) :
    punctuator? (a.first :: cs) = some (a.read cs) := by
  have eq (xs : List Char) := ofPunctuator?_cons ha xs
  have one := (eq []).trans a.lookup_nil
  have two (c : Char) := (eq [c]).trans (a.lookup_one c)
  have three (c d : Char) := (eq [c, d]).trans (a.lookup_two c d)
  rcases cs with _ | ⟨c, _ | ⟨d, cs⟩⟩
  · rw [read_of_short (by simp)]
    simp only [punctuator?, List.findSome?, List.take, one, Option.map_some, pick]
  · rw [read_of_short (by simp)]
    simp only [punctuator?, List.findSome?, List.take, one, two, pick]
    cases a.followers.lookup c <;> rfl
  · simp only [punctuator?, List.findSome?, List.take, one, two, three]
    cases hp : a.pair with
    | none =>
      simp only [read, hp, pick, Option.bind_none, Option.map_none]
      cases a.followers.lookup c <;> rfl
    | some p =>
      obtain ⟨x, y, k⟩ := p
      rw [read_of_pair hp]
      by_cases h : x = c ∧ y = d
      · obtain ⟨rfl, rfl⟩ := h
        simp
      · have : ¬ [x, y] <+: c :: d :: cs := by simpa using h
        simp only [if_neg this, Option.bind_some, if_neg h, Option.map_none, pick]
        cases a.followers.lookup c <;> rfl

end Arm

theorem punctuator?_eq_arm (c : Char) (cs : List Char) :
    punctuator? (c :: cs) = (arm? c).map (·.read cs) := by
  have starts : ∀ p ∈ Kind.punctuatorSpellings, p.1.toList.head?.all (arm? · |>.isSome) := by
    decide
  cases ha : arm? c with
  | some a =>
    obtain ⟨hm, rfl⟩ := mem_arms ha
    exact Arm.punctuator?_cons hm cs
  | none =>
    have (xs : List Char) : Kind.ofPunctuator? (String.ofList (c :: xs)) = none := by
      refine Option.eq_none_iff_forall_ne_some.mpr fun k hk => ?_
      have := starts _ (mem_punctuatorSpellings hk)
      rw [String.toList_ofList, List.head?_cons, Option.all_some, ha] at this
      cases this
    simp only [punctuator?, List.findSome?, List.take, this, Option.map_none]

theorem token_eq_arm {c : Char} {cs : List Char} (hs : c ≠ '"') (hc : c ≠ '\'')
    (hn : startsNumber (c :: cs) = false) (hw : isWordStart c = false) :
    token c cs = match arm? c with
      | some a => (.token (a.read cs).1, (a.read cs).2)
      | none => (.fault (.unexpectedChar c), [c]) := by
  rw [token, if_neg hs, if_neg hc, if_neg (by simp [hn]), if_neg (by simp [hw]),
    punctuator?_eq_arm]
  cases arm? c <;> rfl

end Scan

end CPretty
