import CPretty.Proofs.Grammar.Concat
import CPretty.Proofs.Grammar.Rereading
import CPretty.Proofs.Syntax.Printed.SourceFile

namespace CPretty

open Parse Grammar

variable {c d : Cursor} {n : Node} {ns : List Node} {l l' k k' m : Nat} {xs : List Token}
  {P : Node → Prop}

/-- A list of the name is found in the declarator, but it is put back at another place. -/
def Node.movesList (n : Node) : Bool := n.detachParams?.isSome && !n.keepsList

/-- A list of the name is put back at another place, and with the list there the declarator no
longer declares a function. -/
def Node.losesList (n : Node) : Bool :=
  n.movesList && !(n.header.1.attachParams n.header.2).declaresFunction

/-- A function definition whose header no longer declares a function with the list put back. -/
def Node.losesHeader : Node → Bool
  | ⟨_, .func _ name params _ _⟩ => !(name.attachParams params).declaresFunction
  | _ => false

theorem Node.losesHeader_bare (n : Node) : n.bare.losesHeader = n.losesHeader := by
  obtain ⟨sp, s⟩ := n
  rw [bare_mk]
  cases s with
  | func specs name params ds body =>
    have printed := attachParams_respan (f := fun _ => default) params name
    rw [respan_const, respan_const] at printed
    rw [losesHeader, ← declaresFunction_bare, printed]
    rfl
  | _ => rfl

/-- One of the function definitions of a source has a declarator that satisfies `P`. -/
inductive HasDefinition (P : Node → Prop) : List Token → List Node → Prop
  | here {xs ts : List Token} {a n : Node} {ns : List Node} : Defines a xs n → P a →
      Derives (.sequence .external) ts ns → HasDefinition P (xs ++ ts) (n :: ns)
  | later {xs ts : List Token} {n : Node} {ns : List Node} : Derives .external xs [n] →
      HasDefinition P ts ns → HasDefinition P (xs ++ ts) (n :: ns)

theorem HasDefinition.moved {ts : List Token} (h : HasDefinition (·.losesList = true) ts ns) :
    HasDefinition (·.movesList = true) ts ns := by
  induction h with
  | here hdef ha hts => exact .here hdef (Bool.and_eq_true _ _ ▸ ha).1 hts
  | later hx _ ih => exact .later hx ih

theorem HasDefinition.exists_losesHeader {ts : List Token}
    (h : HasDefinition (·.losesList = true) ts ns) : ∃ n ∈ ns, n.losesHeader = true := by
  induction h with
  | later _ _ ih =>
    obtain ⟨n, hn, hl⟩ := ih
    exact ⟨n, List.mem_cons_of_mem _ hn, hl⟩
  | here hdef ha =>
    cases hdef
    exact ⟨_, List.mem_cons_self, (Bool.and_eq_true _ _ ▸ ha).2⟩

theorem Node.losesHeader_of_keepsList {a n : Node} (h : Defines a xs n)
    (hk : a.keepsList = true) : n.losesHeader = false := by
  cases h with
  | mk _ _ hf =>
    rw [losesHeader, declaresFunction_of_bare_eq (a.bare_header.mpr hk), hf]
    rfl

/-- Either no header of a source is lost, or the tokens that it prints part with its own. -/
theorem Derives.printout_cases (h : Derives (.sequence .external) xs ns) (hx : AllLexed xs) :
    (∀ n ∈ ns, n.losesHeader = false) ∨ ∃ ys, Printout ys ns ∧ AllLexed ys ∧ Parting xs ys := by
  generalize hp : Phrase.sequence .external = p at h
  induction h with
  | sequenceNil => exact .inl (by simp)
  | @sequenceMore _ xs n ts ns h hs _ ih =>
    cases hp
    rw [allLexed_append] at hx
    cases h with
    | @definition xs specs ys a zs ds ws body sp hs' hd hf hz hb =>
      have hdef : Defines a (xs ++ ys ++ zs ++ ws) ⟨sp, .func specs.head? _ _ ds body⟩ :=
        .mk hs' hd hf hz hb
      obtain ⟨hk, -⟩ | ⟨-, ys', hd', hpart, hsub⟩ := hd.header hf
      · obtain kept | ⟨ts', hts, hl, hpart⟩ := ih hx.2 rfl
        · exact .inl (List.forall_mem_cons.mpr ⟨Node.losesHeader_of_keepsList hdef hk, kept⟩)
        · refine .inr ⟨_, hdef.printout hk hts, allLexed_append.mpr ⟨hx.1, hl⟩, ?_⟩
          simpa using hpart.around (xs ++ ys ++ zs ++ ws) [] []
      · obtain ⟨ts', hts, hl⟩ := hs.printout hx.2
        refine .inr ⟨_, .definition hs' hd' hz hb hts, ?_, ?_⟩
        · simp only [allLexed_append] at hx ⊢
          exact ⟨⟨⟨⟨hx.1.1.1.1, allLexed_of_subset hsub hx.1.1.1.2⟩, hx.1.1.2⟩, hx.1.2⟩, hl⟩
        · simpa using hpart.around xs (zs ++ ws ++ ts) (zs ++ ws ++ ts')
    | ofDeclaration h =>
      obtain kept | ⟨ts', hts, hl, hpart⟩ := ih hx.2 rfl
      · exact .inl (List.forall_mem_cons.mpr ⟨by cases h <;> rfl, kept⟩)
      · refine .inr ⟨_, .declaration h hts, allLexed_append.mpr ⟨hx.1, hl⟩, ?_⟩
        simpa using hpart.around _ [] []
  | _ => cases hp

/-- The tokens `ys` of a function definition or a declaration, as it is printed, are read as its
node again, whatever stands behind them. -/
structure Reprints (deep : Nested) (xs : List Token) (n : Node) (ys : List Token) (n' : Node) :
    Prop where
  bare : n'.bare = n.bare
  subset : ys ⊆ xs ++ Derives.emptyList
  printout : ∀ {ts ns}, Printout ts ns → Printout (ys ++ ts) (n' :: ns)
  reads : ∀ {f} us, f.kind = .eof → externalDeclaration deep ⟨ys ++ us, f⟩ = .ok (n', ⟨us, f⟩)

theorem derives_of_externals {deep : Nested} (hd : deep.Sound) (hc : c.Ended)
    (hr : many (external? deep) c = .ok (ns, d)) (he : d.ahead = []) :
    Derives (.sequence .external) c.ahead ns := by
  obtain ⟨xs, p, hx⟩ := many_reads (P := Derives (.sequence .external)) (external?_reads hd)
    .sequenceNil (fun h => .sequenceMore h) hc hr
  rwa [p.ahead, he, List.append_nil]

section

variable (hL : (Likeness.lower l).Nesteds (.levels l k) (.levels l' k')) (hk' : 2 ≤ k')
  (hg : Regrafting (.levels l k) (.levels l' k') m fun a => a.keepsList = false ∧ ¬ P a)
include hL hk' hg

/-- A definition whose declarator does not have the property `P`, or a declaration, is read again
from the tokens that it prints. -/
theorem externalDeclaration_reprints (hc : c.Ended) (hm : c.ahead.length ≤ m)
    (hr : externalDeclaration (.levels l k) c = .ok (n, d)) : ∃ xs, c.Passes xs d ∧
      ((∃ a, Defines a xs n ∧ P a) ∨ ∃ ys n', Reprints (.levels l' k') xs n ys n') := by
  have levels (e : Ending) : Linked.Nesteds e (.levels l' k') := .levels l' k'
  have raised : externalDeclaration (.levels l' k') c = .ok (n, d) :=
    (Likeness.externalDeclaration_alike hL).raise_node hr
  have again (xs : List Token) (px : c.Passes xs d) {f : Token} (us : List Token)
      (hf : f.kind = .eof) := externalDeclaration_append levels hc hf px raised us
  have graft : Regrafting (.levels l k) (.levels l' k') c.ahead.length _ :=
    fun _ _ _ hc hl => hg hc (hl.trans hm)
  obtain ⟨xs, px, hx | ⟨a, hdef, reread⟩⟩ := externalDeclaration_rereads hL hk' hc graft hr
  · exact ⟨xs, px, .inr ⟨xs, n, rfl, by simp, .declaration hx, again xs px⟩⟩
  refine ⟨xs, px, ?_⟩
  by_cases ha : P a
  · exact .inl ⟨a, hdef, ha⟩
  refine .inr ?_
  cases hk : a.keepsList with
  | true => exact ⟨xs, n, rfl, by simp, hdef.printout hk, again xs px⟩
  | false =>
    obtain ⟨ts, sub, a', n', hb, hk', hdef', run⟩ := reread ⟨hk, ha⟩
    have ended : (d.before ts).Ended := px.ended hc
    exact ⟨ts, n', hb, sub, hdef'.printout hk', fun us hf =>
      externalDeclaration_append levels ended hf (.before ts d) run us⟩

/-- The declarations of a source are read again from the tokens that they print, unless one of them
defines a function with a declarator that has the property `P`. -/
theorem externals_reprint {f : Token} (hc : c.Ended) (hm : c.ahead.length ≤ m) (hf : f.kind = .eof)
    (hr : many (external? (.levels l k)) c = .ok (ns, d)) (hd : d.ahead = [])
    (hl : AllLexed c.ahead) :
    HasDefinition P c.ahead ns ∨ ∃ ys ns', ns'.map Node.bare = ns.map Node.bare ∧
      Printout ys ns' ∧ AllLexed ys ∧
      many (external? (.levels l' k')) ⟨ys, f⟩ = .ok (ns', ⟨[], f⟩) := by
  refine externals_induction (motive := fun c ns => c.ahead.length ≤ m → AllLexed c.ahead →
    HasDefinition P c.ahead ns ∨ ∃ ys ns', ns'.map Node.bare = ns.map Node.bare ∧
      Printout ys ns' ∧ AllLexed ys ∧
      many (external? (.levels l' k')) ⟨ys, f⟩ = .ok (ns', ⟨[], f⟩)) (.levels l k) ?_ ?_ hc hr hm hl
  · intro _ hl
    exact .inr ⟨[], [], rfl, .nil, hd ▸ hl, rfl⟩
  · intro c c₁ n ns hc h₁ hr ih hm hl
    obtain ⟨xs, px, hx⟩ := externalDeclaration_reprints hL hk' hg hc hm h₁
    obtain ⟨_, py, hder⟩ := externalDeclaration_reads (.levels l k) hc h₁
    obtain rfl := px.unique py
    have shorter := px.length_le
    rw [px.ahead, allLexed_append] at hl
    rw [px.ahead]
    obtain ⟨a, hdef, ha⟩ | ⟨ys, n', hy⟩ := hx
    · exact .inl (.here hdef ha (derives_of_externals (.levels l k) (px.ended hc) hr hd))
    obtain hm | ⟨zs, ns', hb, hp, hz, hr'⟩ := ih (shorter.trans hm) hl.2
    · exact .inl (.later hder hm)
    refine .inr ⟨ys ++ zs, n' :: ns', ?_, hy.printout hp, ?_, ?_⟩
    · rw [List.map_cons, List.map_cons, hy.bare, hb]
    · exact allLexed_append.mpr ⟨allLexed_of_subset hy.subset hl.1, hz⟩
    · have ended : (⟨ys ++ zs, f⟩ : Cursor).Ended := hf
      rw [externals_of_first (.levels l' k') ended (hy.reads zs hf), map_eq_pure_bind,
        bind_of_ok hr']
      rfl

end

/-- A tree that agrees up to ranges is read from the tokens that it prints. -/
def TokenStream.ReadsPrinted (l : Nat) (n : Node) : Prop :=
  ∃ (s : TokenStream) (sp : Span) (ns : List Node), s.parse l = .ok ⟨sp, .root ns⟩ ∧
    Node.bare ⟨sp, .root ns⟩ = n.bare ∧ Printout s.tokens ns ∧ AllLexed s.tokens

theorem TokenStream.reprint {s : TokenStream}
    (hL : (Likeness.lower l).Nesteds (.levels l l) (.levels l' l')) (hl' : 2 ≤ l')
    (hg : Regrafting (.levels l l) (.levels l' l') s.tokens.length
      fun a => a.keepsList = false ∧ ¬ P a)
    (h : s.parse l = .ok n) (hl : AllLexed s.tokens) :
    HasDefinition P s.tokens n.children ∨ ReadsPrinted l' n := by
  obtain ⟨d, hr⟩ := sourceFile_of_parse h
  have ended : (⟨s.tokens, Token.eof s.finish⟩ : Cursor).Ended := rfl
  obtain ⟨hd, sp, ns, hm, rfl⟩ := sourceFile_cases (.levels l l) ended hr
  obtain hm | ⟨ys, ns', hb, hp, hy, hr'⟩ :=
    externals_reprint hL hl' hg ended le_rfl ended hm hd hl
  · exact .inl hm
  · obtain ⟨sp', again⟩ := parse_of_externals (s := ⟨ys, s.comments, s.finish⟩) hr'
    refine .inr ⟨_, sp', ns', again, ?_, hp, hy⟩
    rw [Node.bare_mk, Node.bare_mk, Shape.map, Shape.map, hb]

theorem declaresFunction_of_regrafts {p : Parse Node} {a a' : Node} {vs : List Token}
    (h : Regrafts p c a d vs a')
    (ha : (a.header.1.attachParams a.header.2).declaresFunction = true) :
    a'.declaresFunction = true := by
  rw [Node.declaresFunction_of_bare_eq h.bare, ha]

theorem declaresFunction_of_none {a : Node} (ha : a.declaresFunction = true)
    (hn : a.detachParams? = none) :
    (a.header.1.attachParams a.header.2).declaresFunction = true := by
  rw [Node.header, hn]
  exact Node.declaresFunction_attachParams ha

theorem regrafting_unmoved (l k m : Nat) : Regrafting (.levels l k) (.levels l k) m
    fun a => a.keepsList = false ∧ ¬ a.movesList = true := by
  rintro c a d hc - ha hf ⟨hk, hm⟩
  have hn : a.detachParams? = none := by simpa [Node.movesList, hk] using hm
  obtain ⟨vs, a', graft⟩ := regrafts_of_none hc ha hn
  exact ⟨vs, a', graft, declaresFunction_of_regrafts graft (declaresFunction_of_none hf hn)⟩

theorem regrafting_unlost (l l' k m m' : Nat) (hm : m ≤ m') :
    Regrafting (.levels l k) (.levels l' (k + m')) m
      fun a => a.keepsList = false ∧ ¬ a.losesList = true := by
  rintro c a d hc hl ha hf ⟨hk, hp⟩
  cases hn : a.detachParams? with
  | none =>
    have ha' := (Likeness.lower_levels l l' k m').declarator.raise_node ha
    obtain ⟨vs, a', graft⟩ := regrafts_of_none hc ha' hn
    exact ⟨vs, a', graft, declaresFunction_of_regrafts graft (declaresFunction_of_none hf hn)⟩
  | some q =>
    obtain ⟨vs, a', graft⟩ : ∃ vs a',
        Regrafts (Nested.levels l' (k + m')).declarator c a d vs a' :=
      regrafts_of_some hc ha hn hk (by omega)
    refine ⟨vs, a', graft, declaresFunction_of_regrafts graft ?_⟩
    simpa [Node.losesList, Node.movesList, hn, hk] using hp

end CPretty
