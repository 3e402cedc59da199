import CPretty.Proofs.Syntax.Header
import CPretty.Proofs.Syntax.Printed.Tree

namespace CPretty

open Doc (Marked text)
open Node (innerDoc innerDocs innerDoc? innerDocs? headerDoc outerDoc attachParams)

variable {xs ys zs ws ts : List Token} {n name body : Node} {ns specs ds : List Node}
  {params : Option (List Node)} {sp : Span}

theorem Node.headerDoc_eq (params : Option (List Node)) (n : Node) :
    headerDoc params n = innerDoc (n.attachParams params) := by
  fun_induction attachParams params n with
  | case1 span decl h => simp [headerDoc, innerDoc, innerDoc?, h]
  | case2 span decl h ih => simp [headerDoc, innerDoc, ih, h]
  | case3 span quals decl ih => simp [headerDoc, innerDoc, innerDoc?, ih]
  | case4 span decl size ih => simp [headerDoc, innerDoc, innerDoc?, ih]
  | case5 span decl outer ih => simp [headerDoc, innerDoc, innerDoc?, ih]
  | case6 span shape h₁ h₂ h₃ h₄ =>
    rw [headerDoc]
    all_goals simp_all [innerDoc, innerDoc?]

/-- The tokens that the declarations of a source print. -/
inductive Printout : List Token → List Node → Prop
  | nil : Printout [] []
  | declaration {xs ts : List Token} {n : Node} {ns : List Node} :
      Derives .declaration xs [n] → Printout ts ns → Printout (xs ++ ts) (n :: ns)
  | definition {xs ys zs ws ts : List Token} {name body : Node} {ns specs ds : List Node}
      {params : Option (List Node)} {sp : Span} : Derives (.optional .declSpecs) xs specs →
      Derives .declarator ys [name.attachParams params] → Derives (.sequence .declaration) zs ds →
      Derives .compound ws [body] → Printout ts ns →
      Printout (xs ++ ys ++ zs ++ ws ++ ts) (⟨sp, .func specs.head? name params ds body⟩ :: ns)

/-- Not a function definition, or one that has the parameter list directly after its name. -/
def Node.hasPlainHeader : Node → Bool
  | ⟨_, .func _ name _ _ _⟩ => name.isPointedName
  | _ => true

/-- All function definitions of the source have the parameter list directly after the name. -/
def Node.hasPlainHeaders : Node → Bool
  | ⟨_, .root decls⟩ => decls.all hasPlainHeader
  | _ => true

theorem allLexed_of_subset (h : ys ⊆ xs ++ Derives.emptyList) (hx : AllLexed xs) : AllLexed ys := by
  have parens : ∀ t ∈ Derives.emptyList, Kind.ofPunctuator? t.text = some t.kind := by decide
  intro t ht
  obtain ht | ht := List.mem_append.mp (h ht)
  · exact hx t ht
  · exact .punctuator (by rw [String.ofList_toList]; exact parens t ht)

theorem Derives.printout (h : Derives (.sequence .external) xs ns) (hx : AllLexed xs) :
    ∃ ys, Printout ys ns ∧ AllLexed ys := by
  generalize hp : Phrase.sequence .external = p at h
  induction h with
  | sequenceNil => exact ⟨[], .nil, hx⟩
  | sequenceMore h _ _ ih =>
    cases hp
    rw [allLexed_append] at hx
    obtain ⟨ts, hts, hl⟩ := ih hx.2 rfl
    cases h with
    | @definition xs specs ys d zs ds ws body sp hs hd hf hz hb =>
      simp only [allLexed_append] at hx
      obtain ⟨ys', hd', hl'⟩ : ∃ ys', Derives .declarator ys' [d.header.1.attachParams d.header.2] ∧
          AllLexed ys' := by
        obtain ⟨-, hd⟩ | ⟨-, ys', hd, -, hsub⟩ := hd.header hf
        · exact ⟨ys, hd, hx.1.1.1.2⟩
        · exact ⟨ys', hd, allLexed_of_subset hsub hx.1.1.1.2⟩
      refine ⟨_, .definition hs hd' hz hb hts, ?_⟩
      simp only [allLexed_append]
      exact ⟨⟨⟨⟨hx.1.1.1.1, hl'⟩, hx.1.1.2⟩, hx.1.2⟩, hl⟩
    | ofDeclaration h => exact ⟨_, .declaration h hts, allLexed_append.mpr ⟨hx.1, hl⟩⟩
  | _ => cases hp

theorem Defines.printout {a : Node} (h : Defines a xs n) (hk : a.keepsList = true)
    (hts : Printout ts ns) : Printout (xs ++ ts) (n :: ns) := by
  cases h with
  | mk hs ha hf hds hbody =>
    obtain ⟨-, ha⟩ | ⟨hnk, -⟩ := ha.header hf
    · exact .definition hs ha hds hbody hts
    · rw [hk] at hnk
      cases hnk

theorem Derives.printout_plain (h : Derives (.sequence .external) xs ns)
    (hh : ∀ n ∈ ns, n.hasPlainHeader = true) : Printout xs ns := by
  generalize hp : Phrase.sequence .external = p at h
  induction h with
  | sequenceNil => exact .nil
  | sequenceMore h _ _ ih =>
    cases hp
    have hts := ih (fun n hn => hh n (by simp [hn])) rfl
    cases h with
    | @definition xs specs ys d zs ds ws body sp hs hd hf hz hb =>
      have hk : d.keepsList = true := by
        refine Node.keepsList_of_isPlainHeader ((Node.isPointedName_header hf).mp ?_)
        exact hh ⟨sp, .func specs.head? d.header.1 d.header.2 ds body⟩ List.mem_cons_self
      exact Defines.printout (.mk hs hd hf hz hb) hk hts
    | ofDeclaration h => exact .declaration h hts
  | _ => cases hp

def PrintsOuter (xs : List Token) (n : Node) : Prop :=
  ∃ d ms a z, n.outerDoc = .ok d ∧ d.Marked ms ∧ Part xs ms a z ∧ a.leads = true

def spaced (items : List Item) : List Mark := items.flatMap fun i => .gap :: i.marks

theorem words_spaced (items : List Item) : words (spaced items) = words (joined [.gap] items) := by
  induction items with
  | nil => rfl
  | cons i items ih =>
    cases items with
    | nil => simp [spaced]
    | cons j items => simpa [spaced] using ih

theorem Doc.Marked.spaced {items : List Item} (h : ∀ i ∈ items, i.doc.Marked i.marks) :
    Marked (.concat ((items.map Item.doc).flatMap fun d => [.text " ", d]))
      (CPretty.spaced items) := by
  induction items with
  | nil => exact .nil
  | cons i items ih =>
    have ih := ih fun j hj => h j (by simp [hj])
    simpa [CPretty.spaced] using (Marked.text " " [.gap] rfl).cons ((h i (by simp)).cons ih)

theorem Run.spaced {v : Bool} {items : List Item} (h : Items v items) {a z : Kind} {ms : List Mark}
    (r : Run a ms z) : ∃ z', Run a (ms ++ CPretty.spaced items) z' := by
  induction items generalizing z ms with
  | nil => exact ⟨z, by simpa [CPretty.spaced] using r⟩
  | cons i items ih =>
    obtain ⟨a', z', r', ha', -⟩ := h.neat i (by simp)
    have hi : Items v items :=
      ⟨fun j hj => h.marked j (by simp [hj]), fun j hj => h.neat j (by simp [hj])⟩
    obtain ⟨z'', r''⟩ := ih hi (r.gap r' (Kind.ne_dot ha'))
    exact ⟨z'', by simpa [CPretty.spaced] using r''⟩

/-- A function definition prints its specifiers, its header with the parameter list put back, the
declarations of its parameters and its body. -/
theorem PrintsOuter.func (hs : PrintsOption false xs specs.head?)
    (hh : Prints false ys (name.attachParams params)) (hd : PrintsList false [.gap] zs ds)
    (hb : Prints false ws body) :
    PrintsOuter (xs ++ ys ++ zs ++ ws) ⟨sp, .func specs.head? name params ds body⟩ := by
  obtain ⟨d, ms, a, z, hd₁, hm, p, ha, -⟩ := hh
  obtain ⟨items, hi, hds, hc⟩ := hd
  obtain ⟨d', ms', a', z', hd₂, hm', p', -, -⟩ := hb
  obtain ⟨z₁, r⟩ := p.run.spaced hi
  -- The header and what follows it
  have rest : Part (ys ++ zs ++ ws) (ms ++ spaced items ++ .gap :: ms') a z' := by
    have front : Part (ys ++ zs) (ms ++ spaced items) a z₁ := by
      refine ⟨r, fun rest => ?_, p.ne_dot⟩
      rw [List.append_assoc, p.covers, hc, words_append, words_spaced, List.append_assoc]
    exact front.gap p'
  have hm₁ : Marked (.concat ([d] ++ (items.map Item.doc).flatMap (fun d => [text " ", d]) ++
      [text " ", d'])) (ms ++ spaced items ++ .gap :: ms') :=
    (hm.single.append (.spaced hi.marked)).append (.cons (.text " " [.gap] rfl) hm'.single)
  obtain ⟨rfl, ho⟩ | ⟨s, ho, d₀, ms₀, a₀, z₀, hd₀, hm₀, p₀, ha₀, -⟩ := hs
  · refine ⟨_, _, a, z', ?_, hm₁, by simpa using rest, ha⟩
    rw [ho, outerDoc, Node.headerDoc_eq, hd₁, hds, hd₂]
    rfl
  · refine ⟨_, _, a₀, z', ?_, hm₀.cons (.cons (.text " " [.gap] rfl) hm₁),
      by simpa using p₀.gap rest, ha₀⟩
    rw [ho, outerDoc, Node.headerDoc_eq, hd₁, hds, hd₂, innerDoc?, hd₀]
    rfl

theorem Derives.outerDoc_eq (h : Derives .declaration xs [n]) : n.outerDoc = n.innerDoc := by
  cases h <;> rfl

/-- The declarations of a source print these tokens, with a gap between each two of them. -/
theorem Printout.items (h : Printout xs ns) (hx : AllLexed xs) :
    ∃ items, Items false items ∧ ns.mapM outerDoc = .ok (items.map Item.doc) ∧
      Covers xs (joined [.gap] items) := by
  have more {xs ts : List Token} {n : Node} {ns : List Node} (hn : PrintsOuter xs n)
      (hs : ∃ items, Items false items ∧ ns.mapM outerDoc = .ok (items.map Item.doc) ∧
        Covers ts (joined [.gap] items)) :
      ∃ items, Items false items ∧ (n :: ns).mapM outerDoc = .ok (items.map Item.doc) ∧
        Covers (xs ++ ts) (joined [.gap] items) := by
    obtain ⟨d, ms, a, z, hd, hm, p, ha⟩ := hn
    obtain ⟨items, hi, hds, hc⟩ := hs
    refine ⟨⟨d, ms⟩ :: items, ⟨?_, ?_⟩, ?_, ?_⟩
    · exact List.forall_mem_cons.mpr ⟨hm, hi.marked⟩
    · exact List.forall_mem_cons.mpr ⟨⟨a, z, p.run, ha, nofun⟩, hi.neat⟩
    · rw [List.mapM_cons, hd, hds]
      rfl
    · intro rest
      rw [List.append_assoc, p.covers, hc]
      cases items <;> simp
  induction h with
  | nil => exact ⟨[], ⟨by simp, by simp⟩, rfl, .nil⟩
  | declaration h _ ih =>
    rw [allLexed_append] at hx
    obtain ⟨d, ms, a, z, hd, hm, p, ha, -⟩ := (h.printed hx.1 rfl).node rfl
    exact more ⟨d, ms, a, z, h.outerDoc_eq.trans hd, hm, p, ha⟩ (ih hx.2)
  | definition hs hh hd hb _ ih =>
    simp only [allLexed_append] at hx
    obtain ⟨⟨⟨⟨hxs, hys⟩, hzs⟩, hws⟩, hts⟩ := hx
    refine more (.func ?_ ((hh.printed hys rfl).node rfl) (hd.printed hzs rfl)
      ((hb.printed hws rfl).node rfl)) (ih hts)
    exact PrintsList.option (hs.printed hxs rfl) hs.lead (hs.optional_cases rfl)

theorem Node.outerDocs_ne_nil {ds : List Doc} (h : (n :: ns).mapM outerDoc = .ok ds) : ds ≠ [] := by
  rintro rfl
  rw [List.mapM_cons] at h
  revert h
  cases n.outerDoc with
  | error e => nofun
  | ok d => cases ns.mapM outerDoc <;> nofun

/-- A source prints its tokens, and ends in a gap unless it is empty. -/
theorem Printout.toDoc (h : Printout xs ns) (hx : AllLexed xs) (sp : Span) :
    ∃ d ms, Node.toDoc ⟨sp, .root ns⟩ = .ok d ∧ d.Marked ms ∧ words ms = canonicalKeys xs ∧
      (ms = [] ∨ ∃ ms' a z, ms = ms' ++ [.gap] ∧ Run a ms' z ∧ a ≠ .dot) := by
  obtain ⟨items, hi, hds, hc⟩ := h.items hx
  have hc := hc []
  rw [List.append_nil, canonicalKeys_nil, List.append_nil] at hc
  cases ns with
  | nil =>
    cases items with
    | nil => exact ⟨_, _, rfl, .nil, by rw [hc]; rfl, .inl rfl⟩
    | cons i items => cases hds
  | cons n ns =>
    have hne : items ≠ [] := fun he => Node.outerDocs_ne_nil hds (List.map_eq_nil_iff.mpr he)
    obtain ⟨a, z, r, ha, -⟩ := hi.neat_joined hne (.inl rfl)
    refine ⟨_, _, ?_, (Marked.join Marked.hardLine hi.marked).cons Marked.hardLine.single, ?_,
      .inr ⟨_, a, z, rfl, r, Kind.ne_dot ha⟩⟩
    · rw [Node.toDoc, hds]
      · rfl
      · simp
    · rw [hc]
      simp

end CPretty
