import CPretty.Proofs.Format.Relexed
import CPretty.Proofs.Syntax.Within

namespace CPretty

def Node.isDigits (n : Node) : Bool :=
  match n.shape with
  | .const text => text.toList.all Scan.isDigit
  | _ => false

/-- The form is no access with a dot to a constant of digits. -/
def Shape.KeepsDots : Shape Node → Prop
  | .field object op _ => op = "." → object.isDigits = false
  | _ => True

def Shape.keepsDots : Shape Node → Bool
  | .field object op _ => !(op == "." && object.isDigits)
  | _ => true

instance (s : Shape Node) : Decidable s.KeepsDots :=
  decidable_of_iff (s.keepsDots = true) <| by
    cases s <;> simp [Shape.keepsDots, Shape.KeepsDots, Decidable.imp_iff_not_or]

theorem Node.lenient_keepsDots : Lenient Shape.KeepsDots :=
  ⟨fun _ _ => trivial, fun _ _ => trivial, fun _ _ => trivial, fun _ => trivial⟩

theorem dotsApart_append {ks ks' : List Key} (h : dotsApart ks = true) (h' : dotsApart ks' = true)
    (hj : ∀ j ∈ ks.getLast?, ∀ k ∈ ks'.head?, k.kind = .dot → j.isDigits = false) :
    dotsApart (ks ++ ks') = true := by
  induction ks with
  | nil => exact h'
  | cons k ks ih =>
    rw [dotsApart, Bool.and_eq_true] at h
    rw [List.cons_append, dotsApart, Bool.and_eq_true]
    cases ks with
    | nil =>
      refine ⟨?_, h'⟩
      cases ks' with
      | nil => simp
      | cons k' ks' =>
        have := hj k rfl k' rfl
        simp only [List.nil_append, List.head?_cons, Option.any_some, Bool.not_eq_true',
          Bool.and_eq_false_iff, beq_eq_false_iff_ne]
        grind
    | cons j js => exact ⟨h.1, ih h.2 hj⟩

/-- The list starts with no dot, and no constant of digits stands directly before one in it. -/
structure Undotted (xs : List Token) : Prop where
  apart : dotsApart (xs.map Token.key) = true
  head : ∀ t ∈ xs.head?, t.kind ≠ .dot

namespace Undotted

variable {t op : Token} {xs ys : List Token}

theorem nil : Undotted [] := ⟨rfl, nofun⟩

theorem append (h : Undotted xs) (h' : Undotted ys) : Undotted (xs ++ ys) := by
  refine ⟨?_, fun t ht => ?_⟩
  · rw [List.map_append]
    refine dotsApart_append h.apart h'.apart fun j _ k hk hdot => ?_
    cases ys with
    | nil => cases hk
    | cons y ys =>
      cases hk
      exact absurd hdot (h'.head y rfl)
  · cases xs with
    | nil => exact h'.head t ht
    | cons x xs => exact h.head t ht

theorem cons (ht : t.kind ≠ .dot) (h : Undotted xs) : Undotted (t :: xs) := by
  have single : Undotted [t] := ⟨by simp [dotsApart], by simpa using ht⟩
  exact single.append h

theorem of_forall (h : ∀ t ∈ xs, t.kind ≠ .dot) : Undotted xs := by
  induction xs with
  | nil => exact nil
  | cons t ts ih =>
    rw [List.forall_mem_cons] at h
    exact cons h.1 (ih h.2)

theorem field (h : Undotted xs) (hne : xs ≠ []) (hop : op.key.isDigits = false)
    (hx : op.kind = .dot → ∀ j ∈ xs.getLast?, j.key.isDigits = false) :
    Undotted (xs ++ [op, t]) := by
  refine ⟨?_, fun u hu => ?_⟩
  · rw [List.map_append]
    refine dotsApart_append h.apart (by simp [dotsApart, hop]) fun j hj k hk hdot => ?_
    cases hk
    rw [List.getLast?_map, Option.mem_def, Option.map_eq_some_iff] at hj
    obtain ⟨u, hu, rfl⟩ := hj
    exact hx hdot u hu
  · cases xs with
    | nil => exact absurd rfl hne
    | cons x xs => exact h.head u hu

end Undotted

theorem Token.Of.ne_dot {t : Token} {k : Kind} (h : Token.Of k t) (hk : (k == .dot) = false) :
    t.kind ≠ .dot :=
  fun hd => beq_eq_false_iff_ne.mp hk (h.symm.trans hd)

theorem Token.In.ne_dot {t : Token} {g : Category} (h : Token.In g t) : t.kind ≠ .dot := by
  intro hd
  rw [Token.In, hd] at h
  cases g <;> cases h

theorem Token.ne_dot_of_isSpecifierWord {t : Token} (h : t.isSpecifierWord = true) :
    t.kind ≠ .dot := by
  intro hk
  rw [Token.isSpecifierWord, hk] at h
  revert h
  decide

/-- The last token of a suffixed operand is a constant only where it is all of it. -/
theorem Derives.eq_const_of_getLast? {xs : List Token} {e : Node} {t : Token}
    (h : Derives .postfixed xs [e]) (ht : xs.getLast? = some t) (hk : t.kind = .constant) :
    e.shape = .const t.text := by
  have last {u : Token} {k : Kind} (hu : some u = some t) (hk' : u.kind = k) : k = .constant := by
    cases hu
    exact hk'.symm.trans hk
  cases h with
  | ofPrimary h =>
    cases h with
    | ident hi => cases last ht hi
    | constant => cases ht; rfl
    | strings hs => cases last rfl (hs t (List.mem_of_getLast? ht))
    | parens _ _ hr =>
      rw [List.getLast?_concat] at ht
      cases last ht hr
  | index _ _ _ hr | call _ _ _ hr =>
    rw [List.getLast?_concat] at ht
    cases last ht hr
  | field _ _ hi =>
    rw [List.getLast?_append] at ht
    cases last ht hi
  | postUnary _ hop =>
    rw [List.getLast?_concat] at ht
    cases ht
    rw [Token.In, hk] at hop
    cases hop

/-- The tokens keep digits and dots apart where the nodes do. -/
def KeepDots (xs : List Token) (ns : List Node) : Prop :=
  AllLexed xs → (∀ n ∈ ns, n.Every Shape.KeepsDots) → Undotted xs

namespace KeepDots

variable {t : Token} {xs ys : List Token} {n : Node} {ns ms : List Node} {sp : Span}
  {s : Shape Node}

theorem of_forall (h : ∀ t ∈ xs, t.kind ≠ .dot) : KeepDots xs [] := fun _ _ => .of_forall h

theorem pair {u : Token} (ht : t.kind ≠ .dot) (hu : u.kind ≠ .dot) : KeepDots [t, u] [] :=
  of_forall (by simp [ht, hu])

theorem name {name : Option Token} (h : ∀ t ∈ name, Token.Of .ident t) :
    KeepDots name.toList [] :=
  of_forall fun t ht => (h t (Option.mem_toList.mp ht)).ne_dot rfl

theorem append (h : KeepDots xs ns) (h' : KeepDots ys ms) : KeepDots (xs ++ ys) (ns ++ ms) := by
  intro hx hn
  obtain ⟨hx, hy⟩ := allLexed_append.mp hx
  obtain ⟨hn, hm⟩ := List.forall_mem_append.mp hn
  exact (h hx hn).append (h' hy hm)

theorem cons (ht : t.kind ≠ .dot) (h : KeepDots xs ns) : KeepDots (t :: xs) ns :=
  fun hx hn => (h (allLexed_cons.mp hx).2 hn).cons ht

theorem concat (h : KeepDots xs ns) (ht : t.kind ≠ .dot) : KeepDots (xs ++ [t]) ns := by
  have := h.append (of_forall (List.forall_mem_singleton.mpr ht))
  rwa [List.append_nil] at this

theorem wrap (h : KeepDots xs ns) (hs : s.children = ns) : KeepDots xs [⟨sp, s⟩] :=
  fun hx hn => h hx fun c hc =>
    (List.forall_mem_singleton.mp hn).child (hs.symm ▸ hc : c ∈ Shape.children s)

theorem collect {f : List Node → Shape Node} (h : KeepDots xs ns) (hf : (f ns).children = ns) :
    KeepDots xs [Node.collect f ns] :=
  fun hx hn => h hx (Node.Every.of_collect (List.forall_mem_singleton.mp hn) hf)

/-- The access to a field. -/
theorem field {e : Node} {op : Token} (h : KeepDots xs [e]) (hd : Derives .postfixed xs [e])
    (hop : Token.Of .dot op ∨ Token.Of .arrow op) :
    KeepDots (xs ++ [op, t]) [⟨sp, .field e op.text t.text⟩] := by
  intro hx hn
  obtain ⟨hx, hx'⟩ := allLexed_append.mp hx
  obtain ⟨hs, hc⟩ := Node.Every.of_singleton hn
  have kinds : op.kind ≠ .constant := by
    obtain h | h := hop <;> rw [h] <;> decide
  refine (h hx (hc e List.mem_cons_self)).field hd.ne_nil (by simp [Key.isDigits, Token.key, kinds])
    fun hdot j hj => ?_
  have spelled : op.text = "." := by
    rw [(hx' op List.mem_cons_self).text_eq (by rw [hdot]; decide) (by rw [hdot]; rfl), hdot]
    rfl
  have object := hs spelled
  rw [Key.isDigits, Bool.and_eq_false_iff, beq_eq_false_iff_ne]
  by_cases hk : j.kind = .constant
  · rw [Node.isDigits, hd.eq_const_of_getLast? hj hk] at object
    exact .inr object
  · exact .inl hk

end KeepDots

theorem toList_head?_of_cases {α : Type} {as : List α} (h : as = [] ∨ ∃ a, as = [a]) :
    as.head?.toList = as := by
  obtain rfl | ⟨a, rfl⟩ := h <;> rfl

/-- The tokens of a phrase keep digits and dots apart where its nodes do. -/
theorem Derives.keepDots {p : Phrase} {xs : List Token} {ns : List Node} (h : Derives p xs ns) :
    KeepDots xs ns := by
  induction h with
  | one _ ih | bracedLast _ ih | present _ ih => exact ih
  | more _ ht _ ih ihs | bracedMore _ ht _ ih ihs => exact ih.append (ihs.cons (ht.ne_dot rfl))
  | sequenceMore _ _ ih ihs => exact ih.append ihs
  | bracedNil | sequenceNil | absent | abstractNone => exact .of_forall nofun
  -- Expressions
  | ident ht | constant ht | name ht | typedefName ht | directName ht | enumerator ht =>
    exact .wrap (.of_forall (by simp [ht])) rfl
  | strings hs => exact .wrap (.of_forall fun s h => (hs s h).ne_dot rfl) rfl
  | parens hl _ hr ih => exact .wrap ((ih.cons (hl.ne_dot rfl)).concat (hr.ne_dot rfl)) rfl
  | index _ hl _ hr ih ih' =>
    exact .wrap ((ih.append (ih'.cons (hl.ne_dot rfl))).concat (hr.ne_dot rfl)) rfl
  | @call _ _ _ _ args _ _ _ hl _ hr ih ih' =>
    exact .wrap ((ih.append (ih'.cons (hl.ne_dot rfl))).concat (hr.ne_dot rfl))
      (congrArg (_ :: ·) (Node.getD_nonempty? args))
  | field h hop _ ih => exact ih.field h hop
  | postUnary _ hop ih => exact .wrap (ih.concat hop.ne_dot) rfl
  | ofPrimary _ ih | ofPostfixed _ ih | ofUnary _ ih | ofOperand _ ih | tighter _ ih
  | ofBinary _ ih | ofConditional _ ih => exact ih
  | prefixed hop _ ih =>
    exact .wrap (ih.cons (hop.elim (·.ne_dot) (·.ne_dot rfl))) rfl
  | sizeofType hop hl _ hr ih =>
    exact .wrap (((ih.cons (hl.ne_dot rfl)).cons (hop.ne_dot rfl)).concat (hr.ne_dot rfl)) rfl
  | operator hop _ ih => exact .wrap (ih.cons hop.ne_dot) rfl
  | cast hl _ hr _ ih ih' =>
    exact .wrap ((ih.cons (hl.ne_dot rfl)).append (ih'.cons (hr.ne_dot rfl))) rfl
  | binary hl _ hop _ ih ih' =>
    have apart := (Token.operator_ne hl hop).2
    exact .wrap (ih.append (ih'.cons fun he => apart (by simp [he]))) rfl
  | ternary _ hq _ ht _ ih ih' ih'' =>
    exact .wrap ((ih.append (ih'.cons (hq.ne_dot rfl))).append (ih''.cons (ht.ne_dot rfl))) rfl
  | assign _ _ hop _ ih ih' => exact .wrap (ih.append (ih'.cons hop.ne_dot)) rfl
  | expression _ ih | declSpecs _ _ ih | specQuals _ _ ih => exact ih.collect rfl
  -- Types
  | qualifier ht => exact .wrap (.of_forall (List.forall_mem_singleton.mpr ht.ne_dot)) rfl
  | enumeratorValue ht hq _ ih => exact .wrap ((ih.cons (hq.ne_dot rfl)).cons (ht.ne_dot rfl)) rfl
  | enumName hk ht => exact .wrap (.pair (hk.ne_dot rfl) (ht.ne_dot rfl)) rfl
  | enumBody hk ht hl _ hr ih =>
    have front := (KeepDots.name ht).cons (hk.ne_dot rfl)
    exact .wrap ((front.append (ih.cons (hl.ne_dot rfl))).concat (hr.ne_dot rfl)) rfl
  | structName hk ht => exact .wrap (.pair hk.ne_dot (ht.ne_dot rfl)) rfl
  | structBody hk ht hl _ hr ih =>
    have front := (KeepDots.name ht).cons hk.ne_dot
    exact .wrap ((front.append (ih.cons (hl.ne_dot rfl))).concat (hr.ne_dot rfl)) rfl
  | word ht =>
    exact .wrap (.of_forall (List.forall_mem_singleton.mpr (Token.ne_dot_of_isSpecifierWord ht)))
      rfl
  | atomic hk hl _ hr ih =>
    exact .wrap (((ih.cons (hl.ne_dot rfl)).cons (hk.ne_dot rfl)).concat (hr.ne_dot rfl)) rfl
  | ofRecord _ ih | ofEnumeration _ ih | ofSpecQuals _ ih => exact ih
  | typeName _ _ ih ih' => exact .wrap (ih.append ih') rfl
  -- Declarators
  | directNested hl _ hr ih | abstractNested hl _ hr ih =>
    exact .wrap ((ih.cons (hl.ne_dot rfl)).concat (hr.ne_dot rfl)) rfl
  | array _ hl hs hr ih ih' =>
    exact .wrap ((ih.append (ih'.cons (hl.ne_dot rfl))).concat (hr.ne_dot rfl))
      (congrArg (_ :: ·) (toList_head?_of_cases (hs.optional_cases rfl)))
  | @function _ _ _ _ ps _ _ _ hl _ hr ih ih' =>
    exact .wrap ((ih.append (ih'.cons (hl.ne_dot rfl))).concat (hr.ne_dot rfl))
      (congrArg (_ :: ·) (Node.getD_nonempty? ps))
  | pointer ht _ _ ih ih' => exact .wrap ((ih.cons (ht.ne_dot rfl)).append ih') rfl
  | abstractArray h hl hs hr ih ih' =>
    exact .wrap ((ih.append (ih'.cons (hl.ne_dot rfl))).concat (hr.ne_dot rfl))
      (by rw [Shape.children, toList_head?_of_cases h.abstractDirect_cases,
        toList_head?_of_cases (hs.optional_cases rfl)])
  | abstractFunction h hl _ hr ih ih' =>
    exact .wrap ((ih.append (ih'.cons (hl.ne_dot rfl))).concat (hr.ne_dot rfl))
      (by rw [Shape.children, toList_head?_of_cases h.abstractDirect_cases, Node.getD_nonempty?])
  | @abstractPointer _ _ qs _ _ _ ht _ h ih ih' =>
    exact .wrap ((ih.cons (ht.ne_dot rfl)).append ih')
      (congrArg (qs ++ ·) (toList_head?_of_cases h.pointed_cases))
  | ofDirect _ ih | ofAbstractDirect _ ih | abstractDeclarator _ ih | names _ ih
  | typedParams _ ih | lastParam _ ih | paramNamed _ ih | paramUnnamed _ ih => exact ih
  | ellipsis _ ht hd ih =>
    exact ih.append (.wrap (.pair (ht.ne_dot rfl) (hd.ne_dot rfl)) rfl)
  | moreParams _ ht _ ih ih' => exact ih.append (ih'.cons (ht.ne_dot rfl))
  | param _ hd ih ih' =>
    exact .wrap (ih.append ih') (congrArg (_ :: ·) (toList_head?_of_cases (hd.optional_cases rfl)))
  -- Declarations
  | plainMember _ ih | ofAssignment _ ih => exact ih
  | bitfield hd ht _ ih ih' =>
    exact .wrap (ih.append (ih'.cons (ht.ne_dot rfl)))
      (congrArg (· ++ [_]) (toList_head?_of_cases (hd.optional_cases rfl)))
  | member _ _ ht ih ih' => exact .wrap ((ih.append ih').concat (ht.ne_dot rfl)) rfl
  | initList hl _ hr ih => exact .wrap ((ih.cons (hl.ne_dot rfl)).concat (hr.ne_dot rfl)) rfl
  | plainInit _ ih => exact .wrap ih rfl
  | initValue _ hq _ ih ih' => exact .wrap (ih.append (ih'.cons (hq.ne_dot rfl))) rfl
  | @declaration _ _ _ inits _ _ _ _ ht ih ih' =>
    exact .wrap ((ih.append ih').concat (ht.ne_dot rfl))
      (congrArg (_ :: ·) (Node.getD_nonempty? inits))
  | staticAssert hk hl _ ht hs hr hsemi ih =>
    have message := KeepDots.of_forall fun s h => (hs s h).ne_dot rfl
    have front := (ih.cons (hl.ne_dot rfl)).cons (hk.ne_dot rfl)
    exact .wrap ((front.append (message.cons (ht.ne_dot rfl))).append
      (.pair (hr.ne_dot rfl) (hsemi.ne_dot rfl))) rfl
  -- Statements
  | exprStatement h ht ih =>
    exact .wrap (ih.concat (ht.ne_dot rfl)) (toList_head?_of_cases (h.optional_cases rfl))
  | @compound _ _ ns _ _ hl _ hr ih =>
    exact .wrap ((ih.cons (hl.ne_dot rfl)).concat (hr.ne_dot rfl)) (Node.getD_nonempty? ns)
  | itemDeclaration _ ih | itemStatement _ ih | ofExprStatement _ ih | ofCompound _ ih
  | initDeclaration _ ih | initStatement _ ih | ofDeclaration _ ih => exact ih
  | label ht hq _ ih | defaultStmt ht hq _ ih =>
    exact .wrap ((ih.cons (hq.ne_dot rfl)).cons (ht.ne_dot rfl)) rfl
  | caseStmt hk _ hq _ ih ih' =>
    exact .wrap ((ih.cons (hk.ne_dot rfl)).append (ih'.cons (hq.ne_dot rfl))) rfl
  | ifStmt hk hl _ hr _ ih ih' | switchStmt hk hl _ hr _ ih ih' | whileStmt hk hl _ hr _ ih ih' =>
    have header := (ih.cons (hl.ne_dot rfl)).cons (hk.ne_dot rfl)
    exact .wrap (header.append (ih'.cons (hr.ne_dot rfl))) rfl
  | ifElse hk hl _ hr _ ht _ ih ih' ih'' =>
    have header := (ih.cons (hl.ne_dot rfl)).cons (hk.ne_dot rfl)
    exact .wrap ((header.append (ih'.cons (hr.ne_dot rfl))).append (ih''.cons (ht.ne_dot rfl))) rfl
  | doStmt hk _ hw hl _ hr ht ih ih' =>
    have value := (ih'.cons (hl.ne_dot rfl)).cons (hw.ne_dot rfl)
    exact .wrap (((ih.cons (hk.ne_dot rfl)).append value).append
      (.pair (hr.ne_dot rfl) (ht.ne_dot rfl))) rfl
  | forStmt hk hl _ _ hs hr _ ih₁ ih₂ ih₃ ih₄ =>
    have header := ((ih₁.cons (hl.ne_dot rfl)).cons (hk.ne_dot rfl)).append ih₂
    exact .wrap ((header.append ih₃).append (ih₄.cons (hr.ne_dot rfl)))
      (congrArg (fun step => [_, _] ++ step ++ [_]) (toList_head?_of_cases (hs.optional_cases rfl)))
  | gotoStmt hk ht hs =>
    exact .wrap ((KeepDots.pair (ht.ne_dot rfl) (hs.ne_dot rfl)).cons (hk.ne_dot rfl)) rfl
  | continueStmt hk hs | breakStmt hk hs =>
    exact .wrap (.pair (hk.ne_dot rfl) (hs.ne_dot rfl)) rfl
  | returnStmt hk h hs ih =>
    exact .wrap ((ih.cons (hk.ne_dot rfl)).concat (hs.ne_dot rfl))
      (toList_head?_of_cases (h.optional_cases rfl))
  | @definition _ specs _ d _ ds _ body _ hs _ _ _ _ ih₁ ih₂ ih₃ ih₄ =>
    refine fun hx hn => ((ih₁.append ih₂).append ih₃).append ih₄ hx ?_
    have hc := (Node.Every.mk_iff.mp (List.forall_mem_singleton.mp hn)).2
    simp only [Shape.children, List.forall_mem_append, List.forall_mem_singleton,
      toList_head?_of_cases (hs.optional_cases rfl)] at hc
    obtain ⟨⟨⟨⟨hspecs, hname⟩, hparams⟩, hds⟩, hbody⟩ := hc
    have header := (Node.every_header_iff Node.lenient_keepsDots).mp ⟨hname, hparams⟩
    simp only [List.forall_mem_append, List.forall_mem_singleton]
    exact ⟨⟨⟨hspecs, header⟩, hds⟩, hbody⟩

end CPretty
