import FormulaGraph.Proofs.Literal.Normal
import FormulaGraph.Proofs.Solver.Calls

/-!
Making sorts and terms keeps a coherent solver coherent, and what is made is canonical.
-/

namespace FormulaGraph.Solver

open FormulaGraph.Action

variable {σ S T : Type} [BEq T] [Hashable T] [Engine σ S T] {K : Contract σ S T}
  {start : σ → Prop} {s s' : Solver σ S T} {t : Term} {n : T}

theorem keeps_withNative (honoured : K.Honoured start) (coherent : s.Coherent K)
    (sort : LogicSort) : Keeps K (withNative sort) s fun _ _ => True := by
  have made : Keeps K (discard (nativeSort sort)) s fun _ _ => True :=
    (keeps_nativeSort honoured sort coherent).bind honoured
      fun _ _ kept _ => keeps_pure honoured kept.coherent trivial
  exact made.bind honoured fun _ _ kept _ => keeps_pure honoured kept.coherent trivial

theorem keeps_makeSort (honoured : K.Honoured start) (coherent : s.Coherent K) (kind : SortKind) :
    Keeps K (makeSort kind) s fun _ _ => True := by
  unfold makeSort
  split
  · exact keeps_withNative honoured coherent _
  · exact keeps_withNative honoured coherent _
  · exact keeps_withNative honoured coherent _
  · exact keeps_throw honoured coherent trivial

theorem keeps_makeBitVecSort (honoured : K.Honoured start) (coherent : s.Coherent K)
    (width : UInt64) : Keeps K (makeBitVecSort width) s fun _ _ => True := by
  unfold makeBitVecSort
  split
  · exact keeps_throw honoured coherent trivial
  · exact keeps_withNative honoured coherent _

theorem keeps_makeFunctionSort (honoured : K.Honoured start) (coherent : s.Coherent K)
    (domain : List LogicSort) (range : LogicSort) :
    Keeps K (makeFunctionSort domain range) s fun _ _ => True := by
  unfold makeFunctionSort
  split
  · exact keeps_throw honoured coherent trivial
  · exact keeps_withNative honoured coherent _

theorem keeps_declare (honoured : K.Honoured start) (coherent : s.Coherent K) {sort : LogicSort}
    {make : Action σ S} (name : String)
    (call : K.Calls make s.engine fun made _ => K.Denotes sort made) :
    Keeps K (declare name sort make) s fun _ s' => SameTerms s s' := by
  refine keeps_get (keeps_guard honoured coherent trivial fun _ => ?_)
  refine (keeps_onEngine honoured coherent call).bind honoured ?_
  rintro made s' kept ⟨⟨_, denotes, _⟩, terms⟩
  have coherent := kept.coherent
  have declared : Coherent K ⟨s'.engine, { s'.session with
      declared := s'.session.declared.insert name
      sorts := s'.session.sorts.insert sort made }⟩ := by
    refine coherent.congr rfl rfl rfl rfl rfl coherent.canonical.assumptions rfl
      coherent.canonical.memo rfl ?_
    intro sort' made' found
    rw [Std.HashMap.getElem?_insert] at found
    split at found
    · rename_i same
      cases found
      exact eq_of_beq same ▸ denotes
    · exact coherent.mirrored.sorts sort' made' found
  refine (keeps_record honoured declared (.congr rfl rfl rfl rfl rfl) rfl).bind honoured ?_
  rintro _ _ kept rfl
  exact keeps_pure honoured kept.coherent (terms.trans ⟨rfl, rfl, rfl⟩)

theorem keeps_makeUninterpretedSort (honoured : K.Honoured start) (coherent : s.Coherent K)
    (name : String) (arity : UInt64) :
    Keeps K (makeUninterpretedSort name arity) s fun _ s' => SameTerms s s' :=
  keeps_declare honoured coherent name (honoured.makeUninterpretedSort _ name arity)

theorem keeps_makeDatatypeSort (honoured : K.Honoured start) (coherent : s.Coherent K)
    (decl : DatatypeDecl) : Keeps K (makeDatatypeSort decl) s fun _ s' => SameTerms s s' := by
  unfold makeDatatypeSort
  split
  · exact keeps_throw honoured coherent trivial
  · exact keeps_declare honoured coherent decl.name (honoured.makeDatatypeSort _ decl)

theorem keeps_leafValue (honoured : K.Honoured start) (coherent : s.Coherent K) {l : Literal}
    {sort : LogicSort} (offers : s.Offers K ⟨.null, sort, .value l, []⟩ n) :
    Keeps K (leaf sort (.value l) [] n) s fun t s' =>
      (s'.session.Has t ∧ t.sort = sort ∧ t.kind = .value l ∧ Frugal s t s') ∧
        ∀ m, s.Unrecorded K m → K.Apart n m → s'.Unrecorded K m := by
  have known : ∀ c ∈ [], s.session.Has c := fun _ hc => absurd hc List.not_mem_nil
  have formed : (s.session.candidate .null sort (.value l) []).Formed := ⟨rfl, rfl⟩
  have other : ∀ name, TermKind.value l ≠ .symbol name := fun _ => nofun
  refine (keeps_intern honoured coherent .nil known formed other offers).mono ?_
  rintro t s' _ ⟨interns, others⟩
  obtain ⟨-, sort_eq, kind, -⟩ := interns.structure_eq
  exact ⟨⟨interns.has, sort_eq, kind, frugal_of_interned interns⟩, others⟩

/-- A literal is made in its normal form. -/
theorem keeps_literal (honoured : K.Honoured start) (coherent : s.Coherent K) (l : Literal)
    (sort : LogicSort) :
    Keeps K (makeValue l sort) s fun t s' =>
      s'.session.Has t ∧ t.sort = sort ∧ (∃ l', l.normalize sort = .ok l' ∧ t.kind = .value l') ∧
        Frugal s t s' := by
  unfold makeValue
  refine keeps_guard honoured coherent trivial fun misfit => ?_
  have fits : l.fits sort = true := by simpa using misfit
  refine (keeps_ofExcept honoured coherent (l.plainly_normalize sort)).bind honoured ?_
  rintro l' _ _ ⟨normal, same⟩
  subst same
  refine (keeps_nativeSort honoured sort coherent).bind honoured ?_
  rintro made s' kept ⟨denotes, terms⟩
  have call :=
    honoured.makeValue s'.engine l' sort made denotes (Literal.fits_normalize fits normal)
  refine (keeps_make honoured kept.coherent call).bind honoured ?_
  rintro n s'' kept ⟨offers, terms'⟩
  refine (keeps_leafValue honoured kept.coherent offers).mono ?_
  rintro t _ _ ⟨⟨has, sort_eq, kind, frugal⟩, -⟩
  exact ⟨has, sort_eq, ⟨l', normal, kind⟩, (terms.trans terms').frugal frugal⟩

theorem keeps_makeValue (honoured : K.Honoured start) (coherent : s.Coherent K) (l : Literal)
    (sort : LogicSort) : Keeps K (makeValue l sort) s fun t s' => s'.session.Has t :=
  (keeps_literal honoured coherent l sort).mono fun _ _ _ h => h.1

theorem keeps_makeInt (honoured : K.Honoured start) (coherent : s.Coherent K) (i : Int64)
    (sort : LogicSort) : Keeps K (makeInt i sort) s fun t s' => s'.session.Has t := by
  unfold makeInt
  split
  · exact keeps_makeValue honoured coherent _ _
  · exact keeps_makeValue honoured coherent _ _
  · exact keeps_makeValue honoured coherent _ _
  · exact keeps_throw honoured coherent trivial

theorem keeps_parseValue (honoured : K.Honoured start) (coherent : s.Coherent K) (repr : String)
    (sort : LogicSort) (base : Nat) :
    Keeps K (parseValue repr sort base) s fun t s' => s'.session.Has t := by
  refine (keeps_ofExcept honoured coherent (Literal.plainly_parse repr sort base)).bind honoured ?_
  rintro l _ _ ⟨_, same⟩
  subst same
  exact keeps_makeValue honoured coherent l sort

theorem keeps_constArray (honoured : K.Honoured start) (coherent : s.Coherent K) {fill : Term}
    (genuine : s.session.Genuine fill) (sort : LogicSort) :
    Keeps K (makeConstArray fill sort) s fun t s' => s'.session.Has t ∧
      (t.op = .null ∧ t.sort = sort ∧ t.kind = .constArray ∧ t.children = [fill]) ∧
      Frugal s t s' := by
  refine (keeps_ofExcept honoured coherent (LogicSort.plainly_expectArray sort)).bind honoured ?_
  rintro ⟨index, element⟩ _ _ ⟨array, same⟩
  subst same
  refine (keeps_ofExcept honoured coherent
    (LogicSort.plainly_expectSame element fill.sort)).bind honoured ?_
  rintro _ _ _ ⟨agrees, same⟩
  subst same
  have sort_eq : sort = .array index fill.sort := by
    cases sort with
    | array i e =>
      cases array
      rw [LogicSort.expectSame_eq_ok_iff.mp agrees]
    | _ => cases array
  subst sort_eq
  refine (keeps_native honoured coherent genuine).bind honoured ?_
  rintro nf _ _ ⟨same, known, found⟩
  subst same
  obtain ⟨ns, -, named⟩ := coherent.mirrored.names fill nf known found
  refine (keeps_nativeSort honoured _ coherent).bind honoured ?_
  rintro made s' kept ⟨denotes, terms⟩
  have named' := honoured.names _ _ nf _ kept.grows named
  have call := honoured.makeConstArray s'.engine nf _ index made named' denotes
  refine (keeps_make honoured kept.coherent call).bind honoured ?_
  rintro n s'' kept' ⟨offers, terms'⟩
  have extension := kept.extension.trans kept'.extension
  have renders : s''.session.Renders [fill] [nf] :=
    .cons (extension.natives fill nf found) .nil
  have known' : ∀ c ∈ [fill], s''.session.Has c := fun c hc => by
    rw [List.mem_singleton.mp hc]
    exact extension.has fill known
  have formed : (s''.session.candidate .null (.array index fill.sort) .constArray [fill]).Formed :=
    ⟨rfl, fill, index, rfl, rfl⟩
  have other : ∀ name, TermKind.constArray ≠ .symbol name := fun _ => nofun
  refine (keeps_intern honoured kept'.coherent renders known' formed other offers).mono ?_
  rintro t _ _ ⟨interns, -⟩
  exact ⟨interns.has, interns.structure_eq,
    (terms.trans terms').frugal (frugal_of_interned interns)⟩

theorem keeps_makeConstArray (honoured : K.Honoured start) (coherent : s.Coherent K) {fill : Term}
    (genuine : s.session.Genuine fill) (sort : LogicSort) :
    Keeps K (makeConstArray fill sort) s fun t s' => s'.session.Has t :=
  (keeps_constArray honoured coherent genuine sort).mono fun _ _ _ h => h.1

theorem keeps_leafSymbol (honoured : K.Honoured start) (coherent : s.Coherent K) {name : String}
    {sort : LogicSort} (unused : s.session.symbols[name]? = none)
    (offers : s.Offers K ⟨.null, sort, .symbol name, []⟩ n) :
    Keeps K (do
      let t ← leaf sort (.symbol name) [] n
      record fun s => { s with symbols := s.symbols.insert name t }
      return t) s fun t s' => s'.session.Has t ∧
        (t.op = .null ∧ t.sort = sort ∧ t.kind = .symbol name ∧ t.children = []) ∧
        Frugal s t s' := by
  have interned := coherent.canonical.toInterned
  have formed : (s.session.candidate .null sort (.symbol name) []).Formed := ⟨rfl, rfl⟩
  have interns := interned.intern (fun _ hc => absurd hc List.not_mem_nil) formed n
  generalize result : s.session.intern .null sort (.symbol name) [] n = pair at interns
  obtain ⟨t, session⟩ := pair
  dsimp only at interns
  obtain ⟨op_eq, sort_eq, kind, children⟩ := interns.structure_eq
  have run : (do
      let t ← leaf sort (.symbol name) [] n
      record fun s => { s with symbols := s.symbols.insert name t }
      return t : Action (Solver σ S T) Term) s =
        .ok t ⟨s.engine, { session with symbols := session.symbols.insert name t }⟩ := by
    have leafed : (leaf sort (.symbol name) [] n : Action (Solver σ S T) Term) s =
        .ok t ⟨s.engine, session⟩ := by
      rw [leaf, update, result]
    rw [bind_ok leafed]
    rfl
  refine (leads_ok run).mpr ?_
  cases interns.known_or_new with
  | inl hit =>
    -- A known symbol of this name would have the name in use.
    have found := (coherent.canonical.symbols name t).mpr ⟨hit.2, kind⟩
    rw [unused] at found
    cases found
  | inr miss =>
    obtain ⟨rfl, fresh, id⟩ := miss
    have renders : s.session.Renders t.children [] := by
      rw [children]
      exact .nil
    have mirrored := coherent.mirrored_add honoured.symm fresh id renders
      (by rwa [op_eq, sort_eq, kind])
    have frugal : Frugal s t ⟨s.engine, { s.session.add t n with
        symbols := (s.session.add t n).symbols.insert name t }⟩ :=
      ⟨fun u hu => (Session.has_add fresh n).mp hu, fun ht => by cases fresh.symm.trans ht⟩
    refine ⟨⟨⟨?_, ?_⟩, ?_, honoured.refl _, interns.drawn⟩, interns.has,
      interns.structure_eq, frugal⟩
    · exact coherent.canonical.add_symbol interns.interned fresh kind unused
    · exact mirrored.congr rfl rfl rfl rfl mirrored.sorts
    · refine ⟨rfl, interns.extension.has, interns.extension.natives, ?_, rfl⟩
      intro name' u found
      have other : name ≠ name' := by
        intro same
        rw [← same, unused] at found
        cases found
      show (s.session.symbols.insert name t)[name']? = some u
      rw [Std.HashMap.getElem?_insert, if_neg (by simpa using other)]
      exact found

/-- A symbol is answered of just this name and sort. -/
theorem keeps_symbol (honoured : K.Honoured start) (coherent : s.Coherent K) (name : String)
    (sort : LogicSort) :
    Keeps K (makeSymbol name sort) s fun t s' => s'.session.Has t ∧
      (t.op = .null ∧ t.sort = sort ∧ t.kind = .symbol name ∧ t.children = []) ∧
      Frugal s t s' := by
  refine keeps_get (keeps_guard honoured coherent trivial fun unused => ?_)
  refine (keeps_nativeSort honoured sort coherent).bind honoured ?_
  rintro made s' kept ⟨denotes, terms⟩
  have call := honoured.makeSymbol s'.engine name sort made denotes
  refine (keeps_make honoured kept.coherent call).bind honoured ?_
  rintro n s'' kept ⟨offers, terms'⟩
  have unused' : s''.session.symbols[name]? = none := by
    rw [(terms.trans terms').symbols]
    simpa using unused
  refine (keeps_leafSymbol honoured kept.coherent unused' offers).mono ?_
  rintro t _ _ ⟨has, structure_eq, frugal⟩
  exact ⟨has, structure_eq, (terms.trans terms').frugal frugal⟩

theorem keeps_makeSymbol (honoured : K.Honoured start) (coherent : s.Coherent K) (name : String)
    (sort : LogicSort) : Keeps K (makeSymbol name sort) s fun t s' => s'.session.Has t :=
  (keeps_symbol honoured coherent name sort).mono fun _ _ _ h => h.1

theorem keeps_application (honoured : K.Honoured start) (coherent : s.Coherent K) (op : Op)
    {args : List Term} (genuine : ∀ a ∈ args, s.session.Genuine a) :
    Keeps K (makeTerm op args) s fun t s' =>
      s'.session.Has t ∧ t.op = op ∧ t.kind = .application ∧ t.children = args ∧ Frugal s t s' := by
  refine (keeps_natives honoured coherent genuine).bind honoured ?_
  rintro ns _ _ ⟨same, known, renders⟩
  subst same
  refine (keeps_derive honoured coherent op (args.map Term.sort)).bind honoured ?_
  rintro derived s₁ kept₁ ⟨result, terms₁⟩
  have known₁ := fun a ha => kept₁.extension.has a (known a ha)
  have sorted := kept₁.coherent.mirrored.sorted known₁ (renders.extend kept₁.extension)
  have call := honoured.makeTerm s₁.engine op ns (args.map Term.sort) sorted
  refine (keeps_onEngine honoured kept₁.coherent call).bind honoured ?_
  rintro n s₂ kept₂ ⟨⟨e, made, grows⟩, terms₂⟩
  refine (keeps_aside honoured kept₂.coherent (honoured.sortOf n)).bind honoured ?_
  intro reported s₃ kept₃ terms₃
  refine (keeps_reconcile honoured kept₃.coherent result reported).bind honoured ?_
  rintro sort s₄ kept₄ ⟨gives, terms₄⟩
  have offers₂ : s₂.Offers K ⟨op, sort, .application, ns⟩ n :=
    ⟨honoured.names e _ n _ grows (made sort gives).1,
      (kept₁.coherent.unrecorded (made sort gives).2).congr terms₂⟩
  have offers := (offers₂.kept honoured kept₃ terms₃).kept honoured kept₄ terms₄
  have extension := ((kept₁.extension.trans kept₂.extension).trans kept₃.extension).trans
    kept₄.extension
  have known₄ := fun a ha => extension.has a (known a ha)
  have formed : (s₄.session.candidate op sort .application args).Formed := gives
  have other : ∀ name, TermKind.application ≠ .symbol name := fun _ => nofun
  refine (keeps_intern honoured kept₄.coherent (renders.extend extension) known₄ formed other
    offers).mono ?_
  rintro t s' _ ⟨interns, _⟩
  obtain ⟨op_eq, _, kind, children⟩ := interns.structure_eq
  have terms := (terms₁.trans terms₂).trans (terms₃.trans terms₄)
  exact ⟨interns.has, op_eq, kind, children, terms.frugal (frugal_of_interned interns)⟩

theorem keeps_makeTerm (honoured : K.Honoured start) (coherent : s.Coherent K) (op : Op)
    {args : List Term} (genuine : ∀ a ∈ args, s.session.Genuine a) :
    Keeps K (makeTerm op args) s fun t s' => s'.session.Has t :=
  (keeps_application honoured coherent op genuine).mono fun _ _ _ h => h.1

end FormulaGraph.Solver
