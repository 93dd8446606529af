import FormulaGraph.Proofs.Solver.Build
import FormulaGraph.Solver.Query

/-!
Asserting, checking and reading models keeps a coherent solver coherent; what is read from a model
is canonical. A reset ends the session, and the one that follows is coherent from its start.
-/

namespace FormulaGraph.Solver

open FormulaGraph.Action

variable {σ S T : Type} [BEq T] [Hashable T] [Engine σ S T] {K : Contract σ S T}
  {start : σ → Prop} {s s' : Solver σ S T} {t : Term} {n : T}

theorem keeps_assertFormula (honoured : K.Honoured start) (coherent : s.Coherent K)
    (genuine : s.session.Genuine t) : Keeps K (assertFormula t) s fun _ _ => True := by
  refine (keeps_ofExcept honoured coherent (LogicSort.plainly_expectBool t.sort)).bind honoured ?_
  rintro _ _ _ ⟨_, same⟩
  subst same
  refine (keeps_native honoured coherent genuine).bind honoured ?_
  rintro n _ _ ⟨same, _, _⟩
  subst same
  exact (keeps_aside honoured coherent (honoured.assertFormula n)).mono fun _ _ _ _ => trivial

theorem plainly_expectBooleanLiteral (t : Term) : Plainly (expectBooleanLiteral t) := by
  unfold expectBooleanLiteral
  exact .ite (.ok _) (.error trivial)

theorem mem_of_assumption [EquivBEq T] [LawfulHashable T] {pairs : List (T × Term)}
    {known : Std.HashMap T Term}
    (found : (pairs.foldl (fun known (n, t) => known.insert n t) known)[n]? = some t) :
    known[n]? = some t ∨ ∃ m, (m, t) ∈ pairs := by
  induction pairs generalizing known with
  | nil => exact .inl found
  | cons pair pairs ih =>
    cases ih found with
    | inl found =>
      rw [Std.HashMap.getElem?_insert] at found
      split at found
      · cases found
        exact .inr ⟨pair.1, List.mem_cons_self⟩
      · exact .inl found
    | inr rest =>
      obtain ⟨m, hm⟩ := rest
      exact .inr ⟨m, List.mem_cons_of_mem _ hm⟩

theorem sort_of_booleanLiteral (literal : expectBooleanLiteral t = .ok ()) : t.sort = .bool := by
  by_contra other
  have truth : t.sort.isBool = false := by
    cases sort : t.sort with
    | bool => exact absurd sort other
    | _ => rfl
  simp [expectBooleanLiteral, truth] at literal

theorem sorts_of_assumptions {assumptions : List Term}
    (literals : assumptions.forM expectBooleanLiteral = .ok ()) :
    ∀ t ∈ assumptions, t.sort = .bool := by
  induction assumptions with
  | nil => exact fun t ht => absurd ht List.not_mem_nil
  | cons t ts ih =>
    obtain ⟨_, first, rest⟩ := ok_of_bind literals
    exact List.forall_mem_cons.mpr ⟨sort_of_booleanLiteral first, ih rest⟩

theorem booleanLiteral_of_symbol (sort : t.sort = .bool) (symbol : t.isSymbol = true)
    (leaf : t.children = []) :
    expectBooleanLiteral t = .ok () := by
  have truth : LogicSort.bool.isBool = true := rfl
  simp [expectBooleanLiteral, leaf, sort, symbol, truth]

theorem booleanLiteral_of_negation {x : Term} (sort : t.sort = .bool) (op : t.op = PrimOp.not)
    (children : t.children = [x]) (symbol : x.isSymbol = true) :
    expectBooleanLiteral t = .ok () := by
  have truth : LogicSort.bool.isBool = true := rfl
  simp [expectBooleanLiteral, op, children, sort, symbol, truth]

theorem checkSatAssuming_of_literals {assumptions : List Term} {ns : List T}
    (literals : assumptions.forM expectBooleanLiteral = .ok ())
    (assumed : List.Forall₂ (fun t n => s.session.native t = .ok n) assumptions ns) :
    checkSatAssuming assumptions s = onEngine (Engine.checkSatAssuming ns)
      ⟨s.engine, rememberAssumptions ns assumptions s.session⟩ := by
  have looked := natives_eq_ask assumptions s
  rw [ask, mapM_of_forall₂ assumed] at looked
  rw [checkSatAssuming, literals]
  show (natives assumptions >>= _) s = _
  rw [bind_ok looked]
  rfl

/-- A check under assumptions is refused before anything is done, or else it is made. -/
theorem checkSatAssuming_cases (assumptions : List Term) (s : Solver σ S T) :
    (∃ e, checkSatAssuming assumptions s = .error e s) ∨
      ∃ ns, (∀ t ∈ assumptions, t.sort = .bool) ∧
        List.Forall₂ (fun t n => s.session.native t = .ok n) assumptions ns ∧
        checkSatAssuming assumptions s = onEngine (Engine.checkSatAssuming ns)
          ⟨s.engine, rememberAssumptions ns assumptions s.session⟩ := by
  cases literals : assumptions.forM expectBooleanLiteral with
  | error e => exact .inl ⟨e, by rw [checkSatAssuming, literals]; rfl⟩
  | ok _ =>
    cases asked : assumptions.mapM s.session.native with
    | error e =>
      have looked := natives_eq_ask assumptions s
      rw [ask, asked] at looked
      refine .inl ⟨e, ?_⟩
      rw [checkSatAssuming, literals]
      show (natives assumptions >>= _) s = _
      exact bind_error looked
    | ok ns =>
      have assumed := forall₂_of_mapM asked
      exact .inr ⟨ns, sorts_of_assumptions literals, assumed,
        checkSatAssuming_of_literals literals assumed⟩

theorem keeps_checkSatAssuming [EquivBEq T] [LawfulHashable T] (honoured : K.Honoured start)
    (coherent : s.Coherent K) {assumptions : List Term}
    (genuine : ∀ t ∈ assumptions, s.session.Genuine t) :
    Keeps K (checkSatAssuming assumptions) s fun _ _ => True := by
  have literals := Plainly.forM plainly_expectBooleanLiteral assumptions
  refine (keeps_ofExcept honoured coherent literals).bind honoured ?_
  rintro _ _ _ ⟨_, same⟩
  subst same
  refine (keeps_natives honoured coherent genuine).bind honoured ?_
  rintro ns _ _ ⟨same, known, _⟩
  subst same
  have remembered : Coherent K ⟨s.engine, rememberAssumptions ns assumptions s.session⟩ := by
    refine coherent.congr rfl rfl rfl rfl rfl ?_ rfl coherent.canonical.memo rfl
      coherent.mirrored.sorts
    intro n t found
    cases mem_of_assumption found with
    | inl found => simp at found
    | inr pair =>
      obtain ⟨m, hm⟩ := pair
      exact known t (List.of_mem_zip hm).2
  refine (keeps_record honoured remembered (.congr rfl rfl rfl rfl rfl) rfl).bind honoured ?_
  intro _ s' kept _
  exact (keeps_aside honoured kept.coherent (honoured.checkSatAssuming ns)).mono
    fun _ _ _ _ => trivial

theorem keeps_wrapValue (honoured : K.Honoured start) (coherent : s.Coherent K) {sort : LogicSort}
    (value : K.Value s.session.arbiter.aliasing sort n s.engine) (unrecorded : s.Unrecorded K n) :
    Keeps K (wrapValue n sort) s fun t s' =>
      s'.session.Has t ∧ ∀ m, s.Unrecorded K m → K.Apart n m → s'.Unrecorded K m := by
  have offers := value s.engine (honoured.refl _)
  exact keeps_get ((keeps_leafValue honoured coherent ⟨offers, unrecorded⟩).mono
    fun _ _ _ h => ⟨h.1.1, h.2⟩)

theorem Kept.value (honoured : K.Honoured start) (kept : Kept K s s') {aliasing : Bool}
    {sort : LogicSort} (value : K.Value aliasing sort n s.engine) :
    K.Value aliasing sort n s'.engine :=
  fun e grows => value e (honoured.trans _ _ _ kept.grows grows)

theorem keeps_wrapBase (honoured : K.Honoured start) (coherent : s.Coherent K)
    {element : LogicSort} {base : Option T}
    (value : ∀ b ∈ base, K.Value s.session.arbiter.aliasing element b s.engine)
    (unrecorded : ∀ b ∈ base, s.Unrecorded K b) :
    Keeps K (wrapBase base element) s fun t? s' =>
      (∀ t ∈ t?, s'.session.Has t) ∧
        ∀ m, s.Unrecorded K m → (∀ b ∈ base, K.Apart b m) → s'.Unrecorded K m := by
  cases base with
  | none => exact keeps_pure honoured coherent ⟨nofun, fun _ h _ => h⟩
  | some b =>
    refine (keeps_aside honoured coherent (honoured.sortOf b)).bind honoured ?_
    intro sort s₁ kept₁ terms₁
    refine keeps_guard honoured kept₁.coherent trivial fun _ => ?_
    have value₁ : K.Value s₁.session.arbiter.aliasing element b s₁.engine := by
      rw [kept₁.extension.aliasing]
      exact kept₁.value honoured (value b rfl)
    refine (keeps_wrapValue honoured kept₁.coherent value₁
      ((unrecorded b rfl).congr terms₁)).bind honoured ?_
    rintro t s₂ kept₂ ⟨ht, others⟩
    refine keeps_pure honoured kept₂.coherent ⟨fun u hu => ?_, fun m hm apart => ?_⟩
    · cases hu
      exact ht
    · exact others m (hm.congr terms₁) (apart b rfl)

/-- The terms of the cells of an array model, in order. -/
def cellTerms (cells : List (T × T)) : List T := cells.flatMap fun (i, x) => [i, x]

/-- Both terms of a cell; the terms of the other cells are still not recorded. -/
theorem keeps_wrapCell (honoured : K.Honoured start) (coherent : s.Coherent K)
    {index element : LogicSort} {i x : T} {others : List T}
    (iValue : K.Value s.session.arbiter.aliasing index i s.engine)
    (xValue : K.Value s.session.arbiter.aliasing element x s.engine)
    (unrecorded : ∀ n ∈ i :: x :: others, s.Unrecorded K n)
    (apart : (i :: x :: others).Pairwise K.Apart) :
    Keeps K (do
      let i ← wrapValue i index
      return (i, ← wrapValue x element)) s fun p s' =>
        (s'.session.Has p.1 ∧ s'.session.Has p.2) ∧ ∀ n ∈ others, s'.Unrecorded K n := by
  obtain ⟨iApart, apart⟩ := List.pairwise_cons.mp apart
  obtain ⟨xApart, apart⟩ := List.pairwise_cons.mp apart
  refine (keeps_wrapValue honoured coherent iValue
    (unrecorded i List.mem_cons_self)).bind honoured ?_
  rintro ti s₁ kept₁ ⟨hti, others₁⟩
  have xValue₁ : K.Value s₁.session.arbiter.aliasing element x s₁.engine := by
    rw [kept₁.extension.aliasing]
    exact kept₁.value honoured xValue
  have xUnrecorded := others₁ x (unrecorded x (List.mem_cons_of_mem _ List.mem_cons_self))
    (iApart x List.mem_cons_self)
  refine (keeps_wrapValue honoured kept₁.coherent xValue₁ xUnrecorded).bind honoured ?_
  rintro tx s₂ kept₂ ⟨htx, others₂⟩
  refine keeps_pure honoured kept₂.coherent ⟨⟨kept₂.extension.has ti hti, htx⟩, ?_⟩
  intro n hn
  have later : n ∈ i :: x :: others := List.mem_cons_of_mem _ (List.mem_cons_of_mem _ hn)
  exact others₂ n (others₁ n (unrecorded n later) (iApart n (List.mem_cons_of_mem _ hn)))
    (xApart n hn)

theorem keeps_wrapCells (honoured : K.Honoured start) {index element : LogicSort}
    {cells : List (T × T)} {s : Solver σ S T} (coherent : s.Coherent K)
    (values : ∀ p ∈ cells, K.Value s.session.arbiter.aliasing index p.1 s.engine ∧
      K.Value s.session.arbiter.aliasing element p.2 s.engine)
    (unrecorded : ∀ n ∈ cellTerms cells, s.Unrecorded K n)
    (apart : (cellTerms cells).Pairwise K.Apart) :
    Keeps K (cells.mapM fun (i, x) => do
      let i ← wrapValue i index
      return (i, ← wrapValue x element)) s fun ts s' =>
        ∀ p ∈ ts, s'.session.Has p.1 ∧ s'.session.Has p.2 := by
  induction cells generalizing s with
  | nil => exact keeps_pure honoured coherent fun p hp => absurd hp List.not_mem_nil
  | cons cell cells ih =>
    obtain ⟨i, x⟩ := cell
    have flat : cellTerms ((i, x) :: cells) = i :: x :: cellTerms cells := rfl
    rw [flat] at unrecorded apart
    obtain ⟨iValue, xValue⟩ := values (i, x) List.mem_cons_self
    rw [List.mapM_cons]
    refine (keeps_wrapCell honoured coherent iValue xValue unrecorded apart).bind honoured ?_
    rintro p s₁ kept₁ ⟨hp, unrecorded₁⟩
    have values₁ : ∀ p ∈ cells, K.Value s₁.session.arbiter.aliasing index p.1 s₁.engine ∧
        K.Value s₁.session.arbiter.aliasing element p.2 s₁.engine := by
      intro q hq
      rw [kept₁.extension.aliasing]
      have both := values q (List.mem_cons_of_mem _ hq)
      exact ⟨kept₁.value honoured both.1, kept₁.value honoured both.2⟩
    have apart₁ := (List.pairwise_cons.mp (List.pairwise_cons.mp apart).2).2
    refine (ih kept₁.coherent values₁ unrecorded₁ apart₁).bind honoured ?_
    intro ps s₂ kept₂ hps
    refine keeps_pure honoured kept₂.coherent fun q hq => ?_
    cases List.mem_cons.mp hq with
    | inl same =>
      rw [same]
      exact ⟨kept₂.extension.has _ hp.1, kept₂.extension.has _ hp.2⟩
    | inr hq => exact hps q hq

theorem keeps_getArrayValues (honoured : K.Honoured start) (coherent : s.Coherent K)
    (genuine : s.session.Genuine t) :
    Keeps K (getArrayValues t) s fun m s' =>
      (∀ b ∈ m.base, s'.session.Has b) ∧ ∀ p ∈ m.cells, s'.session.Has p.1 ∧
        s'.session.Has p.2 := by
  refine (keeps_ofExcept honoured coherent (LogicSort.plainly_expectArray t.sort)).bind honoured ?_
  rintro ⟨index, element⟩ _ _ ⟨array, same⟩
  subst same
  have sort_eq : t.sort = .array index element := by
    cases h : t.sort with
    | array i e => rw [h] at array; cases array; rfl
    | _ => rw [h] at array; cases array
  refine (keeps_native honoured coherent genuine).bind honoured ?_
  rintro n _ _ ⟨same, known, found⟩
  subst same
  obtain ⟨ns, -, named⟩ := coherent.mirrored.names t n known found
  have call := honoured.getArrayValues s.engine n _ index element _ named sort_eq
    coherent.mirrored.aliases
  refine (keeps_onEngine honoured coherent call).bind honoured ?_
  rintro raw s₁ kept₁ ⟨⟨e, made, grows⟩, terms₁⟩
  have unrecorded₁ : ∀ m ∈ raw.terms, s₁.Unrecorded K m :=
    fun m hm => (coherent.unrecorded (made.fresh m hm)).congr terms₁
  obtain ⟨_, cellsApart, baseApart⟩ := List.pairwise_append.mp made.apart
  have value₁ : ∀ {sort m}, K.Value s.session.arbiter.aliasing sort m e →
      K.Value s₁.session.arbiter.aliasing sort m s₁.engine := by
    intro sort m value e' grows'
    rw [kept₁.extension.aliasing]
    exact value e' (honoured.trans _ _ _ grows grows')
  refine (keeps_wrapBase honoured kept₁.coherent (fun b hb => value₁ (made.base b hb))
    fun b hb => unrecorded₁ b ?_).bind honoured ?_
  · exact List.mem_append_left _ (Option.mem_toList.mpr hb)
  rintro base s₂ kept₂ ⟨hbase, others⟩
  have values₂ : ∀ p ∈ raw.cells, K.Value s₂.session.arbiter.aliasing index p.1 s₂.engine ∧
      K.Value s₂.session.arbiter.aliasing element p.2 s₂.engine := by
    intro p hp
    rw [kept₂.extension.aliasing]
    have both := made.cells p hp
    exact ⟨kept₂.value honoured (value₁ both.1), kept₂.value honoured (value₁ both.2)⟩
  have unrecorded₂ : ∀ m ∈ cellTerms raw.cells, s₂.Unrecorded K m := fun m hm =>
    others m (unrecorded₁ m (List.mem_append_right _ hm))
      fun b hb => baseApart b (Option.mem_toList.mpr hb) m hm
  refine (keeps_wrapCells honoured kept₂.coherent values₂ unrecorded₂ cellsApart).bind honoured ?_
  intro cells s₃ kept₃ hcells
  exact keeps_pure honoured kept₃.coherent ⟨fun b hb => kept₃.extension.has b (hbase b hb), hcells⟩

/-- The last term is the first with these cells overwritten, one after the other. -/
inductive Overwrites : Term → List (Term × Term) → Term → Prop
  | nil (array : Term) : Overwrites array [] array
  | cons {array next last i x : Term} {cells : List (Term × Term)} (op : next.op = PrimOp.store)
      (kind : next.kind = .application) (children : next.children = [array, i, x])
      (rest : Overwrites next cells last) : Overwrites array ((i, x) :: cells) last

omit [Engine σ S T] in
theorem Coherent.genuine_cell (coherent : s.Coherent K) {array : Term} (known : s.session.Has array)
    {cell : Term × Term} (both : s.session.Has cell.1 ∧ s.session.Has cell.2) :
    ∀ a ∈ [array, cell.1, cell.2], s.session.Genuine a := by
  have has : ∀ a ∈ [array, cell.1, cell.2], s.session.Has a := by
    simp only [List.mem_cons, List.not_mem_nil, or_false, forall_eq_or_imp, forall_eq]
    exact ⟨known, both.1, both.2⟩
  exact fun a ha => coherent.canonical.toInterned.genuine (has a ha)

theorem keeps_storeAll (honoured : K.Honoured start) {cells : List (Term × Term)} {array : Term}
    {s : Solver σ S T} (coherent : s.Coherent K) (known : s.session.Has array)
    (cellsKnown : ∀ p ∈ cells, s.session.Has p.1 ∧ s.session.Has p.2) :
    Keeps K (cells.foldlM (fun array (i, x) => makeTerm PrimOp.store [array, i, x]) array) s
      fun t s' => s'.session.Has t ∧ Overwrites array cells t := by
  induction cells generalizing array s with
  | nil => exact keeps_pure honoured coherent ⟨known, .nil array⟩
  | cons cell cells ih =>
    rw [List.foldlM_cons]
    have genuine := coherent.genuine_cell known (cellsKnown cell List.mem_cons_self)
    refine (keeps_application honoured coherent _ genuine).bind honoured ?_
    rintro next s' kept ⟨known', op, kind, children, -⟩
    refine (ih kept.coherent known' fun p hp => ?_).mono fun t s'' _ ⟨ht, rest⟩ =>
      ⟨ht, .cons op kind children rest⟩
    have both := cellsKnown p (List.mem_cons_of_mem _ hp)
    exact ⟨kept.extension.has _ both.1, kept.extension.has _ both.2⟩

theorem keeps_getArray (honoured : K.Honoured start) (coherent : s.Coherent K)
    (genuine : s.session.Genuine t) :
    Keeps K (getArray t) s fun t s' => s'.session.Has t := by
  refine (keeps_getArrayValues honoured coherent genuine).bind honoured ?_
  rintro m s₁ kept₁ ⟨hbase, hcells⟩
  split
  · exact keeps_get (keeps_throw honoured kept₁.coherent trivial)
  · rename_i base found
    have known := kept₁.coherent.canonical.toInterned.genuine (hbase base found)
    refine (keeps_makeConstArray honoured kept₁.coherent known t.sort).bind honoured ?_
    intro array s₂ kept₂ harray
    refine (keeps_storeAll honoured kept₂.coherent harray fun p hp => ?_).mono fun _ _ _ h => h.1
    exact ⟨kept₂.extension.has _ (hcells p hp).1, kept₂.extension.has _ (hcells p hp).2⟩

theorem keeps_getValue (honoured : K.Honoured start) (coherent : s.Coherent K)
    (genuine : s.session.Genuine t) :
    Keeps K (getValue t) s fun t s' => s'.session.Has t := by
  unfold getValue
  split
  · exact keeps_getArray honoured coherent genuine
  · refine (keeps_native honoured coherent genuine).bind honoured ?_
    rintro n _ _ ⟨same, known, found⟩
    subst same
    obtain ⟨ns, -, named⟩ := coherent.mirrored.names t n known found
    have call := honoured.getValue s.engine n _ _ named coherent.mirrored.aliases
    refine (keeps_onEngine honoured coherent call).bind honoured ?_
    rintro v s₁ kept₁ ⟨⟨e, ⟨value, fresh⟩, grows⟩, terms₁⟩
    have value₁ : K.Value s₁.session.arbiter.aliasing t.sort v s₁.engine := by
      intro e' grows'
      rw [kept₁.extension.aliasing]
      exact value e' (honoured.trans _ _ _ grows grows')
    exact (keeps_wrapValue honoured kept₁.coherent value₁
      ((coherent.unrecorded fresh).congr terms₁)).mono fun _ _ _ h => h.1

theorem keeps_getUnsatCore (honoured : K.Honoured start) (coherent : s.Coherent K) :
    Keeps K getUnsatCore s fun ts s' => ∀ t ∈ ts, s'.session.Has t := by
  refine (keeps_aside honoured coherent honoured.getUnsatCore).bind honoured ?_
  intro core s₁ kept₁ _
  refine keeps_get (keeps_ask honoured kept₁.coherent (fun ts answered t ht => ?_) ?_)
  · obtain ⟨n, -, found⟩ := exists_of_forall₂ (forall₂_of_mapM answered) ht
    unfold Session.assumption at found
    split at found
    · rename_i known
      cases found
      exact kept₁.coherent.canonical.assumptions n t known
    · cases found
  · intro e failed
    refine honoured.fails e (Plainly.mapM (fun n _ => ?_) e failed).plain
    unfold Session.assumption
    split
    · exact .ok _
    · exact .error trivial

theorem keeps_resetAssertions (honoured : K.Honoured start) (coherent : s.Coherent K) :
    Keeps K resetAssertions s fun _ _ => True := by
  have forgotten : Coherent K ⟨s.engine, { s.session with assumptions := {} }⟩ := by
    refine coherent.congr rfl rfl rfl rfl rfl ?_ rfl coherent.canonical.memo rfl
      coherent.mirrored.sorts
    intro n t found
    simp at found
  refine (keeps_record honoured forgotten (.congr rfl rfl rfl rfl rfl) rfl).bind honoured ?_
  intro _ s₁ kept₁ _
  exact (keeps_aside honoured kept₁.coherent honoured.resetAssertions).mono fun _ _ _ _ => trivial

/-- Of a reset that fails nothing is lost; one that succeeds starts a session. -/
theorem coherent_reset (honoured : K.Honoured start) (coherent : s.Coherent K) :
    match (reset : Action (Solver σ S T) Unit) s with
    | .ok _ s' => s'.Coherent K ∧ s.session.number < s'.session.number
    | .error e s' => Kept K s s' ∧ K.Fails e := by
  obtain ⟨engine, session⟩ := s
  have led := honoured.reset engine coherent.mirrored.valid
  cases h : (Engine.reset : Action σ Unit) engine with
  | error x e' =>
    rw [h] at led
    have called : onEngine Engine.reset ⟨engine, session⟩ =
        .error x (withEngine e' session) := by
      rw [onEngine, h]
    rw [reset, bind_error called]
    exact ⟨(kept_withEngine honoured coherent led.1).1, led.2⟩
  | ok _ e' =>
    rw [h] at led
    obtain ⟨valid, aliases⟩ := led
    have called : onEngine Engine.reset ⟨engine, session⟩ =
        .ok () (withEngine e' session) := by
      rw [onEngine, h]
    obtain ⟨notices, reported⟩ := withEngine_eq (S := S) (T := T) e' session
    have later := honoured.takeNotices e' valid
    rw [reset, bind_ok called, reported]
    have aliases' := honoured.aliases _ _ _ later.2 (aliases _ coherent.mirrored.aliases)
    exact ⟨coherent_of_empty rfl rfl rfl rfl rfl (Nat.lt_succ_self _) coherent.canonical.memo
      later.1 aliases', coherent.canonical.current⟩

end FormulaGraph.Solver
