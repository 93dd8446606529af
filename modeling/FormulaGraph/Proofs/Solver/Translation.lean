import FormulaGraph.Proofs.Enumeration.Decoding
import FormulaGraph.Proofs.Solver.Frame
import FormulaGraph.Proofs.Solver.LockStep

/-!
The counterpart of a node in a session, made from the counterparts of its children: it has the shape
of the node, and nothing else is made. It is made wherever the node's sort is known or can be
counted, unless a symbol of the same name has another sort.
-/

namespace FormulaGraph

/-- What makes a node the same wherever it is made: its literal is in normal form, and its sort is
derived from its children. -/
def Term.Movable (t : Term) : Prop :=
  match t.kind with
  | .symbol _ => t.op = .null ∧ t.children = []
  | .value l =>
    (t.op = .null ∧ t.children = []) ∧ l.fits t.sort = true ∧ l.normalize t.sort = .ok l
  | .constArray =>
    t.op = .null ∧ ∃ fill index, t.children = [fill] ∧ t.sort = .array index fill.sort
  | .application => t.op.resultSort (t.children.map Term.sort) = .ok (some t.sort)

namespace Solver

open FormulaGraph.Action

variable {s s' d d' : Solver Enumerator LogicSort Handle} {t u : Term} {news : List Term}
  {sort : LogicSort} {name : String}

/-- The sort can be used as it is. -/
def Usable (s : Solver Enumerator LogicSort Handle) (sort : LogicSort) : Prop :=
  sort ∈ s.session.sorts ∨ ∃ bits, sort.searchBits = .ok bits

theorem Tidy.value {l : Literal} (tidy : s.Tidy) (coherent : s.Coherent Enumerator.contract)
    (ht : s.session.Has t) (kind : t.kind = .value l) :
    l.fits t.sort = true ∧ l.normalize t.sort = .ok l ∧ s.Usable t.sort := by
  obtain ⟨n, ns, node, -, -, found, built⟩ := coherent.node ht
  rw [kind] at built
  obtain rfl := built.of_value
  have fits : l.fits t.sort = true := coherent.mirrored.valid.sorted n _ _ found
  cases tidy.nodes n _ _ found with
  | inl plain =>
    cases l with
    | bool b =>
      have sort : t.sort = .bool := by
        cases sort : t.sort <;> simp_all [Literal.fits]
      exact ⟨fits, rfl, .inr ⟨1, by rw [sort]; rfl⟩⟩
    | bitVec w bits =>
      have sort : t.sort = .bitVec w := by
        cases sort : t.sort <;> simp_all [Literal.fits]
      exact ⟨fits, rfl, .inr ⟨w.toNat, by rw [sort]; rfl⟩⟩
    | int | real | other => exact plain.elim
  | inr remakes => exact ⟨fits, remakes.2 l rfl, .inl remakes.1⟩

theorem Tidy.constArray (tidy : s.Tidy) (coherent : s.Coherent Enumerator.contract)
    (ht : s.session.Has t) (kind : t.kind = .constArray) : s.Usable t.sort := by
  obtain ⟨n, ns, node, -, -, found, built⟩ := coherent.node ht
  rw [kind] at built
  obtain ⟨fill, -, rfl⟩ := built.of_constArray
  cases tidy.nodes n _ _ found with
  | inl plain => exact plain.elim
  | inr remakes => exact .inl remakes.1

theorem Tidy.movable (tidy : s.Tidy) (coherent : s.Coherent Enumerator.contract)
    (ht : s.session.Has t) : t.Movable := by
  have formed := coherent.canonical.formed t ht
  unfold Term.Formed at formed
  unfold Term.Movable
  cases kind : t.kind with
  | symbol name =>
    rw [kind] at formed
    exact formed
  | value l =>
    rw [kind] at formed
    obtain ⟨fits, normal, -⟩ := tidy.value coherent ht kind
    exact ⟨formed, fits, normal⟩
  | constArray =>
    rw [kind] at formed
    exact formed
  | application => exact derived_of_has coherent ht kind

section Sound

theorem keeps_translation (coherent : d.Coherent Enumerator.contract) (movable : t.Movable)
    (known : ∀ u ∈ news, d.session.Has u)
    (shapes : news.map Term.shape = t.children.map Term.shape) :
    Keeps Enumerator.contract (translate t news) d fun u d' =>
      d'.session.Has u ∧ u.shape = t.shape ∧ Frugal d u d' := by
  have honoured := Enumerator.contract_honoured
  have genuine := fun u hu => coherent.canonical.toInterned.genuine (known u hu)
  unfold Term.Movable at movable
  unfold translate
  split
  · rename_i name kind
    rw [kind] at movable
    refine (keeps_matchSymbol honoured coherent name t.sort).mono ?_
    rintro u d' kept ⟨hu, ⟨op, sort, kind', children⟩, frugal⟩
    refine ⟨hu, Term.shape_eq_iff.mpr ⟨?_, sort, kind'.trans kind.symm, ?_⟩, frugal⟩
    · rw [op, movable.1]
    · rw [children, movable.2]
  · rename_i l kind
    rw [kind] at movable
    obtain ⟨leaf, fits, normal⟩ := movable
    refine (keeps_literal honoured coherent l t.sort).mono ?_
    rintro u d' kept ⟨hu, sort, ⟨l', normal', kind'⟩, frugal⟩
    cases normal.symm.trans normal'
    have formed := kept.coherent.canonical.formed u hu
    rw [Term.Formed, kind'] at formed
    refine ⟨hu, Term.shape_eq_iff.mpr ⟨?_, sort, kind'.trans kind.symm, ?_⟩, frugal⟩
    · rw [formed.1, leaf.1]
    · rw [formed.2, leaf.2]
  · rename_i fill rest kind
    rw [kind] at movable
    obtain ⟨op, fill', index, children, sort⟩ := movable
    refine (keeps_constArray honoured coherent (genuine fill List.mem_cons_self) t.sort).mono ?_
    rintro u d' kept ⟨hu, ⟨op', sort', kind', children'⟩, frugal⟩
    refine ⟨hu, Term.shape_eq_iff.mpr ⟨?_, sort', kind'.trans kind.symm, ?_⟩, frugal⟩
    · rw [op', op]
    · rw [children] at shapes
      rw [children', children, List.map_cons, (List.cons.inj shapes).1]
      rfl
  · rename_i kind
    rw [kind] at movable
    obtain ⟨-, fill, index, children, -⟩ := movable
    rw [children] at shapes
    cases shapes
  · rename_i kind
    rw [kind] at movable
    refine (keeps_application honoured coherent t.op genuine).mono ?_
    rintro u d' kept ⟨hu, op, kind', children, frugal⟩
    have gives := kept.coherent.canonical.formed u hu
    rw [Term.Formed, kind', op, children, Term.sorts_of_shapes shapes, Op.Gives, movable] at gives
    have sort : t.sort = u.sort := by simpa using gives
    exact ⟨hu, Term.shape_eq_iff.mpr
      ⟨op, sort.symm, kind'.trans kind.symm, children ▸ shapes⟩, frugal⟩

end Sound

section Complete

theorem nativeSort_countable (sort : LogicSort) {bits : Nat} (counted : sort.searchBits = .ok bits)
    (s : Solver Enumerator LogicSort Handle) : Succeeds (nativeSort sort) s fun _ _ => True := by
  rw [nativeSort]
  refine succeeds_get ?_
  split
  · exact succeeds_pure trivial
  · cases sort with
    | bool | bitVec => exact ⟨_, _, rfl, trivial⟩
    | array index element =>
      obtain ⟨w, step, rfl, -, inner, -⟩ := LogicSort.searchBits_array counted
      refine (nativeSort_countable (.bitVec w) rfl s).bind fun i s₁ _ => ?_
      refine (nativeSort_countable element inner s₁).bind fun x s₂ _ => ?_
      exact ⟨_, _, rfl, trivial⟩
    | _ => cases counted

theorem nativeSort_succeeds (usable : s.Usable sort) :
    Succeeds (nativeSort sort) s fun _ _ => True := by
  cases usable with
  | inl used =>
    obtain ⟨known, found⟩ :=
      Option.isSome_iff_exists.mp (Std.HashMap.isSome_getElem?_iff_mem.mpr used)
    rw [nativeSort]
    refine succeeds_get ?_
    rw [found]
    exact succeeds_pure trivial
  | inr countable =>
    obtain ⟨bits, counted⟩ := countable
    exact nativeSort_countable sort counted s

theorem makeValue_succeeds_iff {l l' : Literal} (fits : l.fits sort = true)
    (normal : l.normalize sort = .ok l') :
    (Succeeds (makeValue l sort) s fun _ _ => True) ↔
    Succeeds (nativeSort sort) s fun _ _ => True := by
  rw [makeValue, fits, normal]
  show (Succeeds (nativeSort sort >>= _) s _) ↔ _
  exact ⟨Succeeds.of_bind, fun sorted => sorted.bind fun made s₁ _ => ⟨_, _, rfl, trivial⟩⟩

theorem makeValue_succeeds {l : Literal} (fits : l.fits sort = true)
    (normal : l.normalize sort = .ok l)
    (usable : s.Usable sort) : Succeeds (makeValue l sort) s fun _ _ => True :=
  (makeValue_succeeds_iff fits normal).mpr (nativeSort_succeeds usable)

theorem declareSorts_countable (sort : LogicSort) {bits : Nat}
    (counted : sort.searchBits = .ok bits)
    (s : Solver Enumerator LogicSort Handle) : declareSorts sort s = .ok () s := by
  match sort with
  | .bool | .bitVec _ => rfl
  | .array index element =>
    obtain ⟨w, step, rfl, -, inner, -⟩ := LogicSort.searchBits_array counted
    rw [declareSorts, bind_ok (declareSorts_countable element inner s)]
    rfl

theorem makeConstArray_succeeds_iff {fill : Term} {index : LogicSort}
    (coherent : d.Coherent Enumerator.contract) (known : d.session.Has fill) :
    (Succeeds (makeConstArray fill (.array index fill.sort)) d fun _ _ => True) ↔
      Succeeds (nativeSort (.array index fill.sort)) d fun _ _ => True := by
  obtain ⟨n, ns, node, recorded, -, found, -⟩ := coherent.node known
  have asked := native_of_recorded (coherent.canonical.numbered fill known) recorded
  have same : fill.sort.expectSame fill.sort = .ok () := LogicSort.expectSame_eq_ok_iff.mpr rfl
  rw [makeConstArray, LogicSort.expectArray]
  show (Succeeds (Action.ofExcept (fill.sort.expectSame fill.sort) >>= _) d _) ↔ _
  rw [same]
  show (Succeeds (native fill >>= _) d _) ↔ _
  rw [Succeeds, bind_ok asked]
  refine ⟨Succeeds.of_bind, fun sorted => ?_⟩
  refine ((keeps_nativeSort Enumerator.contract_honoured _ coherent).and sorted).bind ?_
  rintro made d₁ ⟨kept, -, -⟩
  have bound : n.index < d₁.engine.store.size :=
    NodeStore.index_lt_of_find? (kept.grows.store _ _ found)
  have built : ∃ m e, Enumerator.makeConstArray n made d₁.engine = .ok m e := by
    rw [Enumerator.makeConstArray, dif_pos bound]
    exact ⟨_, _, rfl⟩
  obtain ⟨m, e, built⟩ := built
  have called : (onEngine (Engine.makeConstArray n made) : Action _ Handle) d₁ =
      .ok m ⟨e, d₁.session⟩ :=
    onEngine_ok built d₁.session
  rw [Succeeds, bind_ok called]
  exact ⟨_, _, rfl, trivial⟩

theorem makeConstArray_succeeds {fill : Term} {index : LogicSort}
    (coherent : d.Coherent Enumerator.contract) (known : d.session.Has fill)
    (usable : d.Usable (.array index fill.sort)) :
    Succeeds (makeConstArray fill (.array index fill.sort)) d fun _ _ => True :=
  (makeConstArray_succeeds_iff coherent known).mpr (nativeSort_succeeds usable)

theorem makeSymbol_succeeds_iff (coherent : d.Coherent Enumerator.contract) (tidy : d.Tidy)
    (unknown : d.session.symbols[name]? = none) :
    (Succeeds (makeSymbol name sort) d fun _ _ => True) ↔
    Succeeds (nativeSort sort) d fun _ _ => True := by
  have free : d.session.symbols.contains name = false := by
    rw [Std.HashMap.contains_eq_isSome_getElem?, unknown]
    rfl
  rw [makeSymbol]
  show (Succeeds (if d.session.symbols.contains name then _ else _) d _) ↔ _
  rw [free]
  show (Succeeds (nativeSort sort >>= _) d _) ↔ _
  refine ⟨Succeeds.of_bind, fun sorted => ?_⟩
  have made := (keeps_nativeSort Enumerator.contract_honoured sort coherent).and sorted
  refine ((frames_nativeSort sort tidy).and made).bind ?_
  rintro made d₁ ⟨stays, -, kept, ⟨-, terms⟩, -⟩
  have untaken : ¬ d₁.engine.symbols.contains name = true := fun taken => by
    have known := stays.tidy.symbols name (Std.HashMap.mem_iff_contains.mpr taken)
    rw [terms.symbols, Std.HashMap.mem_iff_contains, free] at known
    cases known
  obtain ⟨m, e, built⟩ : ∃ m e, Enumerator.makeSymbol name made d₁.engine = .ok m e := by
    rw [Enumerator.makeSymbol, if_neg untaken]
    exact ⟨_, _, rfl⟩
  have called : (onEngine (Engine.makeSymbol name made) : Action _ Handle) d₁ =
      .ok m ⟨e, d₁.session⟩ := onEngine_ok built d₁.session
  rw [Succeeds, bind_ok called]
  exact ⟨_, _, rfl, trivial⟩

theorem makeSymbol_succeeds (coherent : d.Coherent Enumerator.contract) (tidy : d.Tidy)
    (unknown : d.session.symbols[name]? = none) (usable : d.Usable sort) :
    Succeeds (makeSymbol name sort) d fun _ _ => True :=
  (makeSymbol_succeeds_iff coherent tidy unknown).mpr (nativeSort_succeeds usable)

/-- What a session needs for the counterpart of a node, besides those of its children. -/
def Accepts (d : Solver Enumerator LogicSort Handle) (t : Term) : Prop :=
  match t.kind with
  | .symbol name =>
    match d.session.symbols[name]? with
    | some known => known.sort = t.sort
    | none => ∃ bits, t.sort.searchBits = .ok bits
  | .value _ | .constArray => d.Usable t.sort
  | .application => True

theorem matchSymbol_succeeds (coherent : d.Coherent Enumerator.contract) (tidy : d.Tidy)
    (accepts : match d.session.symbols[name]? with
      | some known => known.sort = sort
      | none => ∃ bits, sort.searchBits = .ok bits) :
    Succeeds (matchSymbol name sort) d fun _ _ => True := by
  rw [matchSymbol]
  refine succeeds_get ?_
  cases found : d.session.symbols[name]? with
  | some known =>
    rw [found] at accepts
    dsimp only at accepts ⊢
    rw [LogicSort.expectSame_eq_ok_iff.mpr accepts]
    exact ⟨known, d, rfl, trivial⟩
  | none =>
    rw [found] at accepts
    obtain ⟨bits, counted⟩ := accepts
    dsimp only
    rw [Succeeds, bind_ok (declareSorts_countable sort counted d)]
    exact makeSymbol_succeeds coherent tidy found (.inr ⟨bits, counted⟩)

theorem Tidy.accepts (tidy : d.Tidy) (coherent : d.Coherent Enumerator.contract)
    (hu : d.session.Has u) (shape : u.shape = t.shape) : d.Accepts t := by
  obtain ⟨-, sort, kind, -⟩ := Term.shape_eq_iff.mp shape
  unfold Accepts
  rw [← kind, ← sort]
  cases own : u.kind with
  | symbol name =>
    have found := (coherent.canonical.symbols name u).mpr ⟨hu, own⟩
    simp [found]
  | value l => exact (tidy.value coherent hu own).2.2
  | constArray => exact tidy.constArray coherent hu own
  | application => trivial

/-- The counterpart of a node is made where it is accepted. -/
theorem translate_succeeds (coherent : d.Coherent Enumerator.contract) (tidy : d.Tidy)
    (movable : t.Movable) (known : ∀ u ∈ news, d.session.Has u)
    (shapes : news.map Term.shape = t.children.map Term.shape) (accepts : d.Accepts t) :
    Succeeds (translate t news) d fun _ _ => True := by
  unfold Term.Movable at movable
  unfold Accepts at accepts
  unfold translate
  split
  · rename_i name kind
    rw [kind] at accepts
    exact matchSymbol_succeeds coherent tidy accepts
  · rename_i l kind
    rw [kind] at movable accepts
    exact makeValue_succeeds movable.2.1 movable.2.2 accepts
  · rename_i fill rest kind
    rw [kind] at movable accepts
    obtain ⟨op, fill', index, children, sort⟩ := movable
    have fits : fill.sort = fill'.sort := by
      rw [children] at shapes
      simpa using congrArg List.head? (Term.sorts_of_shapes shapes)
    rw [sort, ← fits] at accepts ⊢
    exact makeConstArray_succeeds coherent (known fill List.mem_cons_self) accepts
  · rename_i kind
    rw [kind] at movable
    obtain ⟨-, fill, index, children, -⟩ := movable
    rw [children] at shapes
    cases shapes
  · rename_i kind
    rw [kind, ← Term.sorts_of_shapes shapes] at movable
    exact (makeTerm_succeeds coherent known movable).mono fun _ _ _ => trivial

end Complete

end Solver

end FormulaGraph
