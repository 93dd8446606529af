import FormulaGraph.Proofs.Solver.Assertions
import FormulaGraph.Proofs.Solver.Translation

/-!
Histories made to order. A session that has no terms but those that it has answered goes on with one
more symbol, literal, constant array, application or assertion, and is such a session again.
-/

namespace FormulaGraph.Solver

open FormulaGraph.Action

variable {start : Enumerator → Prop} {s s' : Solver Enumerator LogicSort Handle} {t fill : Term}
  {issued : List Term} {scopes : List (List Term)} {sort : LogicSort}

/-- A history of which the session has no terms but those that were answered. -/
structure Scene (start : Enumerator → Prop) (s : Solver Enumerator LogicSort Handle)
    (issued : List Term)
    (scopes : List (List Term)) : Prop where
  history : History start s issued scopes
  unused : History Enumerator.Unused s issued scopes
  listed : ∀ t, s.session.Has t → t ∈ issued

/-- The request is answered by a term, after which the session has that term besides those that it
had. -/
def Makes (start : Enumerator → Prop) (s : Solver Enumerator LogicSort Handle) (issued : List Term)
    (scopes : List (List Term)) (q : Request) (post : Term → Prop) : Prop :=
  ∃ t s', q.perform s = .ok (.term t) s' ∧ Kept Enumerator.contract s s' ∧ s'.session.Has t ∧
    Scene start s' (issued ++ [t]) scopes ∧ post t

namespace Scene

theorem new {e : Enumerator} (starts : start e) (unused : e.Unused) (supply : Supply)
    (evicts : Eviction := .never) : Scene start (Solver.new e supply evicts) [] [[]] where
  history := .new starts supply evicts
  unused := .new unused supply evicts
  listed t has := by simp [Session.Has, Solver.new, TermTable.find?] at has

variable (scene : Scene start s issued scopes)

include scene

theorem coherent : s.Coherent Enumerator.contract :=
  (scene.unused.fresh.coherent Enumerator.contract_honoured).1

theorem tidy : s.Tidy := scene.unused.asserted.1

theorem symbol_unknown {name : String} (other : ∀ t ∈ issued, t.kind ≠ .symbol name) :
    s.session.symbols[name]? = none := by
  cases found : s.session.symbols[name]? with
  | none => rfl
  | some t =>
    obtain ⟨has, kind⟩ := (scene.coherent.canonical.symbols name t).mp found
    exact absurd kind (other t (scene.listed t has))

/-- Whatever makes a term and nothing else leads to the next such session. -/
theorem makes {q : Request} {act : Action (Solver Enumerator LogicSort Handle) Term}
    {post : Term → Prop}
    (performs : q.perform s = (.term <$> act : Action _ (Answer LogicSort Term)) s)
    (terms : ∀ t ∈ q.terms, s.session.Has t) (asserts : q.asserts scopes = scopes)
    (made : Succeeds act s fun t s' =>
      Kept Enumerator.contract s s' ∧ (s'.session.Has t ∧ post t) ∧ Frugal s t s') :
    Makes start s issued scopes q post := by
  obtain ⟨t, s', run, kept, ⟨has, holds⟩, frugal⟩ := made
  have done : q.perform s = .ok (.term t) s' := performs.trans (map_ok run)
  have available : ∀ u ∈ q.terms, s.Available issued u :=
    fun u hu _ below _ => ⟨u, scene.listed u (terms u hu), below⟩
  have history := scene.history.answer q available done kept.extension.number
  have unused := scene.unused.answer q available done kept.extension.number
  rw [asserts] at history unused
  refine ⟨t, s', done, kept, has, ⟨history, unused, fun u hu => ?_⟩, holds⟩
  exact List.mem_append.mpr ((frugal.only u hu).imp (scene.listed u) List.mem_singleton.mpr)

theorem symbol (name : String) (sort : LogicSort) (counted : ∃ bits, sort.searchBits = .ok bits)
    (other : ∀ t ∈ issued, t.kind ≠ .symbol name) :
    Makes start s issued scopes (.command (.makeSymbol name sort)) fun t =>
      t.op = .null ∧ t.sort = sort ∧ t.kind = .symbol name ∧ t.children = [] := by
  refine scene.makes rfl (fun _ hu => absurd hu List.not_mem_nil) rfl ?_
  have made := (keeps_symbol Enumerator.contract_honoured scene.coherent name sort).and
    (makeSymbol_succeeds scene.coherent scene.tidy (scene.symbol_unknown other) (.inr counted))
  exact made.mono fun t s' ⟨kept, ⟨has, structure_eq, frugal⟩, _⟩ =>
    ⟨kept, ⟨has, structure_eq⟩, frugal⟩

theorem literal (l : Literal) (sort : LogicSort) {l' : Literal} (fits : l.fits sort = true)
    (normal : l.normalize sort = .ok l') (counted : ∃ bits, sort.searchBits = .ok bits) :
    Makes start s issued scopes (.command (.makeValue l sort)) fun t =>
      t.op = .null ∧ t.sort = sort ∧ t.kind = .value l' ∧ t.children = [] := by
  refine scene.makes rfl (fun _ hu => absurd hu List.not_mem_nil) rfl ?_
  have made := (keeps_literal Enumerator.contract_honoured scene.coherent l sort).and
    ((makeValue_succeeds_iff fits normal).mpr (nativeSort_succeeds (.inr counted)))
  refine made.mono ?_
  rintro t s' ⟨kept, ⟨has, sort_eq, ⟨l', normal', kind⟩, frugal⟩, -⟩
  cases normal.symm.trans normal'
  have formed := kept.coherent.canonical.formed t has
  rw [Term.Formed, kind] at formed
  exact ⟨kept, ⟨has, formed.1, sort_eq, kind, formed.2⟩, frugal⟩

theorem constArray (index : LogicSort) (has : s.session.Has fill)
    (counted : ∃ bits, (LogicSort.array index fill.sort).searchBits = .ok bits) :
    Makes start s issued scopes (.command (.makeConstArray fill (.array index fill.sort))) fun t =>
      t.op = .null ∧ t.sort = .array index fill.sort ∧ t.kind = .constArray ∧
        t.children = [fill] := by
  refine scene.makes rfl (List.forall_mem_singleton.mpr has) rfl ?_
  have genuine := scene.coherent.canonical.toInterned.genuine has
  have made :=
    (keeps_constArray Enumerator.contract_honoured scene.coherent genuine
      (.array index fill.sort)).and
    (makeConstArray_succeeds scene.coherent has (.inr counted))
  exact made.mono fun t s' ⟨kept, ⟨has, structure_eq, frugal⟩, _⟩ =>
    ⟨kept, ⟨has, structure_eq⟩, frugal⟩

theorem application (op : Op) {args : List Term} (known : ∀ a ∈ args, s.session.Has a)
    (derived : op.resultSort (args.map Term.sort) = .ok (some sort)) :
    Makes start s issued scopes (.command (.makeTerm op args)) fun t =>
      t.op = op ∧ t.sort = sort ∧ t.kind = .application ∧ t.children = args := by
  refine scene.makes rfl known rfl ?_
  have genuine := fun a ha => scene.coherent.canonical.toInterned.genuine (known a ha)
  have made := (keeps_application Enumerator.contract_honoured scene.coherent op genuine).and
    (makeTerm_succeeds scene.coherent known derived)
  exact made.mono fun t s' ⟨kept, ⟨_, _, _, _, frugal⟩, _, has, structure_eq⟩ =>
    ⟨kept, ⟨has, structure_eq⟩, frugal⟩

theorem negation {x : Term} (has : s.session.Has x) (sort : x.sort = .bool) :
    Makes start s issued scopes (.command (.makeTerm PrimOp.not [x])) fun t =>
      t.op = PrimOp.not ∧ t.sort = .bool ∧ t.kind = .application ∧ t.children = [x] := by
  refine scene.application _ (List.forall_mem_singleton.mpr has) ?_
  rw [List.map_singleton, sort]
  rfl

theorem after {q : Request} {answer : Answer LogicSort Term}
    (terms : ∀ t ∈ q.terms, s.session.Has t)
    (done : q.perform s = .ok answer s') (none : answer.given = [])
    (same : s'.session = s.session) :
    Scene start s' issued (q.asserts scopes) := by
  have available : ∀ u ∈ q.terms, s.Available issued u :=
    fun u hu _ below _ => ⟨u, scene.listed u (terms u hu), below⟩
  have lasts := congrArg Session.number same
  have history := scene.history.answer q available done lasts
  have unused := scene.unused.answer q available done lasts
  rw [none, List.append_nil] at history unused
  exact ⟨history, unused, same ▸ scene.listed⟩

omit scene in
theorem asserted {current : List Term} {outer : List (List Term)}
    (scene : Scene start s issued (current :: outer)) (has : s.session.Has t)
    (sort : t.sort = .bool) :
    ∃ s', (Request.command (.assertFormula t)).perform s = .ok .done s' ∧ s'.session = s.session ∧
      Scene start s' issued ((current ++ [t]) :: outer) := by
  obtain ⟨n, asked, asserts⟩ := assertFormula_succeeds scene.coherent has sort
  have done : (Request.command (.assertFormula t)).perform s = .ok .done _ := bind_ok asserts
  have terms : ∀ u ∈ (Request.command (.assertFormula t)).terms, s.session.Has u :=
    List.forall_mem_singleton.mpr has
  exact ⟨_, done, rfl, scene.after terms done rfl rfl⟩

end Scene

/-- A session that has made two symbols. -/
theorem scene_symbols {e : Enumerator} (starts : start e) (unused : e.Unused) (supply : Supply) :
    ∃ (s : Solver Enumerator LogicSort Handle) (x y : Term), Scene start s [x, y] [[]] ∧
      (s.session.Has x ∧ x.sort = .bool ∧ x.kind = .symbol "x" ∧ x.children = []) ∧
      s.session.Has y ∧ y.sort = .bool ∧ y.kind = .symbol "y" ∧ y.children = [] := by
  have new : Scene start (Solver.new e supply) [] [[]] := .new starts unused supply
  obtain ⟨x, s₁, -, -, hx, scene, -, sort, kind, leaf⟩ := new.symbol "x" .bool ⟨1, rfl⟩ (by simp)
  obtain ⟨y, s₂, -, kept, hy, scene, -, made⟩ := scene.symbol "y" .bool ⟨1, rfl⟩ (by simp [kind])
  exact ⟨s₂, x, y, scene, ⟨kept.extension.has x hx, sort, kind, leaf⟩, hy, made⟩

/-- A session that has made the negation of a symbol. -/
theorem scene_negation {e : Enumerator} (starts : start e) (unused : e.Unused) (supply : Supply) :
    ∃ (s : Solver Enumerator LogicSort Handle) (x t : Term),
      Scene start s [x, t] [[]] ∧ s.session.number = supply.nextSession ∧
        (s.session.Has x ∧ x.sort = .bool ∧ x.kind = .symbol "x" ∧ x.children = []) ∧
        s.session.Has t ∧ t.op = PrimOp.not ∧ t.sort = .bool ∧ t.kind = .application ∧
        t.children = [x] := by
  have new : Scene start (Solver.new e supply) [] [[]] := .new starts unused supply
  obtain ⟨x, s₁, -, kept₁, hx, scene₁, -, sort, kind, leaf⟩ :=
    new.symbol "x" .bool ⟨1, rfl⟩ (fun _ hu => absurd hu List.not_mem_nil)
  obtain ⟨t, s₂, -, kept₂, ht, scene₂, negation⟩ := scene₁.negation hx sort
  have number := kept₂.extension.number.trans kept₁.extension.number
  exact ⟨s₂, x, t, scene₂, number, ⟨kept₂.extension.has x hx, sort, kind, leaf⟩, ht, negation⟩

theorem run_negation (supply : Supply) : ∃ (s : Solver Enumerator LogicSort Handle) (x t : Term),
    Run Enumerator.Unused s [x, t] ∧ s.session.number = supply.nextSession ∧
      (s.session.Has x ∧ x.sort = .bool ∧ x.kind = .symbol "x" ∧ x.children = []) ∧
      s.session.Has t ∧ t.op = PrimOp.not ∧ t.sort = .bool ∧ t.kind = .application ∧
      t.children = [x] := by
  have unused := Enumerator.unused_new "m"
  obtain ⟨s, x, t, scene, made⟩ := scene_negation unused unused supply
  exact ⟨s, x, t, scene.history.run, made⟩

end FormulaGraph.Solver
