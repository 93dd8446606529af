import FormulaGraph.Proofs.Solver.Changes
import FormulaGraph.Scripted

/-!
A request to make something that fails leaves nothing behind that shows, whatever the engine does
and wherever it fails. Up to there it has made quiet changes only: what may be left are engine's
sorts that were made on the way and derivations that are remembered, and they are what would be
made, and derived, again.
-/

namespace FormulaGraph

/-- The requests that make a sort or a term, or end the session. -/
def Request.Constructs : Request → Prop
  | .command (.makeSort _) | .command (.makeBitVecSort _) | .command (.makeArraySort _ _)
  | .command (.makeFunctionSort _ _) | .command (.makeUninterpretedSort _ _)
  | .command (.makeDatatypeSort _) | .command (.makeValue _ _) | .command (.makeConstArray _ _)
  | .command (.makeSymbol _ _) | .command (.makeTerm _ _) | .command
    .reset | .makeBool _ | .makeInt _ _
  | .parseValue _ _ _ => True
  | _ => False

namespace Solver

open FormulaGraph.Action

variable {σ S T α β : Type} [BEq T] [Hashable T] {s s' s'' : Solver σ S T}

/-- Nothing of the first state shows to be different in the second. There may be further sorts of
the engine's, none of them declared, and other derivations remembered. -/
structure Unmoved (s s' : Solver σ S T) : Prop where
  number : s'.session.number = s.session.number
  supply : s'.session.supply = s.session.supply
  table : s'.session.table = s.session.table
  natives : s'.session.natives = s.session.natives
  declared : s'.session.declared = s.session.declared
  symbols : s'.session.symbols = s.session.symbols
  assumptions : s'.session.assumptions = s.session.assumptions
  sorts : ∀ (sort : LogicSort) (made : S),
    s.session.sorts[sort]? = some made → s'.session.sorts[sort]? = some made
  constructed : ∀ sort : LogicSort,
    sort ∈ s'.session.sorts → sort ∈ s.session.sorts ∨ sort.Constructed
  aliasing : s'.session.arbiter.aliasing = s.session.arbiter.aliasing
  memo : ∀ (op : Op) (args : List LogicSort) (sort : Option LogicSort),
    s'.session.arbiter.memo[(op, args)]? = some sort →
      s.session.arbiter.memo[(op, args)]? = some sort ∨ op.resultSort args = .ok sort

namespace Unmoved

theorem refl (s : Solver σ S T) : Unmoved s s :=
  ⟨rfl, rfl, rfl, rfl, rfl, rfl, rfl, fun _ _ h => h, fun _ h => .inl h, rfl, fun _ _ _ h => .inl h⟩

theorem change (unmoved : Unmoved s s') (change : QuietChange s' s'') : Unmoved s s'' := by
  cases change with
  | called => exact { unmoved with }
  | @sortUsed sort absent constructed parts made =>
    refine { unmoved with sorts := fun sort' made' found => ?_, constructed :=
      fun sort' used => ?_ }
    · have found' := unmoved.sorts sort' made' found
      have other : (sort == sort') = false := by
        rw [beq_eq_false_iff_ne]
        rintro rfl
        exact absent (Std.HashMap.isSome_getElem?_iff_mem.mp (by rw [found']; rfl))
      rw [Std.HashMap.getElem?_insert, other]
      exact found'
    · cases Std.HashMap.mem_insert.mp used with
      | inl same => exact .inr (eq_of_beq same ▸ constructed)
      | inr used => exact unmoved.constructed sort' used
  | derived derives =>
    refine { unmoved with
      aliasing := unmoved.aliasing
      memo := fun op' args' sort' found => ?_ }
    obtain ⟨same, rfl⟩ | ⟨-, found⟩ := SortArbiter.found_remember found
    · cases same
      exact .inr derives
    · exact unmoved.memo op' args' sort' found

/-- A declared sort is there just if it was: sorts that were made on the way are none. -/
theorem hasSort (unmoved : Unmoved s s') (sort : LogicSort) :
    s'.session.hasSort sort = s.session.hasSort sort := by
  have declared : ¬ sort.Constructed →
      s'.session.sorts.contains sort = s.session.sorts.contains sort := by
    intro abstract
    rw [Bool.eq_iff_iff, Std.HashMap.contains_iff_mem, Std.HashMap.contains_iff_mem]
    constructor
    · exact fun used => (unmoved.constructed sort used).resolve_right abstract
    · intro used
      obtain ⟨made, found⟩ :=
        Option.isSome_iff_exists.mp (Std.HashMap.isSome_getElem?_iff_mem.mpr used)
      rw [← Std.HashMap.isSome_getElem?_iff_mem, unmoved.sorts sort made found]
      rfl
  unfold Session.hasSort
  split
  · exact declared id
  · exact declared id
  · rfl

end Unmoved

theorem QuietChanges.unmoved (quietly : QuietChanges s s') : Unmoved s s' := by
  induction quietly with
  | refl => exact .refl s
  | tail _ change unmoved => exact unmoved.change change

/-- Where the action fails, it has made quiet changes only. -/
def FailsQuietly (act : Action (Solver σ S T) α) : Prop :=
  ∀ s e s', act s = .error e s' → QuietChanges s s'

section Rules

variable {act : Action (Solver σ S T) α} {next : α → Action (Solver σ S T) β}
  {post : Solver σ S T → α → Solver σ S T → Prop}

theorem failsQuietly_of_quiet (quiet : ∀ s, Quiet act s (post s)) : FailsQuietly act :=
  fun s _ _ failed => ((quiet s).failure failed).1

theorem failsQuietly_of_ok (answers : ∀ s, ∃ a s', act s = .ok a s') : FailsQuietly act := by
  intro s e s' failed
  obtain ⟨a, s'', answered⟩ := answers s
  cases answered.symm.trans failed

theorem failsQuietly_after (first : ∀ s, Quiet act s (post s)) (rest : ∀ a, FailsQuietly (next a)) :
    FailsQuietly (act >>= next) := by
  intro s e s'' failed
  cases h : act s with
  | ok a s' =>
    rw [bind_ok h] at failed
    exact ((first s).answer h).1.trans (rest a s' e s'' failed)
  | error e' s' =>
    cases (bind_error h).symm.trans failed
    exact ((first s).failure h).1

theorem FailsQuietly.followed (fails : FailsQuietly act)
    (answers : ∀ a s, ∃ b s', next a s = .ok b s') :
    FailsQuietly (act >>= next) := by
  intro s e s'' failed
  cases h : act s with
  | ok a s' =>
    rw [bind_ok h] at failed
    obtain ⟨b, s₁, answered⟩ := answers a s'
    cases answered.symm.trans failed
  | error e' s' =>
    cases (bind_error h).symm.trans failed
    exact fails s _ _ h

theorem FailsQuietly.map {f : α → β} (fails : FailsQuietly act) : FailsQuietly (f <$> act) := by
  intro s e s' failed
  cases h : act s with
  | ok a s'' => cases (map_ok h).symm.trans failed
  | error e s'' =>
    cases (map_error h).symm.trans failed
    exact fails s _ _ h

theorem failsQuietly_get {next : Solver σ S T → Action (Solver σ S T) α}
    (fails : ∀ s, FailsQuietly (next s)) : FailsQuietly (get >>= next) :=
  fun s => fails s s

theorem failsQuietly_throw (e : Error) : FailsQuietly (throw e : Action (Solver σ S T) α) := by
  intro s e' s' failed
  cases failed
  exact .refl

theorem failsQuietly_guard {c : Prop} [Decidable c] {e : Error}
    {next : PUnit → Action (Solver σ S T) α}
    (passed : FailsQuietly (next ⟨⟩)) : FailsQuietly (if c then throw e >>= next else next ⟨⟩) := by
  split
  · exact failsQuietly_throw e
  · exact passed

end Rules

variable [Engine σ S T]

/-- The name is taken only after the engine has made the sort. -/
theorem failsQuietly_declare (name : String) (sort : LogicSort) (make : Action σ S) :
    FailsQuietly (declare name sort make : Action (Solver σ S T) LogicSort) :=
  failsQuietly_get fun _ => failsQuietly_guard <|
    failsQuietly_after (quiet_onEngine make) fun _ => failsQuietly_of_ok fun _ => ⟨_, _, rfl⟩

theorem failsQuietly_makeDatatypeSort (decl : DatatypeDecl) :
    FailsQuietly (makeDatatypeSort decl : Action (Solver σ S T) LogicSort) := by
  unfold makeDatatypeSort
  split
  · exact failsQuietly_throw _
  · exact failsQuietly_declare _ _ _

theorem failsQuietly_makeValue (l : Literal) (sort : LogicSort) :
    FailsQuietly (makeValue l sort : Action (Solver σ S T) Term) := by
  unfold makeValue
  refine failsQuietly_guard <| failsQuietly_after (quiet_ofExcept _) fun _ => ?_
  refine failsQuietly_after (quiet_nativeSort sort) fun _ => ?_
  exact failsQuietly_after (quiet_onEngine _) fun _ => failsQuietly_of_ok fun _ => ⟨_, _, rfl⟩

theorem failsQuietly_makeInt (i : Int64) (sort : LogicSort) :
    FailsQuietly (makeInt i sort : Action (Solver σ S T) Term) := by
  unfold makeInt
  split
  · exact failsQuietly_makeValue _ _
  · exact failsQuietly_makeValue _ _
  · exact failsQuietly_makeValue _ _
  · exact failsQuietly_throw _

theorem failsQuietly_makeConstArray (fill : Term) (sort : LogicSort) :
    FailsQuietly (makeConstArray fill sort : Action (Solver σ S T) Term) := by
  refine failsQuietly_after (quiet_ofExcept _) fun _ =>
    failsQuietly_after (quiet_ofExcept _) fun _ => ?_
  refine failsQuietly_after (quiet_ask _) fun _ =>
    failsQuietly_after (quiet_nativeSort sort) fun _ => ?_
  exact failsQuietly_after (quiet_onEngine _) fun _ => failsQuietly_of_ok fun _ => ⟨_, _, rfl⟩

theorem failsQuietly_makeSymbol (name : String) (sort : LogicSort) :
    FailsQuietly (makeSymbol name sort : Action (Solver σ S T) Term) := by
  refine failsQuietly_get fun _ => failsQuietly_guard ?_
  refine failsQuietly_after (quiet_nativeSort sort) fun _ => ?_
  exact failsQuietly_after (quiet_onEngine _) fun _ => failsQuietly_of_ok fun _ => ⟨_, _, rfl⟩

theorem failsQuietly_makeTerm (op : Op) (args : List Term) :
    FailsQuietly (makeTerm op args : Action (Solver σ S T) Term) := by
  refine failsQuietly_after (quiet_natives args) fun _ =>
    failsQuietly_after (quiet_derive op _) fun _ => ?_
  refine failsQuietly_after (quiet_onEngine _) fun _ =>
    failsQuietly_after (quiet_onEngine _) fun _ => ?_
  exact failsQuietly_of_ok fun _ => ⟨_, _, rfl⟩

theorem failsQuietly_reset : FailsQuietly (reset : Action (Solver σ S T) Unit) :=
  failsQuietly_after (quiet_onEngine _) fun _ => failsQuietly_of_ok fun _ => ⟨_, _, rfl⟩

theorem failsQuietly_perform {q : Request} (constructs : q.Constructs) :
    FailsQuietly (q.perform : Action (Solver σ S T) (Answer LogicSort Term)) := by
  cases q with
  | makeBool b => exact (failsQuietly_makeValue _ _).map
  | makeInt i sort => exact (failsQuietly_makeInt i sort).map
  | parseValue repr sort base =>
    exact (failsQuietly_after (quiet_ofExcept _) fun l => failsQuietly_makeValue l sort).map
  | getSymbol | substitute | substituteTerms | transfer => exact constructs.elim
  | command c =>
    cases c with
    | makeSort kind => exact (failsQuietly_of_quiet (quiet_makeSort kind)).map
    | makeBitVecSort width => exact (failsQuietly_of_quiet (quiet_makeBitVecSort width)).map
    | makeArraySort index element =>
      exact (failsQuietly_of_quiet (quiet_withNative (.array index element))).map
    | makeFunctionSort domain range =>
      exact (failsQuietly_of_quiet (quiet_makeFunctionSort domain range)).map
    | makeUninterpretedSort name arity => exact (failsQuietly_declare name _ _).map
    | makeDatatypeSort decl => exact (failsQuietly_makeDatatypeSort decl).map
    | makeValue l sort => exact (failsQuietly_makeValue l sort).map
    | makeConstArray fill sort => exact (failsQuietly_makeConstArray fill sort).map
    | makeSymbol name sort => exact (failsQuietly_makeSymbol name sort).map
    | makeTerm op args => exact (failsQuietly_makeTerm op args).map
    | reset => exact failsQuietly_reset.followed fun _ _ => ⟨_, _, rfl⟩
    | _ => exact constructs.elim

/-- A request to make a sort or a term, or to reset, that fails has no effect that shows, on
whatever engine and wherever that has failed: terms, symbols, declarations and assumptions are the
same, and whatever is asked of the session is answered alike. Only sorts of the engine's that were
not declared, and derivations, may have come to be known. -/
theorem failed_request_unobservable {q : Request} {e : Error} (constructs : q.Constructs)
    (failed : q.perform s = .error e s') :
    Unmoved s s' ∧ (∀ sort, s'.session.hasSort sort = s.session.hasSort sort) ∧
      (∀ name, (getSymbol name : Action (Solver σ S T) Term).outcome s' =
        (getSymbol name).outcome s) ∧ s'.termCount = s.termCount := by
  have unmoved := (failsQuietly_perform constructs s e s' failed).unmoved
  refine ⟨unmoved, unmoved.hasSort, fun name => ?_, ?_⟩
  · have same : s'.session.symbol name = s.session.symbol name := by
      rw [Session.symbol, Session.symbol, unmoved.symbols]
    rw [outcome, outcome, getSymbol, ask, ask, same]
    cases s.session.symbol name <;> rfl
  · rw [termCount, termCount, unmoved.table]

/-- A symbol that the engine refuses, after it has made the sort. -/
theorem failed_request_unobservable_symbol :
    ∃ (s s' : Solver ScriptedEngine LogicSort ScriptedTerm) (e : Error), Run (fun _ => True) s [] ∧
      (Request.command (.makeSymbol "x" .bool)).perform s = .error e s' ∧
        LogicSort.bool ∉ s.session.sorts ∧ LogicSort.bool ∈ s'.session.sorts ∧ Unmoved s s' := by
  let script : Script := { name := "e", failures := [("make_symbol", "down")] }
  let s : Solver ScriptedEngine LogicSort ScriptedTerm := Solver.new { script } {}
  have unknown : s.session.sorts[LogicSort.bool]? = none := by simp [s, Solver.new]
  have unused : s.session.symbols.contains "x" = false := by simp [s, Solver.new]
  have sorted : Succeeds (nativeSort .bool) s fun _ s₁ =>
      s₁.engine.script = script ∧ LogicSort.bool ∈ s₁.session.sorts := by
    rw [nativeSort]
    refine succeeds_get ?_
    rw [unknown]
    exact ⟨.bool, _, rfl, rfl, Std.HashMap.mem_insert_self⟩
  obtain ⟨made, ⟨⟨script₁, nodes, calls⟩, session₁⟩, run, same, used⟩ := sorted
  obtain rfl : script₁ = script := same
  have refused : ∃ calls',
      (onEngine (Engine.makeSymbol "x" made) :
        Action (Solver ScriptedEngine LogicSort ScriptedTerm) _)
          ⟨⟨script, nodes, calls⟩, session₁⟩ =
        .error (.engine "e" "down") ⟨⟨script, nodes, calls'⟩, session₁⟩ := ⟨_, rfl⟩
  obtain ⟨calls', refused⟩ := refused
  have failed : makeSymbol "x" .bool s =
      .error (.engine "e" "down") ⟨⟨script, nodes, calls'⟩, session₁⟩ := by
    rw [makeSymbol]
    show (if s.session.symbols.contains "x" then _ else _ : Action _ _) s = _
    rw [unused, if_neg Bool.false_ne_true, bind_ok run, bind_error refused]
  refine ⟨s, _, _, .new trivial {}, map_error failed, ?_, used, ?_⟩
  · rw [← Std.HashMap.isSome_getElem?_iff_mem, unknown]
    exact Bool.false_ne_true
  · exact (failed_request_unobservable (q := .command (.makeSymbol "x" .bool)) trivial
      (map_error failed)).1

end Solver

end FormulaGraph
