import FormulaGraph.Proofs.Solver.NativeSorts

/-!
What a session does about a sort: it hands the engine what is on record, and asks for what is not. A
sort that could not be made is not on record, so that its next use asks for it again, by the same
command; but declared sorts are asked for by their declarations only.
-/

namespace FormulaGraph.Solver

open FormulaGraph.Action

variable {σ S T α : Type} [BEq T] [Hashable T] [Engine σ S T] {start : σ → Prop}
    {s s' : Solver σ S T}
  {sort : LogicSort} {command : Command (LogicSort × S) T}

/-- The action asks the engine for the sort by this command, which hands it what is on record. If
the engine answers, the sort is put on record; otherwise the action fails as the engine does, and
leaves the record as it was. -/
structure Attempts (s : Solver σ S T) (act : Action (Solver σ S T) α)
    (command : Command (LogicSort × S) T) (sort : LogicSort) : Prop where
  makes : (command.mapSorts Prod.fst).makes? = some sort
  handed : ∀ p ∈ command.handed, s.session.sorts[p.1]? = some p.2
  answered : ∀ made e, Engine.perform (command.mapSorts Prod.snd) s.engine = .ok (.sort made) e →
    Succeeds act s fun _ s' => s'.engine = (Engine.takeNotices e).2 ∧
      s'.session.sorts = s.session.sorts.insert sort made
  failed : ∀ x e, Engine.perform (command.mapSorts Prod.snd) s.engine = .error x e →
    ∃ s', act s = .error x s' ∧ s'.engine = (Engine.takeNotices e).2 ∧
      s'.session.sorts = s.session.sorts

theorem attempts_creation {act : Action (Solver σ S T) α} {make : Action σ S}
    (change : S → Session S T → Session S T) (value : S → α)
    (makes : (command.mapSorts Prod.fst).makes? = some sort)
    (handed : ∀ p ∈ command.handed, s.session.sorts[p.1]? = some p.2)
    (performs : Engine.perform (command.mapSorts Prod.snd) = .sort <$> make)
    (sorts : ∀ made session, (change made session).sorts = session.sorts.insert sort made)
    (run : act s = (do
      let made ← onEngine make
      record (change made)
      return value made : Action (Solver σ S T) α) s) :
    Attempts s act command sort where
  makes := makes
  handed := handed
  answered made e done := by
    rw [performs] at done
    obtain ⟨made, called, ⟨⟩⟩ := of_map_ok done
    obtain ⟨notices, answered⟩ := onEngine_of_ok called
    exact ⟨_, _, run.trans (bind_ok answered), rfl, sorts made _⟩
  failed x e failed := by
    rw [performs] at failed
    obtain ⟨notices, refused⟩ := onEngine_of_error (of_map_error failed)
    exact ⟨_, run.trans (bind_error refused), rfl, rfl⟩

/-- A sort that is not on record, while all that it is made of is, is asked for at its next use. -/
theorem attempts_nativeSort (makes : (command.mapSorts Prod.fst).makes? = some sort)
    (handed : ∀ p ∈ command.handed, s.session.sorts[p.1]? = some p.2)
    (constructed : sort.Constructed)
    (absent : sort ∉ s.session.sorts) : Attempts s (nativeSort sort) command sort := by
  obtain ⟨make, use, run⟩ := exists_firstUse makes handed constructed absent
  exact attempts_creation
    (fun made session => { session with sorts := session.sorts.insert sort made }) id makes handed
    use.performs (fun _ _ => rfl) run

section Declarations

/-- The action declares the sort under the name, by this command. -/
inductive Declares : Action (Solver σ S T) LogicSort → Command (LogicSort × S) T →
    LogicSort → String → Prop
  | uninterpreted (name : String) (arity : UInt64) : Declares (makeUninterpretedSort name arity)
      (.makeUninterpretedSort name arity) (.uninterpreted name arity) name
  | datatype {decl : DatatypeDecl} (final : decl.isFinalized = true) :
      Declares (makeDatatypeSort decl) (.makeDatatypeSort decl) (.datatype decl.name) decl.name

variable {act : Action (Solver σ S T) LogicSort} {name : String}

theorem Declares.run (declares : Declares act command sort name) : ∃ make : Action σ S,
    act = declare name sort make ∧ (command.mapSorts Prod.fst).makes? = some sort ∧
      command.handed = [] ∧ Engine.perform (command.mapSorts Prod.snd) = .sort <$> make := by
  cases declares with
  | uninterpreted name arity => exact ⟨_, rfl, rfl, rfl, rfl⟩
  | @datatype decl final =>
    refine ⟨_, ?_, rfl, rfl, rfl⟩
    rw [makeDatatypeSort, final]
    rfl

theorem Declares.attempts (declares : Declares act command sort name)
    (new : name ∉ s.session.declared) :
    Attempts s act command sort := by
  obtain ⟨make, rfl, makes, handed, performs⟩ := declares.run
  refine attempts_creation (fun made session => { session with
      declared := session.declared.insert name
      sorts := session.sorts.insert sort made }) (fun _ => sort) makes ?_
        performs (fun _ _ => rfl) ?_
  · rw [handed]
    exact List.forall_mem_nil _
  · exact declare_new (Std.HashSet.contains_eq_false_iff_not_mem.mpr new) sort make

theorem Declares.refused (declares : Declares act command sort name)
    (taken : name ∈ s.session.declared) :
    act s = .error (.duplicate .sort name) s := by
  obtain ⟨make, rfl, -⟩ := declares.run
  exact declare_taken (Std.HashSet.contains_iff_mem.mpr taken) sort make

theorem nativeSort_undeclared (declared : sort.Declared) (absent : sort ∉ s.session.sorts) :
    nativeSort sort s = .error (.usage (.undeclaredSort sort)) s := by
  have unknown : s.session.sorts[sort]? = none := Std.HashMap.getElem?_eq_none absent
  cases sort with
  | uninterpreted | datatype =>
    rw [nativeSort, get_then, unknown]
    rfl
  | _ => exact declared.elim

end Declarations

section Uses

/-- The request, whose other arguments are in order, is to hand the engine the sort by a command. -/
inductive Uses (s : Solver σ S T) :
    Action (Solver σ S T) Term → LogicSort → (S → Command S T) → Prop
  | value {l l' : Literal} {sort : LogicSort} (fits : l.fits sort = true)
      (normal : l.normalize sort = .ok l') :
      Uses s (makeValue l sort) sort (.makeValue l')
  | constArray {fill : Term} {n : T} {index element : LogicSort}
      (agrees : element.expectSame fill.sort = .ok ())
      (native : s.session.native fill = .ok n) :
      Uses s (makeConstArray fill (.array index element)) (.array index element) (.makeConstArray n)
  | symbol {name : String} {sort : LogicSort} (new : s.session.symbols.contains name = false) :
      Uses s (makeSymbol name sort) sort (.makeSymbol name)

/-- The request has the sort on record first, or fails as that fails; then it calls the engine once,
by the command with the handle on record. -/
structure Hands (s : Solver σ S T) (act : Action (Solver σ S T) Term) (sort : LogicSort)
    (c : S → Command S T) : Prop where
  answered : ∀ made s₁, nativeSort sort s = .ok made s₁ → s₁.session.sorts[sort]? = some made ∧
    (act.finalState s).engine =
      (Engine.takeNotices
        ((Engine.perform (c made) : Action σ (Answer S T)).finalState s₁.engine)).2
  failed : ∀ x s₁, nativeSort sort s = .error x s₁ → act s = .error x s₁

theorem hands_of_run {act : Action (Solver σ S T) Term} {make : S → Action σ T}
    {c : S → Command S T}
    (rest : T → Action (Solver σ S T) Term)
    (performs : ∀ made, Engine.perform (c made) = .term <$> make made)
    (aside : ∀ n s', ((rest n).finalState s').engine = s'.engine)
    (run : act s = (do
      let made ← nativeSort sort
      let n ← onEngine (make made)
      rest n : Action (Solver σ S T) Term) s) : Hands s act sort c where
  answered made s₁ done := by
    have provided : Booked (fun _ => False) (nativeSort sort) s (Provided s sort) :=
      booked_nativeSort sort s
    refine ⟨(provided.answer done).2.recorded, ?_⟩
    obtain ⟨notices, after⟩ := exists_finalState_onEngine (make made) s₁
    rw [finalState_congr (run.trans (bind_ok done)), performs made, finalState_map]
    refine Eq.trans ?_ (congrArg Solver.engine after)
    cases called : onEngine (make made) s₁ with
    | ok n s₂ =>
      rw [finalState_ok called, finalState_congr (bind_ok called)]
      exact aside n s₂
    | error x s₂ => rw [finalState_error called, finalState_error (bind_error called)]
  failed x s₁ failed := run.trans (bind_error failed)

theorem Uses.hands {act : Action (Solver σ S T) Term} {c : S → Command S T}
    (uses : Uses s act sort c) :
    Hands s act sort c := by
  cases uses with
  | @value l l' sort fits normal =>
    refine hands_of_run (leaf sort (.value l') []) (fun _ => rfl) (fun _ _ => rfl) ?_
    rw [makeValue, fits, normal]
    rfl
  | @constArray fill n index element agrees native =>
    refine hands_of_run (leaf (.array index element) .constArray [fill])
      (fun _ => rfl) (fun _ _ => rfl) ?_
    have asked : (Solver.native fill : Action (Solver σ S T) T) s = .ok n s := by
      rw [Solver.native, ask, native]
    rw [makeConstArray, LogicSort.expectArray, ofExcept_then]
    dsimp only
    rw [agrees, ofExcept_then, bind_ok asked]
  | @symbol name sort new =>
    refine hands_of_run (fun n => do
      let t ← leaf sort (.symbol name) [] n
      record fun s => { s with symbols := s.symbols.insert name t }
      return t) (fun _ => rfl) (fun _ _ => rfl) ?_
    rw [makeSymbol, get_then, new, if_neg Bool.false_ne_true]

end Uses

/-- The sorts of the session are told by the calls since the last reset, the latest first: no sort
was made twice, and what is handed over for a sort is always what was made for it. From here on, a
sort that is not on record is asked for, but one that has to be declared is so only by its
declaration. -/
structure SortsInOrder (start : σ → Prop) (s : Solver σ S T) (entries : List (Entry S T)) : Prop
    extends Books start s entries where
  logged : ∀ log, Engine.Logs start log → log s.engine = entries.map Entry.exchange
  labelled : ∀ label : S → LogicSort, Engine.Labels (σ := σ) label → ∀ entry ∈ entries,
    entry.exchange.command.mapSorts label = entry.command.mapSorts Prod.fst
  array : ∀ index element made, s.session.sorts[LogicSort.array index element]? = some made →
    ∃ i x, s.session.sorts[index]? = some i ∧ s.session.sorts[element]? = some x ∧
      ⟨.makeArraySort i x, .ok (.sort made)⟩ ∈ entries.map Entry.exchange
  function : ∀ domain range made, s.session.sorts[LogicSort.function domain range]? = some made →
    ∃ ds r, List.Forall₂ (fun sort made => s.session.sorts[sort]? = some made) domain ds ∧
      s.session.sorts[range]? = some r ∧ ⟨.makeFunctionSort ds r, .ok (.sort made)⟩ ∈
        entries.map Entry.exchange
  known : ∀ (sort : LogicSort) (made : S), s.session.sorts[sort]? = some made →
    nativeSort sort s = .ok made s
  handed : ∀ act sort c, Uses s act sort c → Hands s act sort c
  again : ∀ entry ∈ entries, ∀ sort, entry.sought? = some sort →
    sort ∉ s.session.sorts → sort.Constructed → Attempts s (nativeSort sort) entry.command sort
  undeclared : ∀ sort : LogicSort, sort.Declared → sort ∉ s.session.sorts →
    nativeSort sort s = .error (.usage (.undeclaredSort sort)) s
  declaration : ∀ act command sort name, Declares act command sort name →
    (name ∉ s.session.declared → Attempts s act command sort) ∧
      (name ∈ s.session.declared → act s = .error (.duplicate .sort name) s)

/-- Whatever an engine answers and wherever it fails, the sorts of a session are made once and
consistently, and what could not be made is tried again. -/
theorem native_sorts_made_once {issued : List Term} (run : Run start s issued) :
    ∃ entries, SortsInOrder start s entries := by
  obtain ⟨entries, books⟩ := run.books
  refine ⟨entries, books, fun log logs =>
    (books.transcript.eq_log logs).symm, fun label labels entry h => ?_,
    fun _ _ _ => books.ledger.array_made, fun _ _ _ =>
      books.ledger.function_made, fun _ _ => nativeSort_known,
    fun _ _ _ => Uses.hands, fun entry h sort sought absent constructed => ?_, fun _ =>
      nativeSort_undeclared, fun _ _ _ _ declares => ⟨declares.attempts, declares.refused⟩⟩
  · rw [Entry.exchange, Command.mapSorts_mapSorts]
    exact (books.labelled labels (List.suffix_refl _) entry h).1
  · exact attempts_nativeSort sought (fun p => books.ledger.recorded_of_handed h) constructed absent

/-- A scripted engine that writes down what it is asked, and whose sorts can be seen. -/
abbrev Monitored := Recorder ScriptedEngine LogicSort ScriptedTerm

/-- The engine makes the sort of truth values, and refuses the sort of arrays of them, which the
next use asks for again. -/
theorem native_sorts_made_once_array :
    ∃ (s : Solver Monitored LogicSort ScriptedTerm) (entries : List (Entry LogicSort ScriptedTerm))
      (command : Command (LogicSort × LogicSort) ScriptedTerm),
      Run Recorder.Blank s [] ∧ SortsInOrder Recorder.Blank s entries ∧
        entries.map Entry.exchange =
          [⟨.makeArraySort .bool .bool, .error (.engine "e" "down")⟩,
            ⟨.makeSort .bool, .ok (.sort .bool)⟩] ∧
        LogicSort.bool ∈ s.session.sorts ∧ LogicSort.array .bool .bool ∉ s.session.sorts ∧
        command.mapSorts Prod.snd = .makeArraySort .bool .bool ∧
        Attempts s (nativeSort (.array .bool .bool)) command (.array .bool .bool) := by
  let script : Script := { name := "e", failures := [("make_array_sort", "down")] }
  let s : Solver Monitored LogicSort ScriptedTerm := Solver.new { engine := { script } } {}
  have unknown : ∀ sort : LogicSort, s.session.sorts[sort]? = none :=
    fun sort => by simp [s, Solver.new]
  have unused : s.session.symbols.contains "x" = false := by simp [s, Solver.new]
  obtain ⟨⟨⟨⟨script₁, nodes, calls⟩, log⟩, session⟩, made, ⟨⟩, same, recorded⟩ :
      ∃ s₁, nativeSort .bool s = .ok .bool s₁ ∧
        s₁.engine.log = [⟨.makeSort .bool, .ok (.sort .bool)⟩] ∧
        s₁.engine.engine.script = script ∧
          s₁.session.sorts = s.session.sorts.insert .bool .bool := by
    rw [nativeSort, get_then, unknown]
    exact ⟨_, rfl, rfl, rfl, rfl⟩
  obtain rfl : script₁ = script := same
  have recorded : session.sorts = s.session.sorts.insert .bool .bool := recorded
  have ofBool : session.sorts[LogicSort.bool]? = some .bool := by
    rw [recorded, Std.HashMap.getElem?_insert_self]
  have used : LogicSort.bool ∈ session.sorts := by simp [recorded]
  have absent : LogicSort.array .bool .bool ∉ session.sorts := by simp [recorded, s, Solver.new]
  obtain ⟨engine, refused, written⟩ : ∃ engine : Monitored,
      (onEngine (Engine.makeArraySort .bool .bool) :
        Action (Solver Monitored LogicSort ScriptedTerm) LogicSort)
          ⟨⟨⟨script, nodes, calls⟩, [⟨.makeSort .bool, .ok (.sort .bool)⟩]⟩, session⟩ =
        .error (.engine "e" "down") ⟨engine, session⟩ ∧
      engine.log = [⟨.makeArraySort .bool .bool, .error (.engine "e" "down")⟩,
        ⟨.makeSort .bool, .ok (.sort .bool)⟩] := ⟨_, rfl, rfl⟩
  have failed :
      makeSymbol "x" (.array .bool .bool) s = .error (.engine "e" "down") ⟨engine, session⟩ := by
    rw [makeSymbol, get_then, unused, if_neg Bool.false_ne_true]
    refine bind_error ?_
    rw [nativeSort, get_then, unknown]
    dsimp only
    rw [bind_ok made, bind_ok (nativeSort_known ofBool)]
    exact bind_error refused
  have blank : Recorder.Blank s.engine := rfl
  have run := (Run.new blank {}).refused (.command (.makeSymbol "x" (.array .bool .bool)))
    (List.forall_mem_nil _) (map_error failed)
  obtain ⟨entries, order⟩ := native_sorts_made_once run
  have told := (order.logged _ Recorder.logs).symm.trans written
  -- The first of the entries is the call that failed; its handles tell that it was to make the
  -- array sort.
  obtain ⟨entry, rest, rfl, first, -⟩ := List.map_eq_cons_iff.mp told
  have sought : entry.sought? = some (.array .bool .bool) := by
    rw [Entry.sought?, ← order.labelled id (Recorder.labels ScriptedEngine.labels) entry
      List.mem_cons_self, first]
    rfl
  exact ⟨_, _, entry.command, run, order, told, used, absent,
    congrArg Engine.Exchange.command first,
    order.again entry List.mem_cons_self _ sought absent trivial⟩

/-- A declaration fails in the engine. The sort is not on record, but its next use is refused
without asking the engine again. -/
theorem declared_sort_not_tried_again :
    ∃ (s : Solver ScriptedEngine LogicSort ScriptedTerm) (entry : Entry LogicSort ScriptedTerm),
      Run (fun _ => True) s [] ∧ Books (fun _ => True) s [entry] ∧
        entry = ⟨.makeUninterpretedSort "A" 0, .error (.engine "bare" "boom")⟩ ∧
        LogicSort.uninterpreted "A" 0 ∉ s.session.sorts ∧
        makeSymbol "x" (.uninterpreted "A" 0) s =
          .error (.usage (.undeclaredSort (.uninterpreted "A" 0))) s ∧
        ¬ Attempts s (makeSymbol "x" (.uninterpreted "A" 0)) entry.command (.uninterpreted "A" 0) ∧
        ¬ Attempts s (nativeSort (.uninterpreted "A" 0)) entry.command (.uninterpreted "A" 0) := by
  let script : Script := { name := "bare", failures := [("make_uninterpreted_sort", "boom")] }
  let s : Solver ScriptedEngine LogicSort ScriptedTerm := Solver.new { script } {}
  let sort : LogicSort := .uninterpreted "A" 0
  have refuses : ∀ engine : ScriptedEngine, engine.script = script →
      ∃ engine' : ScriptedEngine, engine'.script = script ∧
        (Engine.makeUninterpretedSort "A" 0 : Action ScriptedEngine LogicSort) engine =
          .error (.engine "bare" "boom") engine' := by
    rintro ⟨_, nodes, calls⟩ rfl
    exact ⟨_, rfl, rfl⟩
  obtain ⟨engine, same, refused⟩ := refuses s.engine rfl
  obtain ⟨engine', -, refused'⟩ := refuses engine same
  have new : s.session.declared.contains "A" = false := by simp [s, Solver.new]
  have unused : s.session.symbols.contains "x" = false := by simp [s, Solver.new]
  have absent : sort ∉ s.session.sorts := by simp [s, Solver.new]
  have failed :
      makeUninterpretedSort "A" 0 s = .error (.engine "bare" "boom") ⟨engine, s.session⟩ := by
    rw [makeUninterpretedSort, declare_new new]
    refine bind_error ?_
    rw [onEngine, refused]
    rfl
  have initial : Run (fun _ => True) s [] := .new trivial {}
  have run := initial.refused (.command (.makeUninterpretedSort "A" 0)) (List.forall_mem_nil _)
    (map_error failed)
  have undeclared :
      nativeSort sort ⟨engine, s.session⟩ =
      .error (.usage (.undeclaredSort sort)) ⟨engine, s.session⟩ :=
    nativeSort_undeclared trivial absent
  have symbol : makeSymbol "x" sort ⟨engine, s.session⟩ =
      .error (.usage (.undeclaredSort sort)) ⟨engine, s.session⟩ := by
    rw [makeSymbol, get_then, unused, if_neg Bool.false_ne_true]
    exact bind_error undeclared
  have ledger :
      Ledger s.session [⟨.makeUninterpretedSort "A" 0, .error (.engine "bare" "boom")⟩] := by
    refine (Ledger.empty rfl rfl).idle (List.forall_mem_nil _) ?_
    rintro other ⟨-, answer, answers⟩
    cases answers
  refine ⟨⟨engine, s.session⟩, _, run, ⟨.failed (.fresh trivial) (map_error refused), ledger⟩,
    rfl, absent, symbol, fun attempts => ?_, fun attempts => ?_⟩
  · obtain ⟨s', failed, -⟩ := attempts.failed _ _ (map_error refused')
    cases failed.symm.trans symbol
  · obtain ⟨s', failed, -⟩ := attempts.failed _ _ (map_error refused')
    cases failed.symm.trans undeclared

end FormulaGraph.Solver
