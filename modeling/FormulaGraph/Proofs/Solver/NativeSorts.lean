import FormulaGraph.Proofs.Solver.Ledger

/-!
The engine's sorts. A solver has the engine make a sort at its first use, after those that it is
made of, and from then on hands the engine what it was given; so a sort is made once in a session,
whatever fails on the way.
-/

namespace FormulaGraph.Solver

open FormulaGraph.Action

variable {σ S T α β : Type} [BEq T] [Hashable T] [Engine σ S T] {start : σ → Prop}
    {s s' s'' : Solver σ S T}
  {sort : LogicSort} {made : S}

/-- However the action ends, there are books if there were. -/
abbrev Booked (start : σ → Prop) (act : Action (Solver σ S T) α) (s : Solver σ S T)
    (post : α → Solver σ S T → Prop) :
    Prop :=
  Leads (KeepsBooks start) (fun _ => True) act s post

theorem Booked.bind {act : Action (Solver σ S T) α} {next : α → Action (Solver σ S T) β}
    {post : α → Solver σ S T → Prop} {goal : β → Solver σ S T → Prop}
    (first : Booked start act s post)
    (rest : ∀ a s', post a s' → Booked start (next a) s' goal) :
    Booked start (act >>= next) s goal :=
  Leads.bind (IsTrans.trans _ _ _) first fun a s' _ => rest a s'

theorem booked_follows :
    FollowsUses (KeepsBooks start : Solver σ S T → Solver σ S T → Prop) fun _ => True where
  refl := refl
  trans := IsTrans.trans _ _ _
  undeclared _ := trivial
  abstract _ := trivial
  first {s sort command make} use := by
    have unnamed : sort.declaredName? = none := by
      have constructed := use.constructed
      cases sort with
      | uninterpreted | datatype | param | unresolved => exact constructed.elim
      | _ => rfl
    refine (leads_creation
      (fun made session => { session with sorts := session.sorts.insert sort made }) id use.makes
      use.handed use.performs (fun _ _ => use.absent) (fun _ _ => rfl) ?_).mono
        fun _ _ _ _ => trivial
    simp [unnamed]

theorem booked_nativeSort (sort : LogicSort) (s : Solver σ S T) :
    Booked start (nativeSort sort) s (Provided s sort) :=
  leads_nativeSort booked_follows sort s

section Requests

theorem keepsBooks_aside {act : Action σ α} {c : Command S T} (free : c.SortFree)
    (same : act.finalState = (Engine.perform c : Action σ (Answer S T)).finalState) :
    Abides (KeepsBooks start) (onEngine act : Action (Solver σ S T) α) := by
  intro s
  obtain ⟨command, rfl, none_, makes⟩ := free.exists_reading
  refine keepsBooks_call free.entered makes ?_ same
  rw [none_]
  exact List.forall_mem_nil _

/-- A request that hands the engine a sort, made if need be, and goes on with what it answers. -/
theorem keepsBooks_handing {act : S → Action σ α} {answer : α → Answer S T}
    {rest : α → Action (Solver σ S T) β}
    (command : S → Command (LogicSort × S) T)
    (entered : ∀ made, ((command made).mapSorts Prod.snd).Entered)
    (makes : ∀ made, ((command made).mapSorts Prod.fst).makes? = none)
    (handed : ∀ made, (command made).handed = [(sort, made)])
    (performs : ∀ made, Engine.perform ((command made).mapSorts Prod.snd) = answer <$> act made)
    (abides : ∀ a, Abides (KeepsBooks start) (rest a)) :
    Abides (KeepsBooks start) (do
      let made ← nativeSort sort
      let a ← onEngine (act made)
      rest a) := by
  intro s
  refine leads_iff_finalState.mp ((booked_nativeSort sort s).bind ?_)
  rintro made s₁ provided
  have called : Booked start (onEngine (act made)) s₁ fun _ _ => True := by
    refine leads_iff_finalState.mpr (keepsBooks_call (entered made) (makes made) ?_ ?_)
    · rw [handed made]
      exact List.forall_mem_singleton.mpr provided.recorded
    · rw [performs made, finalState_map]
  exact called.bind fun a s₂ _ => leads_iff_finalState.mpr (abides a s₂)

theorem keepsBooks_declare {name : String}
    (named : sort.declaredName? = some name) {make : Action σ S}
    (command : Command (LogicSort × S) T) (makes : (command.mapSorts Prod.fst).makes? = some sort)
    (handed : command.handed = [])
    (performs : Engine.perform (command.mapSorts Prod.snd) = .sort <$> make) :
    Abides (KeepsBooks start) (declare name sort make : Action (Solver σ S T) LogicSort) := by
  intro s
  cases new : s.session.declared.contains name with
  | true =>
    rw [finalState_error (declare_taken new sort make)]
    exact refl s
  | false =>
    rw [finalState_congr (declare_new new sort make)]
    refine leads_iff_finalState.mp ((leads_creation (fun made session => { session with
        declared := session.declared.insert name
        sorts := session.sorts.insert sort made }) (fun _ => sort) makes ?_ performs
          (fun entries ledger => ?_)
      (fun _ _ => rfl) fun made session other => ?_).mono fun _ _ _ _ => trivial)
    · rw [handed]
      exact List.forall_mem_nil _
    · refine ledger.not_mem_of_undeclared ?_ named
      rw [← Std.HashSet.contains_iff_mem, new]
      exact Bool.false_ne_true
    · rw [named]
      simp

instance : Lenient (KeepsBooks start : Solver σ S T → Solver σ S T → Prop) where
  aside _ _ free same := keepsBooks_aside free same
  nativeSort sort s := (booked_nativeSort sort s).finalState
  makeUninterpretedSort name arity :=
    keepsBooks_declare rfl (.makeUninterpretedSort name arity) rfl rfl rfl
  makeDatatypeSort decl := by
    unfold makeDatatypeSort
    split
    · exact abides_throw _
    · exact keepsBooks_declare rfl (.makeDatatypeSort decl) rfl rfl rfl
  makeValue l sort := by
    rw [makeValue]
    refine abides_guard fun _ => (abides_ofExcept _).bind fun l => ?_
    exact keepsBooks_handing (fun made => .makeValue l (sort, made))
      (fun _ => trivial) (fun _ => rfl)
      (fun _ => rfl) (fun _ => rfl) fun _ => abides_leaf _ _ _ _
  makeConstArray fill sort := by
    refine (abides_ofExcept _).bind fun _ => (abides_ofExcept _).bind fun _ =>
      (abides_native fill).bind fun n => ?_
    exact keepsBooks_handing (fun made => .makeConstArray n (sort, made))
      (fun _ => trivial) (fun _ => rfl)
      (fun _ => rfl) (fun _ => rfl) fun _ => abides_leaf _ _ _ _
  makeSymbol name sort := by
    refine abides_get fun s => abides_guard fun _ => ?_
    exact keepsBooks_handing (fun made => .makeSymbol name (sort, made))
      (fun _ => trivial) (fun _ => rfl)
      (fun _ => rfl) (fun _ => rfl) fun n => (abides_leaf _ _ _ n).bind fun t => abides_named name t

end Requests

section Runs

variable {issued issued' : List Term}

theorem books_new {e : σ} (starts : start e) (supply : Supply) (evicts : Eviction) :
    Books start (Solver.new e supply evicts : Solver σ S T) [] :=
  ⟨.fresh starts, .empty rfl rfl⟩

theorem keepsBooks_reset : Abides (KeepsBooks start) (reset : Action (Solver σ S T) Unit) := by
  rintro s ⟨entries, books⟩
  cases run : (onEngine Engine.reset : Action (Solver σ S T) Unit) s with
  | ok u s' =>
    obtain ⟨e, notices, called, rfl⟩ := of_onEngine_ok run
    have done : (reset : Action (Solver σ S T) Unit) s =
        .ok () ⟨(Engine.takeNotices e).2, { s.session with notices }.renew⟩ := bind_ok run
    rw [finalState_ok done]
    exact ⟨[], (books.transcript.renewed (bind_ok called)).taken, .empty rfl rfl⟩
  | error x s' =>
    obtain ⟨e, notices, called, rfl⟩ := of_onEngine_error run
    have failed : (reset : Action (Solver σ S T) Unit) s =
        .error x ⟨(Engine.takeNotices e).2, { s.session with notices }⟩ := bind_error run
    rw [finalState_error failed]
    refine ⟨⟨.reset, .error x⟩ :: entries, (books.transcript.failed (bind_error called)).taken, ?_⟩
    refine (books.ledger.idle (List.forall_mem_nil _) ?_).congr rfl rfl
    rintro sort ⟨makes, -⟩
    cases makes

theorem keepsBooks_perform (q : Request) :
    Abides (KeepsBooks start) (q.perform : Action (Solver σ S T) (Answer LogicSort Term)) := by
  refine abides_perform_of_reset ?_
    (fun _ free same => keepsBooks_aside free same) keepsBooks_reset q
  rintro s assumptions ⟨entries, books⟩
  exact ⟨entries, books.transcript, books.ledger.congr rfl rfl⟩

theorem Advance.keepsBooks (step : Advance s issued s' issued') : KeepsBooks start s s' := by
  cases step with
  | answered q _ done => exact finalState_ok done ▸ keepsBooks_perform q s
  | failed q _ done => exact finalState_error done ▸ keepsBooks_perform q s
  | reported | elsewhere =>
    rintro ⟨entries, books⟩
    exact ⟨entries, books.transcript, books.ledger.congr rfl rfl⟩

theorem Run.books (run : Run start s issued) : ∃ entries, Books start s entries := by
  induction run with
  | new starts supply evicts => exact ⟨[], books_new starts supply evicts⟩
  | next _ step ih => exact step.keepsBooks ih

end Runs

section Labels

variable {entries : List (Entry S T)} {label : S → LogicSort}

/-- Where handles tell which sorts they were made for, they tell what the books say. By induction
along the books, as what a call is handed was made before. -/
theorem Books.labelled (books : Books start s entries) (labels : Engine.Labels (σ := σ) label)
    {tail : List (Entry S T)} (suffix : tail <:+ entries) : ∀ entry ∈ tail,
      entry.command.mapSorts (label ∘ Prod.snd) = entry.command.mapSorts Prod.fst ∧
        ∀ sort made, entry.Yields sort made → label made = sort := by
  induction tail with
  | nil => exact List.forall_mem_nil _
  | cons entry earlier ih =>
    have before := ih ((List.suffix_cons _ _).trans suffix)
    refine List.forall_mem_cons.mpr ⟨?_, before⟩
    have same : entry.command.mapSorts (label ∘ Prod.snd) = entry.command.mapSorts Prod.fst := by
      refine Command.mapSorts_congr fun p hp => ?_
      obtain ⟨source, hs, yields⟩ := books.ledger.handed entry earlier suffix p hp
      exact (before source hs).2 p.1 p.2 yields
    refine ⟨same, fun sort made yields => ?_⟩
    have entered : entry.exchange ∈ entries.map Entry.exchange :=
      List.mem_map_of_mem (suffix.subset List.mem_cons_self)
    rw [Entry.exchange, yields.2] at entered
    obtain ⟨e, e', done⟩ := books.transcript.performed entered
    refine labels (entry.command.mapSorts Prod.snd) e e' made sort ?_ done
    rw [Command.mapSorts_mapSorts, same]
    exact yields.1

end Labels

end FormulaGraph.Solver
