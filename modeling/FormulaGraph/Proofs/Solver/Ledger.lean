import FormulaGraph.Proofs.Solver.Conduct

/-!
An account of the sorts of a session: every call of the engine since its last reset, with the sort
beside each handle. A sort is on record in the session just if a call has made it; a call is handed
what an earlier call has made for the sort that is meant; and no sort is made twice.
-/

namespace FormulaGraph

/-- The name under which a sort is declared. -/
def LogicSort.declaredName? : LogicSort → Option String
  | .uninterpreted name _ | .datatype name => some name
  | _ => none

/-- A call of the engine, where every handle stands beside the sort that it is for. -/
structure Entry (S T : Type) where
  command : Command (LogicSort × S) T
  outcome : Except Error (Answer S T)

namespace Entry

variable {S T : Type}

/-- The call as the engine sees it. -/
def exchange (entry : Entry S T) : Engine.Exchange S T :=
    ⟨entry.command.mapSorts Prod.snd, entry.outcome⟩

/-- The sort that the call is to make. -/
def sought? (entry : Entry S T) : Option LogicSort := (entry.command.mapSorts Prod.fst).makes?

/-- The call has made the sort, and this is the handle for it. -/
def Yields (entry : Entry S T) (sort : LogicSort) (made : S) : Prop :=
  entry.sought? = some sort ∧ entry.outcome = .ok (.sort made)

/-- The call was to make the sort and has not failed. -/
def Creates (entry : Entry S T) (sort : LogicSort) : Prop :=
  entry.sought? = some sort ∧ ∃ answer, entry.outcome = .ok answer

end Entry

/-- The entries, the latest first, account for the sorts of the session. -/
structure Ledger {S T : Type} [BEq T] [Hashable T] (session : Session S T)
    (entries : List (Entry S T)) : Prop where
  answered : ∀ entry ∈ entries, ∀ sort, entry.Creates sort → ∃ made, entry.Yields sort made
  once : entries.Pairwise fun later earlier => ∀ sort, later.Creates sort → ¬ earlier.Creates sort
  recorded : ∀ sort made, session.sorts[sort]? = some made ↔ ∃ entry ∈ entries,
    entry.Yields sort made
  handed : ∀ entry earlier, (entry :: earlier) <:+ entries →
    ∀ p ∈ entry.command.handed, ∃ source ∈ earlier, source.Yields p.1 p.2
  declared : ∀ name, name ∈ session.declared ↔ ∃ sort ∈ session.sorts,
    sort.declaredName? = some name

namespace Ledger

variable {S T : Type} [BEq T] [Hashable T] {session session' : Session S T}
    {entries : List (Entry S T)}
  {entry : Entry S T} {sort : LogicSort} {made : S}

theorem empty (sorts : session.sorts = {}) (declared : session.declared = {}) :
    Ledger session ([] : List (Entry S T)) where
  answered := List.forall_mem_nil _
  once := .nil
  recorded sort made := by simp [sorts]
  handed entry earlier tail := by cases List.suffix_nil.mp tail
  declared name := by simp [sorts, declared]

theorem congr (ledger : Ledger session entries) (sorts : session'.sorts = session.sorts)
    (declared : session'.declared = session.declared) : Ledger session' entries where
  answered := ledger.answered
  once := ledger.once
  recorded := sorts ▸ ledger.recorded
  handed := ledger.handed
  declared := sorts ▸ declared ▸ ledger.declared

theorem recorded_of_handed (ledger : Ledger session entries)
    (h : entry ∈ entries) {p : LogicSort × S}
    (handed : p ∈ entry.command.handed) : session.sorts[p.1]? = some p.2 := by
  obtain ⟨later, earlier, rfl⟩ := List.append_of_mem h
  obtain ⟨source, hs, yields⟩ := ledger.handed entry earlier (List.suffix_append _ _) p handed
  exact (ledger.recorded _ _).mpr ⟨source, by simp [hs], yields⟩

theorem array_made (ledger : Ledger session entries) {index element : LogicSort}
    (known : session.sorts[LogicSort.array index element]? = some made) :
    ∃ i x, session.sorts[index]? = some i ∧ session.sorts[element]? = some x ∧
      ⟨.makeArraySort i x, .ok (.sort made)⟩ ∈ entries.map Entry.exchange := by
  obtain ⟨⟨command, outcome⟩, h, makes, rfl⟩ := (ledger.recorded _ _).mp known
  have handed := fun p => ledger.recorded_of_handed (p := p) h
  have entered := List.mem_map_of_mem (f := Entry.exchange) h
  cases command with
  | makeArraySort i x =>
    cases makes
    exact ⟨i.2, x.2, handed i (by simp [Command.handed]),
      handed x (by simp [Command.handed]), entered⟩
  | makeSort kind => cases kind <;> cases makes
  | _ => cases makes

theorem function_made (ledger : Ledger session entries)
    {domain : List LogicSort} {range : LogicSort}
    (known : session.sorts[LogicSort.function domain range]? = some made) :
    ∃ ds r, List.Forall₂ (fun sort made => session.sorts[sort]? = some made) domain ds ∧
      session.sorts[range]? = some r ∧
        ⟨.makeFunctionSort ds r, .ok (.sort made)⟩ ∈ entries.map Entry.exchange := by
  obtain ⟨⟨command, outcome⟩, h, makes, rfl⟩ := (ledger.recorded _ _).mp known
  have handed := fun p => ledger.recorded_of_handed (p := p) h
  have entered := List.mem_map_of_mem (f := Entry.exchange) h
  cases command with
  | makeFunctionSort ds r =>
    cases makes
    refine ⟨ds.map Prod.snd, r.2, ?_, handed r (by simp [Command.handed]), entered⟩
    rw [List.forall₂_map_left_iff, List.forall₂_map_right_iff, List.forall₂_same]
    exact fun p hp => handed p (by simp [Command.handed, hp])
  | makeSort kind => cases kind <;> cases makes
  | _ => cases makes

/-- A declared name belongs to a sort on record, and so it is new if the sort of that name is not
there. -/
theorem not_mem_of_undeclared (ledger : Ledger session entries) {name : String}
    (undeclared : name ∉ session.declared)
    (named : sort.declaredName? = some name) : sort ∉ session.sorts :=
  fun used => undeclared ((ledger.declared name).mpr ⟨sort, used, named⟩)

theorem mem_of_creates (ledger : Ledger session entries) (h : entry ∈ entries)
    (creates : entry.Creates sort) :
    sort ∈ session.sorts := by
  obtain ⟨made, yields⟩ := ledger.answered entry h sort creates
  rw [← Std.HashMap.isSome_getElem?_iff_mem, (ledger.recorded sort made).mpr ⟨entry, h, yields⟩]
  rfl

/-- What is on record when a call is made was made by an earlier one. -/
theorem handed_cons (ledger : Ledger session entries)
    (handed : ∀ p ∈ entry.command.handed, session.sorts[p.1]? = some p.2) (other : Entry S T)
    (earlier : List (Entry S T)) (tail : (other :: earlier) <:+ (entry :: entries)) :
    ∀ p ∈ other.command.handed, ∃ source ∈ earlier, source.Yields p.1 p.2 := by
  cases List.suffix_cons_iff.mp tail with
  | inl same =>
    cases same
    exact fun p hp => (ledger.recorded p.1 p.2).mp (handed p hp)
  | inr tail => exact ledger.handed other earlier tail

theorem idle (ledger : Ledger session entries)
    (handed : ∀ p ∈ entry.command.handed, session.sorts[p.1]? = some p.2)
    (idles : ∀ sort, ¬ entry.Creates sort) :
    Ledger session (entry :: entries) where
  answered :=
    List.forall_mem_cons.mpr ⟨fun sort creates => absurd creates (idles sort), ledger.answered⟩
  once := .cons (fun _ _ sort creates => absurd creates (idles sort)) ledger.once
  recorded sort made := by
    have yields : ¬ entry.Yields sort made := fun yields => idles sort ⟨yields.1, _, yields.2⟩
    rw [ledger.recorded sort made, List.exists_mem_cons_iff, or_iff_right yields]
  handed := ledger.handed_cons handed
  declared := ledger.declared

theorem creation (ledger : Ledger session entries)
    (handed : ∀ p ∈ entry.command.handed, session.sorts[p.1]? = some p.2)
    (yields : entry.Yields sort made)
    (absent : sort ∉ session.sorts) (sorts : session'.sorts = session.sorts.insert sort made)
    (declared : ∀ name, name ∈ session'.declared ↔ sort.declaredName? = some name ∨
      name ∈ session.declared) :
    Ledger session' (entry :: entries) where
  answered := by
    refine List.forall_mem_cons.mpr ⟨fun other creates => ?_, ledger.answered⟩
    obtain rfl : sort = other := Option.some_inj.mp (yields.1.symm.trans creates.1)
    exact ⟨made, yields⟩
  once := by
    refine .cons (fun other h sort' creates before => ?_) ledger.once
    obtain rfl : sort = sort' := Option.some_inj.mp (yields.1.symm.trans creates.1)
    exact absent (ledger.mem_of_creates h before)
  recorded sort' made' := by
    rw [sorts, Std.HashMap.getElem?_insert, List.exists_mem_cons_iff, ← ledger.recorded sort' made']
    by_cases same : sort = sort'
    · subst same
      have unknown : session.sorts[sort]? = none := Std.HashMap.getElem?_eq_none absent
      have given : entry.Yields sort made' ↔ made = made' := by
        simp [Entry.Yields, yields.1, yields.2]
      simp [unknown, given]
    · have other : ¬ entry.Yields sort' made' := fun h =>
        same (Option.some_inj.mp (yields.1.symm.trans h.1))
      simp [same, other]
  handed := ledger.handed_cons handed
  declared name := by
    rw [declared name, ledger.declared name, sorts]
    constructor
    · rintro (named | ⟨sort', used, named⟩)
      · exact ⟨sort, Std.HashMap.mem_insert_self, named⟩
      · exact ⟨sort', Std.HashMap.mem_insert.mpr (.inr used), named⟩
    · rintro ⟨sort', used, named⟩
      cases Std.HashMap.mem_insert.mp used with
      | inl same => exact .inl (eq_of_beq same ▸ named)
      | inr used => exact .inr ⟨sort', used, named⟩

end Ledger

namespace Solver

open FormulaGraph.Action

variable {σ S T α : Type} [BEq T] [Hashable T] [Engine σ S T] {start : σ → Prop}
    {s s' : Solver σ S T}

/-- The entries are all that the engine was asked since its last reset, and account for the sorts of
the session. -/
structure Books (start : σ → Prop) (s : Solver σ S T) (entries : List (Entry S T)) : Prop where
  transcript : Engine.Transcript start s.engine (entries.map Entry.exchange)
  ledger : Ledger s.session entries

/-- If there are books at the first state, there are at the second. -/
def KeepsBooks (start : σ → Prop) (s s' : Solver σ S T) : Prop :=
  (∃ entries, Books start s entries) → ∃ entries, Books start s' entries

instance : IsPreorder (Solver σ S T) (KeepsBooks start) where
  refl _ := id
  trans _ _ _ first second := second ∘ first

instance : Tolerant (KeepsBooks start : Solver σ S T → Solver σ S T → Prop) where
  changed := by
    rintro s s' - engine kept ⟨entries, books⟩
    exact ⟨entries, engine ▸ books.transcript, books.ledger.congr kept.sorts kept.declared⟩

section Calls

variable {command : Command (LogicSort × S) T}

/-- A call that makes no sort, and is handed what is on record. -/
theorem keepsBooks_call {act : Action σ α} (entered : (command.mapSorts Prod.snd).Entered)
    (makes : (command.mapSorts Prod.fst).makes? = none)
    (handed : ∀ p ∈ command.handed, s.session.sorts[p.1]? = some p.2)
    (performs : act.finalState =
      (Engine.perform (command.mapSorts Prod.snd) : Action σ (Answer S T)).finalState) :
    KeepsBooks start s ((onEngine act).finalState s) := by
  rintro ⟨entries, books⟩
  obtain ⟨notices, after⟩ := exists_finalState_onEngine act s
  rw [after, performs]
  have idles : ∀ outcome sort, ¬ (⟨command, outcome⟩ : Entry S T).Creates sort :=
    fun _ _ creates => Option.some_ne_none _ (creates.1.symm.trans makes)
  cases called : (Engine.perform (command.mapSorts Prod.snd) : Action σ (Answer S T)) s.engine with
  | ok answer e =>
    rw [finalState_ok called]
    exact ⟨⟨command, .ok answer⟩ :: entries, (books.transcript.answered entered called).taken,
      (books.ledger.idle handed (idles _)).congr rfl rfl⟩
  | error x e =>
    rw [finalState_error called]
    exact ⟨⟨command, .error x⟩ :: entries, (books.transcript.failed called).taken,
      (books.ledger.idle handed (idles _)).congr rfl rfl⟩

/-- A call by which a sort is made that was not on record, and is put there if the engine
answers. -/
theorem leads_creation {act : Action σ S} {sort : LogicSort}
    (change : S → Session S T → Session S T) (value : S → α)
    (makes : (command.mapSorts Prod.fst).makes? = some sort)
    (handed : ∀ p ∈ command.handed, s.session.sorts[p.1]? = some p.2)
    (performs : Engine.perform (command.mapSorts Prod.snd) = .sort <$> act)
    (absent : ∀ entries : List (Entry S T), Ledger s.session entries → sort ∉ s.session.sorts)
    (sorts : ∀ made session, (change made session).sorts = session.sorts.insert sort made)
    (declared : ∀ made session name, name ∈ (change made session).declared ↔
      sort.declaredName? = some name ∨ name ∈ session.declared) :
    Leads (KeepsBooks start) (fun _ => True) (do
      let made ← onEngine act
      record (change made)
      return value made) s fun a s' =>
        ∃ made, a = value made ∧ s'.session.sorts = s.session.sorts.insert sort made := by
  cases run : onEngine act s with
  | ok made s₁ =>
    obtain ⟨e, notices, called, rfl⟩ := of_onEngine_ok run
    have recorded : (do record (change made); return value made : Action (Solver σ S T) α)
        ⟨(Engine.takeNotices e).2, { s.session with notices }⟩ =
          .ok (value made) ⟨(Engine.takeNotices e).2, change made { s.session with notices }⟩ := rfl
    refine (leads_ok ((bind_ok run).trans recorded)).mpr ⟨?_, made, rfl, sorts made _⟩
    rintro ⟨entries, books⟩
    have answered : Engine.perform (command.mapSorts Prod.snd) s.engine = .ok (.sort made) e := by
      rw [performs, map_ok called]
    exact ⟨⟨command, .ok (.sort made)⟩ :: entries,
      (books.transcript.answered (Command.entered_of_makes makes) answered).taken,
      books.ledger.creation handed ⟨makes, rfl⟩ (absent entries books.ledger)
        (sorts made _) (declared made _)⟩
  | error x s₁ =>
    obtain ⟨e, notices, called, rfl⟩ := of_onEngine_error run
    refine (leads_error (bind_error run)).mpr ⟨?_, trivial⟩
    rintro ⟨entries, books⟩
    have failed : Engine.perform (command.mapSorts Prod.snd) s.engine = .error x e := by
      rw [performs, map_error called]
    have idles : ∀ sort, ¬ (⟨command, .error x⟩ : Entry S T).Creates sort := by
      rintro sort ⟨-, answer, answers⟩
      cases answers
    exact ⟨⟨command, .error x⟩ :: entries, (books.transcript.failed failed).taken,
      (books.ledger.idle handed idles).congr rfl rfl⟩

end Calls

end Solver

end FormulaGraph
