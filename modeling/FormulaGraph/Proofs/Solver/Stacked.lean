import FormulaGraph.Proofs.Concur
import FormulaGraph.Proofs.Op.Origin
import FormulaGraph.Proofs.Solver.Coupled

/-!
A solver on top of another, next to one that works on the engine directly. Above and directly, the
same terms are made under the same identifiers; below there is a term of the same shape for each of
them, and all three stand on the same term of the engine.
-/

namespace FormulaGraph

/-- The sorts without bit-vectors of no bits and functions of no arguments, and the operators that
do not make such bit-vectors. -/
def Vocabulary.proper : Vocabulary := ⟨LogicSort.Proper, Op.Proper⟩

theorem Op.null_proper : Op.Proper .null := fun same => by cases same

theorem Term.Formed.of_shape {t u : Term} (formed : t.Formed) (shape : u.shape = t.shape) :
    u.Formed := by
  obtain ⟨op, sort, kind, shapes⟩ := shape_eq_iff.mp shape
  have sorts := sorts_of_shapes shapes
  have length := congrArg List.length shapes
  rw [List.length_map, List.length_map] at length
  unfold Formed at formed ⊢
  rw [kind]
  split at formed
  · exact ⟨op.trans formed.1, List.length_eq_zero_iff.mp
      (by rw [length, formed.2, List.length_nil])⟩
  · exact ⟨op.trans formed.1, List.length_eq_zero_iff.mp
      (by rw [length, formed.2, List.length_nil])⟩
  · obtain ⟨null, fill, index, single, array⟩ := formed
    rw [single] at length sorts
    obtain ⟨fill', single'⟩ := List.length_eq_one_iff.mp length
    rw [single', List.map_singleton, List.map_singleton, List.cons.injEq] at sorts
    exact ⟨op.trans null, fill', index, single', by rw [sort, array, sorts.1]⟩
  · rw [op, sort, sorts]
    exact formed

namespace Session

variable {i : Session LogicSort Handle} {s : Session LogicSort Term}
    {r : Session LogicSort Handle} {t v : Term}
  {n : Handle} {ts vs : List Term} {op : Op} {sort : LogicSort} {kind : TermKind}

/-- The term above stands on this one below, and both stand on this term of the engine, as does the
term where the engine is used directly. -/
structure Stands (i : Session LogicSort Handle) (s : Session LogicSort Term)
    (r : Session LogicSort Handle) (t v : Term) (n : Handle) : Prop where
  has : s.Has t
  below : i.Has v
  shape : v.shape = t.shape
  above : s.natives[t]? = some v
  engine : i.natives[v]? = some n
  direct : r.natives[t]? = some n

/-- The graphs of a session below, the one above it and the one that does without. -/
structure Graphs (i : Session LogicSort Handle) (s : Session LogicSort Term)
    (r : Session LogicSort Handle) : Prop where
  number : r.number = s.number
  supply : r.supply = s.supply
  table : r.table = s.table
  below : i.Interned
  above : s.Interned
  stands : ∀ t, s.Has t → ∃ v n, Stands i s r t v n
  covered : ∀ v, i.Has v → ∃ t, s.Has t ∧ t.shape = v.shape
  proper : ∀ t, s.Has t → t.Within .proper

/-- The three sessions know the same. -/
structure Levels (i : Session LogicSort Handle) (s : Session LogicSort Term)
    (r : Session LogicSort Handle) :
    Prop extends Graphs i s r where
  symbols : r.symbols = s.symbols
  sorts : ∀ sort : LogicSort, i.sorts[sort]? = s.sorts[sort]? ∧ r.sorts[sort]? = s.sorts[sort]?
  declared : i.declared = s.declared ∧ r.declared = s.declared
  aliasing : i.arbiter.aliasing = s.arbiter.aliasing ∧ r.arbiter.aliasing = s.arbiter.aliasing
  memos : i.arbiter.Faithful ∧ s.arbiter.Faithful ∧ r.arbiter.Faithful
  /-- The engine's sorts are sorts of formulas, and each stands for itself. -/
  made : ∀ sort made : LogicSort, s.sorts[sort]? = some made → made = sort
  named : ∀ name, i.symbols.contains name = s.symbols.contains name
  assumptions : ∀ n : Handle,
    Option.Rel (fun v t => s.assumptions[v]? = some t) i.assumptions[n]? r.assumptions[n]?

/-- Both sessions have the same graph. -/
structure SameGraph {S T : Type} [BEq T] [Hashable T] (s s' : Session S T) : Prop where
  number : s'.number = s.number
  supply : s'.supply = s.supply
  table : s'.table = s.table
  natives : s'.natives = s.natives

theorem SameGraph.refl {S T : Type} [BEq T] [Hashable T] (s : Session S T) :
    SameGraph s s := ⟨rfl, rfl, rfl, rfl⟩

theorem SameGraph.trans {S T : Type} [BEq T] [Hashable T] {s s' s'' : Session S T}
    (first : SameGraph s s') (second : SameGraph s' s'') : SameGraph s s'' :=
  ⟨second.number.trans first.number, second.supply.trans first.supply,
    second.table.trans first.table, second.natives.trans first.natives⟩

theorem SameGraph.has {S T : Type} [BEq T] [Hashable T] {s s' : Session S T}
    (same : SameGraph s s') :
    s'.Has t ↔ s.Has t := by
  rw [Has, Has, same.table]

theorem Stands.congr {i' : Session LogicSort Handle} {s' : Session LogicSort Term}
    {r' : Session LogicSort Handle} (stands : Stands i s r t v n) (below : SameGraph i i')
    (above : SameGraph s s') (direct : SameGraph r r') : Stands i' s' r' t v n where
  has := above.has.mpr stands.has
  below := below.has.mpr stands.below
  shape := stands.shape
  above := by rw [above.natives, stands.above]
  engine := by rw [below.natives, stands.engine]
  direct := by rw [direct.natives, stands.direct]

theorem Graphs.congr {i' : Session LogicSort Handle} {s' : Session LogicSort Term}
    {r' : Session LogicSort Handle} (graphs : Graphs i s r) (below : SameGraph i i')
    (above : SameGraph s s') (direct : SameGraph r r') : Graphs i' s' r' where
  number := by rw [direct.number, above.number, graphs.number]
  supply := by rw [direct.supply, above.supply, graphs.supply]
  table := by rw [direct.table, above.table, graphs.table]
  below := graphs.below.congr below.number below.table below.natives (below.supply ▸ Nat.le_refl _)
  above := graphs.above.congr above.number above.table above.natives (above.supply ▸ Nat.le_refl _)
  stands t ht := by
    obtain ⟨v, n, stands⟩ := graphs.stands t (above.has.mp ht)
    exact ⟨v, n, stands.congr below above direct⟩
  covered v hv := by
    obtain ⟨t, ht, shape⟩ := graphs.covered v (below.has.mp hv)
    exact ⟨t, above.has.mpr ht, shape⟩
  proper t ht := graphs.proper t (above.has.mp ht)

theorem candidate_shape (shapes : vs.map Term.shape = ts.map Term.shape) :
    (i.candidate op sort kind vs).shape = (s.candidate op sort kind ts).shape :=
  Term.shape_eq_iff.mpr ⟨rfl, rfl, rfl, shapes⟩

namespace Levels

theorem proper_sort (levels : Levels i s r) (ht : s.Has t) :
    t.sort.Proper := (levels.proper t ht t .here).1

theorem tick (levels : Levels i s r) : Levels i.tick s.tick r.tick :=
  { levels with
    supply := congrArg (fun supply : Supply => { supply with nextTerm := supply.nextTerm + 1 })
      levels.supply
    below := levels.below.tick
    above := levels.above.tick
    stands := fun t ht => by
      obtain ⟨v, n, stands⟩ := levels.stands t ht
      exact ⟨v, n, { stands with }⟩ }

theorem quiet (levels : Levels i s r) (notices notices' notices'' : Array Notice) :
    Levels { i with notices } { s with notices := notices' } { r with notices := notices'' } :=
  { levels with
    toGraphs := levels.toGraphs.congr ⟨rfl, rfl, rfl, rfl⟩ ⟨rfl, rfl, rfl, rfl⟩
      ⟨rfl, rfl, rfl, rfl⟩ }

theorem add (levels : Levels i s r) (below : (i.add v n).Interned) (above : (s.add t v).Interned)
    (fresh : s.table.find? t = none) (fresh' : i.table.find? v = none)
    (id : t.id = s.supply.nextTerm)
    (id' : v.id = i.supply.nextTerm) (shape : v.shape = t.shape) (proper : t.Within .proper) :
    Levels (i.add v n) (s.add t v) (r.add t n) := by
  have extension := levels.above.extends_add fresh id v
  have extension' := levels.below.extends_add fresh' id' n
  refine { levels with
    supply := congrArg (fun supply : Supply => { supply with nextTerm := supply.nextTerm + 1 })
      levels.supply
    table := congrArg (fun table : TermTable => (table.insert t).2) levels.table
    below
    above
    stands := fun u hu => ?_
    covered := fun w hw => ?_
    proper := fun u hu => ?_ }
  · cases (has_add fresh v).mp hu with
    | inl old =>
      obtain ⟨w, m, stands⟩ := levels.stands u old
      have smaller := levels.above.supplied u old
      refine ⟨w, m, hu, extension'.has w stands.below, stands.shape,
        extension.natives u w stands.above, extension'.natives w m stands.engine, ?_⟩
      rw [getElem?_natives_add, if_neg (by omega)]
      exact stands.direct
    | inr same =>
      subst same
      refine ⟨v, n, hu, (has_add fresh' n).mpr (.inr rfl), shape, ?_, ?_, ?_⟩
      all_goals rw [getElem?_natives_add, if_pos rfl]
  · cases (has_add fresh' n).mp hw with
    | inl old =>
      obtain ⟨u, hu, shape⟩ := levels.covered w old
      exact ⟨u, extension.has u hu, shape⟩
    | inr same => exact ⟨t, (has_add fresh v).mpr (.inr rfl), same ▸ shape.symm⟩
  · cases (has_add fresh v).mp hu with
    | inl old => exact levels.proper u old
    | inr same => exact same ▸ proper

/-- If a term is known above, there is one below on which it stands, and this is the only one of its
shape. -/
theorem known_below {i' : Session LogicSort Handle} (levels : Levels i s r) (ht : s.Has t)
    (interned : i'.Interned)
    (extension : i.Extends i') (hv : i'.Has v) (shape : v.shape = t.shape) : i.Has v := by
  obtain ⟨w, n, stands⟩ := levels.stands t ht
  have same :=
    interned.eq_of_shape (extension.has w stands.below) hv (stands.shape.trans shape.symm)
  exact same ▸ stands.below

/-- If a term is known below, one stands on it, and this is the only one of its shape. -/
theorem known_above {s' : Session LogicSort Term} (levels : Levels i s r) (hv : i.Has v)
    (interned : s'.Interned)
    (extension : s.Extends s') (ht : s'.Has t) (shape : v.shape = t.shape) : s.Has t := by
  obtain ⟨u, hu, shape'⟩ := levels.covered v hv
  exact interned.eq_of_shape (extension.has u hu) ht (shape'.trans shape) ▸ hu

/-- What an interning comes to that is done on every level. -/
structure Interns (kind : TermKind) (i : Session LogicSort Handle) (s : Session LogicSort Term)
    (r : Session LogicSort Handle) (v t t' : Term) : Prop where
  levels : Levels i s r
  same : t' = t
  kind : v.kind = kind

/-- The term is known on all levels, or new on all of them: terms of one shape are one term on each
level. -/
theorem intern (levels : Levels i s r) (op : Op) (kind : TermKind) (known : ∀ c ∈ ts, s.Has c)
    (below : ∀ w ∈ vs, i.Has w) (shapes : vs.map Term.shape = ts.map Term.shape)
    (formed : (s.candidate op sort kind ts).Formed) (sorted : sort.Proper)
    (used : op.Proper) (n : Handle) :
    Interns kind (i.intern op sort kind vs n).2
      (s.intern op sort kind ts (i.intern op sort kind vs n).1).2 (r.intern op sort kind ts n).2
      (i.intern op sort kind vs n).1 (s.intern op sort kind ts (i.intern op sort kind vs n).1).1
      (r.intern op sort kind ts n).1 := by
  have formed' : (i.candidate op sort kind vs).Formed := formed.of_shape (candidate_shape shapes)
  have interns' := levels.below.intern below formed' n
  generalize i.intern op sort kind vs n = first at interns' ⊢
  obtain ⟨v, i'⟩ := first
  have interns := levels.above.intern known formed v
  dsimp only at interns' ⊢
  obtain ⟨op', sort', kind', children'⟩ := interns'.structure_eq
  have shape : v.shape = (s.intern op sort kind ts v).1.shape := by
    obtain ⟨op, sort, kind, children⟩ := interns.structure_eq
    rw [Term.shape_eq_iff, op', op, sort', sort, kind', kind, children', children]
    exact ⟨rfl, rfl, rfl, shapes⟩
  have candidate : r.candidate op sort kind ts = s.candidate op sort kind ts := by
    rw [candidate, candidate, levels.supply, levels.number]
  cases found : s.table.find? (s.candidate op sort kind ts) with
  | some t =>
    have found' : r.table.find? (r.candidate op sort kind ts) = some t := by
      rw [candidate, levels.table, found]
    rw [intern_known found] at interns shape ⊢
    rw [intern_known found']
    have ht : s.Has t := interns.has
    cases interns'.known_or_new with
    | inl hit =>
      obtain ⟨rfl, hv⟩ := hit
      exact ⟨levels.tick, rfl, kind'⟩
    | inr miss =>
      obtain ⟨rfl, fresh, -⟩ := miss
      have known : i.Has v :=
        levels.known_below ht interns'.interned interns'.extension interns'.has shape
      cases fresh.symm.trans known
  | none =>
    have found' : r.table.find? (r.candidate op sort kind ts) = none := by
      rw [candidate, levels.table, found]
    rw [intern_miss found] at interns shape ⊢
    rw [intern_miss found', candidate]
    dsimp only at interns shape ⊢
    generalize made : s.candidate op sort kind ts = t at found interns shape ⊢
    cases interns'.known_or_new with
    | inl hit =>
      obtain ⟨rfl, hv⟩ := hit
      have known : s.Has t :=
        levels.known_above hv interns.interned interns.extension interns.has shape
      cases found.symm.trans known
    | inr miss =>
      obtain ⟨rfl, fresh, id⟩ := miss
      have proper : t.Within .proper := by
        subst made
        intro a occurs
        cases occurs with
        | here => exact ⟨sorted, used⟩
        | inChild child occurs => exact levels.proper _ (known _ child) a occurs
      refine ⟨levels.add interns'.interned interns.interned found fresh ?_ id shape proper,
        rfl, kind'⟩
      rw [← made]
      rfl

theorem of_blank (below : i.Blank) (above : s.Blank) (direct : r.Blank)
    (number : r.number = s.number) (supply : r.supply = s.supply)
    (aliasing : i.arbiter.aliasing = s.arbiter.aliasing ∧ r.arbiter.aliasing = s.arbiter.aliasing)
    (memos : i.arbiter.Faithful ∧ s.arbiter.Faithful ∧ r.arbiter.Faithful) : Levels i s r where
  number := number
  supply := supply
  table := direct.table.trans above.table.symm
  below := .of_empty below.table below.natives
  above := .of_empty above.table above.natives
  stands t ht := absurd ht (not_has_of_empty above.table t)
  covered v hv := absurd hv (not_has_of_empty below.table v)
  proper t ht := absurd ht (not_has_of_empty above.table t)
  symbols := direct.symbols.trans above.symbols.symm
  sorts sort := by
    rw [below.sorts, above.sorts, direct.sorts]
    exact ⟨rfl, rfl⟩
  declared := ⟨below.declared.trans above.declared.symm, direct.declared.trans above.declared.symm⟩
  aliasing := aliasing
  memos := memos
  made sort made found := by
    rw [above.sorts, Std.HashMap.getElem?_empty] at found
    cases found
  named name := by rw [below.symbols, above.symbols, Std.HashMap.contains_empty]
  assumptions n := by
    rw [below.assumptions, direct.assumptions, Std.HashMap.getElem?_empty]
    exact .none

theorem addSort (levels : Levels i s r) (sort : LogicSort) {sorts : Std.HashMap LogicSort LogicSort}
    (lookups : ∀ other : LogicSort,
      sorts[other]? = if sort == other then some sort else i.sorts[other]?) :
    Levels { i with sorts } { s with sorts := s.sorts.insert sort sort }
      { r with sorts := r.sorts.insert sort sort } :=
  { levels with
    toGraphs := levels.toGraphs.congr ⟨rfl, rfl, rfl, rfl⟩ ⟨rfl, rfl, rfl, rfl⟩ ⟨rfl, rfl, rfl, rfl⟩
    sorts := fun other => by
      have found := levels.sorts other
      rw [lookups, Std.HashMap.getElem?_insert, Std.HashMap.getElem?_insert, found.1, found.2]
      exact ⟨rfl, rfl⟩
    made := fun other made known => by
      rw [Std.HashMap.getElem?_insert] at known
      split at known
      · rename_i same
        cases known
        exact eq_of_beq same
      · exact levels.made other made known }

theorem addName (levels : Levels i s r) (name : String) :
    Levels { i with declared := i.declared.insert name }
      { s with declared := s.declared.insert name }
      { r with declared := r.declared.insert name } :=
  { levels with
    toGraphs := levels.toGraphs.congr ⟨rfl, rfl, rfl, rfl⟩ ⟨rfl, rfl, rfl, rfl⟩ ⟨rfl, rfl, rfl, rfl⟩
    declared :=
      ⟨congrArg (·.insert name) levels.declared.1, congrArg (·.insert name) levels.declared.2⟩ }

theorem addSymbol (levels : Levels i s r) (name : String) (v t : Term) :
    Levels { i with symbols := i.symbols.insert name v }
      { s with symbols := s.symbols.insert name t }
      { r with symbols := r.symbols.insert name t } :=
  { levels with
    toGraphs := levels.toGraphs.congr ⟨rfl, rfl, rfl, rfl⟩ ⟨rfl, rfl, rfl, rfl⟩ ⟨rfl, rfl, rfl, rfl⟩
    symbols := congrArg (·.insert name t) levels.symbols
    named := fun other => by
      rw [Std.HashMap.contains_insert, Std.HashMap.contains_insert, levels.named] }

theorem native (levels : Levels i s r) (genuine : s.Genuine t) :
    (∃ v n, Stands i s r t v n ∧ s.native t = .ok v ∧ r.native t = .ok n) ∨
      ∃ e, s.native t = .error e ∧ r.native t = .error e := by
  by_cases number : t.session = s.number
  · obtain ⟨v, n, stands⟩ := levels.stands t (genuine.has number)
    exact .inl ⟨v, n, stands, native_of_has number stands.above,
      native_of_has (number.trans levels.number.symm) stands.direct⟩
  · refine .inr ⟨.usage (.foreignTerm t), ?_, ?_⟩
    · rw [Session.native, if_pos number]
    · rw [Session.native, levels.number, if_pos number]

theorem native_below (levels : Levels i s r) (stands : Stands i s r t v n) : i.native v = .ok n :=
  native_of_has (levels.below.numbered v stands.below) stands.engine

end Levels

end Session

namespace Solver

open FormulaGraph.Action

/-- A solver that works on the engine directly. -/
abbrev Direct := Solver Enumerator LogicSort Handle

/-- A solver whose engine is a solver. -/
abbrev Stacked := Solver Direct LogicSort Term

/-- The engine is in the same state below and where it is used directly, and the sessions know the
same. -/
structure Level (n : Stacked) (m : Direct) : Prop where
  engine : m.engine = n.engine.engine
  sessions : Session.Levels n.engine.session n.session m.session

/-- Both answer the same or fail with the same error, and are again on one level. -/
abbrev Level.Alike {α : Type} (r : EStateM.Result Error Stacked α)
    (r' : EStateM.Result Error Direct α) : Prop :=
  Concur Level (fun a a' _ _ => a' = a) r r'

variable {α α' β β' γ γ' : Type} {i : Direct} {s : Session LogicSort Term}
    {n : Stacked} {m : Direct}

theorem Level.withEngine (level : Level ⟨i, s⟩ m) : Level (Solver.withEngine i s) m := by
  obtain ⟨notices, same⟩ := withEngine_eq (S := LogicSort) (T := Term) i s
  rw [same]
  exact ⟨level.engine, level.sessions.quiet _ _ _⟩

theorem stacked_ok {act : Action Direct α} {a : α} {j : Direct} (run : act i = .ok a j)
    (s : Session LogicSort Term) : ∃ notices,
      onEngine act ⟨i, s⟩ =
        .ok a ⟨⟨j.engine, { j.session with notices := #[] }⟩, { s with notices }⟩ := by
  obtain ⟨notices, same⟩ := withEngine_eq (S := LogicSort) (T := Term) j s
  refine ⟨notices, ?_⟩
  rw [onEngine, run]
  exact congrArg _ same

theorem onEngine_congr {act act' : Action Direct α} {i' : Direct} (same : act i = act' i')
    (s : Session LogicSort Term) : onEngine act ⟨i, s⟩ = onEngine act' ⟨i', s⟩ := by
  rw [onEngine, onEngine, same]

/-- The engine has answered both the same, and the sessions are as they were. -/
structure Called (act : Action Enumerator α) (i m : Direct) (a a' : α) (i' m' : Direct) : Prop where
  same : a' = a
  call : act i.engine = .ok a i'.engine
  below : i'.session = i.session
  direct : m'.session = m.session

theorem Level.onEngine (level : Level ⟨i, s⟩ m) (act : Action Enumerator α) :
    Concur (fun i m => Level ⟨i, s⟩ m) (Called act i m) (Solver.onEngine act i)
      (Solver.onEngine act m) := by
  obtain ⟨e, session⟩ := i
  obtain ⟨e', session'⟩ := m
  obtain ⟨engines, sessions⟩ := level
  obtain rfl : e' = e := engines
  cases called : act e' with
  | ok a e =>
    rw [onEngine_ok called, onEngine_ok called]
    exact .ok ⟨rfl, sessions⟩ ⟨rfl, called, rfl, rfl⟩
  | error x e =>
    rw [onEngine_error called, onEngine_error called]
    exact .error x ⟨rfl, sessions⟩

section Below

variable {above : α → Action Stacked β} {goal : β → β' → Stacked → Direct → Prop}
    {act : Action Direct γ}
  {next : γ → Action Direct α} {act' : Action Direct γ'} {next' : γ' → Action Direct β'}
  {post : γ → γ' → Direct → Direct → Prop}

/-- A first part of what is done below concurs with what is done directly; the rest, and what is
done above with its answer, concurs with the rest. -/
theorem Concur.below (first : Concur (fun i m => Level ⟨i, s⟩ m) post (act i) (act' m))
    (rest : ∀ c c' i m, Level ⟨i, s⟩ m → post c c' i m →
      Concur Level goal ((Solver.onEngine (next c) >>= above) ⟨i, s⟩) (next' c' m)) :
    Concur Level goal ((Solver.onEngine (act >>= next) >>= above) ⟨i, s⟩) ((act' >>= next') m) := by
  generalize left : act i = r, right : act' m = r' at first
  cases first with
  | @ok c c' j m' level holds =>
    have same : Solver.onEngine (act >>= next) ⟨i, s⟩ = Solver.onEngine (next c) ⟨j, s⟩ := by
      rw [Solver.onEngine, Solver.onEngine, bind_ok left]
    rw [bind_ok right, bind_of_eq same]
    exact rest _ _ _ _ level holds
  | error e level =>
    rw [bind_error right]
    have failed : ∃ n, Solver.onEngine (act >>= next) ⟨i, s⟩ = .error e n ∧ Level n _ :=
      ⟨_, by rw [Solver.onEngine, bind_error left], level.withEngine⟩
    obtain ⟨n, failed, level⟩ := failed
    rw [bind_error failed]
    exact .error e level

theorem Concur.lift {act : Action Direct α} {act' : Action Direct α'}
    {post : α → α' → Direct → Direct → Prop}
    {same : α → α' → Prop} (below : Concur (fun i m => Level ⟨i, s⟩ m) post (act i) (act' m))
    (holds : ∀ a a' i m, post a a' i m → same a a') :
    Concur Level (fun a a' _ _ => same a a') (Solver.onEngine act ⟨i, s⟩) (act' m) := by
  rw [Solver.onEngine]
  generalize act i = r, act' m = r' at below
  cases below with
  | ok level post => exact .ok level.withEngine (holds _ _ _ _ post)
  | error e level => exact .error e level.withEngine

end Below

end Solver

end FormulaGraph
