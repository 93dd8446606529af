import FormulaGraph.Proofs.SortArbiter
import FormulaGraph.Proofs.Solver.Calls
import FormulaGraph.Proofs.Solver.Parallel

/-!
Two solvers over engines in the same state, whose sessions differ by the numbers of sessions and
terms and by what they remember of derived sorts. They are alike: what their sessions know is found
under names that stand for each other, and what they ask of their engines is the same.
-/

namespace FormulaGraph

open FormulaGraph.Action

namespace Naming

variable {N N' : Naming} {t t' : Term}

/-- What tells canonical terms apart corresponds. -/
structure Keys (N : Naming) (k k' : TermKey) : Prop where
  op : k'.op = k.op
  sort : k'.sort = k.sort
  kind : k'.kind = k.kind
  children : List.Forall₂ N.ids k.children k'.children

theorem Keys.extend {k k' : TermKey} (keys : N.Keys k k') (extension : N.Extends N') :
    N'.Keys k k' :=
  ⟨keys.op, keys.sort, keys.kind, keys.children.imp extension.ids⟩

theorem Ordered.keys (ordered : N.Ordered) : OneToOne N.Keys := by
  intro k k' l l' first second
  have single := ordered.oneToOne
  have left : Relator.LeftUnique N.ids := fun i i' j named named' =>
    (single _ _ _ _ named named').mp rfl
  have right : Relator.RightUnique N.ids := fun i i' j named named' =>
    (single _ _ _ _ named named').mpr rfl
  constructor
  · rintro rfl
    obtain ⟨op, sort, kind, children⟩ := first
    obtain ⟨op', sort', kind', children'⟩ := second
    rw [TermKey.mk.injEq]
    exact ⟨op.symm.trans op', sort.symm.trans sort', kind.symm.trans kind',
      List.left_unique_forall₂' left children children'⟩
  · rintro rfl
    obtain ⟨op, sort, kind, children⟩ := first
    obtain ⟨op', sort', kind', children'⟩ := second
    rw [TermKey.mk.injEq]
    exact ⟨op.trans op'.symm, sort.trans sort'.symm, kind.trans kind'.symm,
      List.right_unique_forall₂' right children children'⟩

/-- One more pair of nodes corresponds. -/
def adding (N : Naming) (t t' : Term) : Naming := ⟨fun u u' => N.nodes u u' ∨ u = t ∧ u' = t'⟩

theorem extends_adding (N : Naming) (t t' : Term) : N.Extends (N.adding t t') :=
    ⟨fun _ _ h => .inl h⟩

theorem ordered_adding (ordered : N.Ordered)
    (bounded : ∀ u u', N.nodes u u' → u.id < t.id ∧ u'.id < t'.id) : (N.adding t t').Ordered := by
  rintro i i' j j' ⟨u, u', first | ⟨rfl, rfl⟩, rfl, rfl⟩ ⟨v, v', second | ⟨rfl, rfl⟩, rfl, rfl⟩
  · exact ordered _ _ _ _ ⟨u, u', first, rfl, rfl⟩ ⟨v, v', second, rfl, rfl⟩
  · have := bounded u u' first
    rw [Nat.compare_eq_lt.mpr this.1, Nat.compare_eq_lt.mpr this.2]
  · have := bounded v v' second
    rw [Nat.compare_eq_gt.mpr this.1, Nat.compare_eq_gt.mpr this.2]
  · rw [Nat.compare_eq_eq.mpr rfl, Nat.compare_eq_eq.mpr rfl]

end Naming

section Sessions

variable {S T : Type} [BEq T] [Hashable T]

/-- The sessions know the same, under names that stand for each other. -/
structure Session.Coupled (N : Naming) (s s' : Session S T) : Prop where
  ordered : N.Ordered
  current : s.number < s.supply.nextSession ∧ s'.number < s'.supply.nextSession
  bounded : ∀ t t', N.nodes t t' → t.id < s.supply.nextTerm ∧ t'.id < s'.supply.nextTerm
  sessions : ∀ t t', N.nodes t t' → t.session < s.supply.nextSession ∧
    t'.session < s'.supply.nextSession
  own : ∀ t t', N.nodes t t' → (t'.session = s'.number ↔ t.session = s.number)
  has : ∀ t t', N.nodes t t' → t.session = s.number → s.Has t
  aliasing : s'.arbiter.aliasing = s.arbiter.aliasing
  memo : s.arbiter.Faithful
  memo' : s'.arbiter.Faithful
  table : Matching Term.key N.Keys (Term.Renamed N) s.table.find? s'.table.find?
  size : s'.table.size = s.table.size
  natives : N.Maps Eq (s.natives[·]?) (s'.natives[·]?)
  sorts : s'.sorts = s.sorts
  declared : s'.declared = s.declared
  symbols : ∀ name : String, Option.Rel (Term.Renamed N) s.symbols[name]? s'.symbols[name]?
  assumptions : ∀ n : T, Option.Rel (Term.Renamed N) s.assumptions[n]? s'.assumptions[n]?

/-- Nothing was made in the session yet. -/
structure Session.Blank (s : Session S T) : Prop where
  table : s.table = {}
  natives : s.natives = {}
  sorts : s.sorts = {}
  declared : s.declared = {}
  symbols : s.symbols = {}
  assumptions : s.assumptions = {}

namespace Session

variable {N N' : Naming} {s s' : Session S T} {op : Op} {sort : LogicSort} {kind : TermKind}
  {children children' : List Term} {t t' : Term}

theorem intern_known (found : s.table.find? (s.candidate op sort kind children) = some t)
    (native : T) :
    s.intern op sort kind children native = (t, s.tick) := by
  rw [Session.candidate] at found
  rw [Session.intern]
  simp only [found]
  rfl

theorem blurred_find (table : TermTable) : Blurred Term.key table.find? := by
  intro t u same
  rw [TermTable.find?, TermTable.find?, same]

theorem size_insert_new {table : TermTable} (fresh : table.find? t = none) :
    (table.insert t).2.size = table.size + 1 := by
  have added : (table.insert t).1 = true := by
    rw [TermTable.find?] at fresh
    simp [TermTable.insert, fresh, Std.HashMap.contains_eq_isSome_getElem?]
  rw [TermTable.size_insert, added, if_pos rfl]

namespace Coupled

theorem native (coupled : s.Coupled N s') (renamed : t.Renamed N t') :
    Answers Eq (s.native t) (s'.native t') := by
  have numbers := coupled.own t t' renamed.nodes
  have found := Naming.find coupled.natives coupled.ordered renamed.id
  rw [Session.native, Session.native]
  by_cases foreign : t.session ≠ s.number
  · rw [if_pos foreign, if_pos (fun own => foreign (numbers.mp own))]
    exact .error (Error.Alike.foreignTerm (Term.render_same renamed.shape))
  · rw [if_neg foreign, if_neg (fun foreign' => foreign fun own => foreign' (numbers.mpr own))]
    generalize s.natives[t]? = v, s'.natives[t']? = v' at found
    cases found with
    | some same => exact .ok same
    | none => exact .error (Error.Alike.noEngineTerm (Term.render_same renamed.shape))

theorem genuine (coupled : s.Coupled N s') (renamed : t.Renamed N t') : s.Genuine t := by
  intro a occurs own
  obtain ⟨a', nodes⟩ := renamed.node_of_occursIn occurs
  exact coupled.has a a' nodes own

theorem of_blank (blank : s.Blank) (blank' : s'.Blank) (current : s.number < s.supply.nextSession)
    (current' : s'.number < s'.supply.nextSession)
    (aliasing : s'.arbiter.aliasing = s.arbiter.aliasing)
    (memo : s.arbiter.Faithful) (memo' : s'.arbiter.Faithful) : s.Coupled .empty s' where
  ordered _ _ _ _ := by
    rintro ⟨_, _, node, _⟩
    exact node.elim
  current := ⟨current, current'⟩
  bounded _ _ node := node.elim
  sessions _ _ node := node.elim
  own _ _ node := node.elim
  has _ _ node := node.elim
  aliasing := aliasing
  memo := memo
  memo' := memo'
  table := by
    rw [blank.table, blank'.table]
    exact .empty (fun _ => Std.HashMap.getElem?_empty) fun _ => Std.HashMap.getElem?_empty
  size := by rw [blank.table, blank'.table]
  natives := by
    rw [blank.natives, blank'.natives]
    exact .empty (fun _ => Std.HashMap.getElem?_empty) fun _ => Std.HashMap.getElem?_empty
  sorts := by rw [blank.sorts, blank'.sorts]
  declared := by rw [blank.declared, blank'.declared]
  symbols name := by
    rw [blank.symbols, blank'.symbols, Std.HashMap.getElem?_empty]
    exact .none
  assumptions n := by
    rw [blank.assumptions, blank'.assumptions, Std.HashMap.getElem?_empty]
    exact .none

theorem extend (coupled : s.Coupled N s') {supply supply' : Supply} (drawn : s.supply.Drawn supply)
    (drawn' : s'.supply.Drawn supply') (extension : N.Extends N') (ordered : N'.Ordered)
    (bounded : ∀ t t', N'.nodes t t' → t.id < supply.nextTerm ∧ t'.id < supply'.nextTerm)
    (sessions : ∀ t t', N'.nodes t t' → t.session < supply.nextSession ∧
      t'.session < supply'.nextSession)
    (own : ∀ t t', N'.nodes t t' → (t'.session = s'.number ↔ t.session = s.number))
    (has : ∀ t t', N'.nodes t t' → t.session = s.number → s.Has t) :
    Coupled N' { s with supply } { s' with supply := supply' } where
  ordered := ordered
  current := ⟨Nat.lt_of_lt_of_le coupled.current.1 drawn.nextSession,
    Nat.lt_of_lt_of_le coupled.current.2 drawn'.nextSession⟩
  bounded := bounded
  sessions := sessions
  own := own
  has := has
  aliasing := coupled.aliasing
  memo := coupled.memo
  memo' := coupled.memo'
  table := coupled.table.imp (fun _ _ keys => keys.extend extension) fun _ _ renamed =>
    renamed.extend extension
  size := coupled.size
  natives := coupled.natives.imp extension.ids fun _ _ same => same
  sorts := coupled.sorts
  declared := coupled.declared
  symbols name := optionRel_imp (coupled.symbols name) fun _ _ renamed => renamed.extend extension
  assumptions n := optionRel_imp (coupled.assumptions n) fun _ _ renamed => renamed.extend extension

theorem tick (coupled : s.Coupled N s') : Coupled N s.tick s'.tick := by
  refine coupled.extend ⟨Nat.le_succ _, Nat.le_refl _⟩ ⟨Nat.le_succ _, Nat.le_refl _⟩ (.refl N)
    coupled.ordered (fun t t' nodes => ?_) coupled.sessions coupled.own coupled.has
  have := coupled.bounded t t' nodes
  exact ⟨Nat.lt_succ_of_lt this.1, Nat.lt_succ_of_lt this.2⟩

theorem add (coupled : s.Coupled N s') (keys : N.Keys t.key t'.key) (id : t.id = s.supply.nextTerm)
    (id' : t'.id = s'.supply.nextTerm) (number : t.session = s.number)
    (number' : t'.session = s'.number)
    (fresh : s.table.find? t = none) (fresh' : s'.table.find? t' = none)
    (renamed : t.Renamed (N.adding t t') t') (native : T) :
    Coupled (N.adding t t') (s.add t native) (s'.add t' native) := by
  have extension := N.extends_adding t t'
  have ordered := Naming.ordered_adding coupled.ordered (id ▸ id' ▸ coupled.bounded)
  have table : Matching Term.key (N.adding t t').Keys (Term.Renamed (N.adding t t'))
      (s.add t native).table.find? (s'.add t' native).table.find? := by
    have before := coupled.table.imp (fun _ _ keys => keys.extend extension) fun _ _ renamed =>
      Term.Renamed.extend renamed extension
    refine before.insert ordered.keys (keys.extend extension) renamed (fun u => ?_) fun u => ?_
    · rw [Session.add, TermTable.find?_insert, fresh]
      rfl
    · rw [Session.add, TermTable.find?_insert, fresh']
      rfl
  have natives :=
    Naming.insertTable (coupled.natives.imp extension.ids fun _ _ same => same) ordered
      renamed.id (rfl : native = native)
  exact {
    ordered := ordered
    current := coupled.current
    bounded := by
      rintro u u' (old | ⟨rfl, rfl⟩)
      · have := coupled.bounded u u' old
        exact ⟨Nat.lt_succ_of_lt this.1, Nat.lt_succ_of_lt this.2⟩
      · exact ⟨id ▸ Nat.lt_succ_self _, id' ▸ Nat.lt_succ_self _⟩
    sessions := by
      rintro u u' (old | ⟨rfl, rfl⟩)
      · exact coupled.sessions u u' old
      · exact number ▸ number' ▸ coupled.current
    own := by
      rintro u u' (old | ⟨rfl, rfl⟩)
      · exact coupled.own u u' old
      · exact ⟨fun _ => number, fun _ => number'⟩
    has := by
      rintro u u' (old | ⟨rfl, rfl⟩) here
      · exact (has_add fresh native).mpr (.inl (coupled.has u u' old here))
      · exact (has_add fresh native).mpr (.inr rfl)
    aliasing := coupled.aliasing
    memo := coupled.memo
    memo' := coupled.memo'
    table := table
    size := by
      rw [Session.add, Session.add, size_insert_new fresh, size_insert_new fresh', coupled.size]
    natives := natives
    sorts := coupled.sorts
    declared := coupled.declared
    symbols := fun name => optionRel_imp (coupled.symbols name) fun _ _ renamed =>
      renamed.extend extension
    assumptions := fun n =>
      optionRel_imp (coupled.assumptions n) fun _ _ renamed => renamed.extend extension }

end Coupled

end Session

end Sessions

namespace Solver

variable {σ S T α : Type} [BEq T] [Hashable T] {N N' : Naming} {s s' : Solver σ S T} {t t' : Term}
  {ts ts' : List Term} {op : Op} {sort : LogicSort} {kind : TermKind}

theorem update_apply (change : Session S T → α × Session S T) (s : Solver σ S T) :
    update change s = .ok (change s.session).1 ⟨s.engine, (change s.session).2⟩ := rfl

/-- The engines are in the same state, and the sessions know the same. -/
structure Coupled (N : Naming) (s s' : Solver σ S T) : Prop where
  engine : s'.engine = s.engine
  session : s.session.Coupled N s'.session

/-- What is made of the terms in both solvers corresponds. -/
abbrev AgreeTerm (N : Naming) (r r' : EStateM.Result Error (Solver σ S T) Term) : Prop :=
  Agree Coupled N Term.Renamed r r'

namespace Coupled

theorem record {change change' : Session S T → Session S T} (coupled : s.Coupled N s')
    (kept : (change s.session).Coupled N (change' s'.session)) :
    Agree Coupled N Same (Solver.record change s) (Solver.record change' s') :=
  .ok (.refl N) ⟨coupled.engine, kept⟩ rfl

theorem native (coupled : s.Coupled N s') (renamed : t.Renamed N t') :
    Agree Coupled N Same (Solver.native t s) (Solver.native t' s') :=
  ask_agree coupled <| (coupled.session.native renamed).imp fun _ _ same => same.symm

theorem natives (coupled : s.Coupled N s') (renamed : List.Forall₂ (Term.Renamed N) ts ts') :
    Agree Coupled N Same (Solver.natives ts s) (Solver.natives ts' s') := by
  induction ts generalizing N s s' ts' with
  | nil =>
    cases renamed
    exact .pure coupled rfl
  | cons t ts ih =>
    cases renamed with
    | cons first rest =>
      rw [Solver.natives, Solver.natives, List.mapM_cons, List.mapM_cons]
      refine (coupled.native first).bind_same fun N₁ n s₁ s₁' extension coupled => ?_
      refine (ih coupled (Term.Renamed.extend_all rest extension)).bind_same ?_
      exact fun N₂ ns s₂ s₂' _ coupled => .pure coupled rfl

theorem intern {children children' : List Term} (coupled : s.Coupled N s')
    (renamed : List.Forall₂ (Term.Renamed N) children children') (n : T) :
    AgreeTerm N (update (Session.intern op sort kind children n) s)
      (update (Session.intern op sort kind children' n) s') := by
  obtain ⟨engine, session⟩ := s
  obtain ⟨_, session'⟩ := s'
  obtain ⟨rfl, coupled⟩ := coupled
  have keys : N.Keys (session.candidate op sort kind children).key
      (session'.candidate op sort kind children').key := by
    refine ⟨rfl, rfl, rfl, ?_⟩
    rw [Session.candidate, Session.candidate, Term.key, Term.key, List.forall₂_map_left_iff,
      List.forall₂_map_right_iff]
    exact renamed.imp fun _ _ renamed => renamed.id
  have found := coupled.table.lookup coupled.ordered.keys (Session.blurred_find _)
    (Session.blurred_find _) keys
  rw [update_apply, update_apply]
  dsimp only
  generalize left : session.table.find? _ = v, right : session'.table.find? _ = v' at found
  cases found with
  | some same =>
    rw [Session.intern_known left, Session.intern_known right]
    exact .ok (.refl N) ⟨rfl, coupled.tick⟩ same
  | none =>
    rw [Session.intern_miss left, Session.intern_miss right]
    generalize candidate : session.candidate op sort kind children = t at left keys ⊢
    generalize candidate' : session'.candidate op sort kind children' = t' at right keys ⊢
    have extension := N.extends_adding t t'
    have made : Term.Renamed (N.adding t t') t t' := by
      refine .node (.inr ⟨rfl, rfl⟩) keys.op keys.sort keys.kind ?_
      subst candidate candidate'
      exact Term.Renamed.extend_all renamed extension
    refine .ok extension ⟨rfl, coupled.add keys ?_ ?_ ?_ ?_ left right made n⟩ made
    all_goals subst candidate candidate'; rfl

variable [Engine σ S T]

theorem onEngine (coupled : s.Coupled N s') (act : Action σ α) :
    Agree Coupled N Same (Solver.onEngine act s) (Solver.onEngine act s') := by
  obtain ⟨e, session⟩ := s
  obtain ⟨e', session'⟩ := s'
  obtain ⟨engines, coupled⟩ := coupled
  obtain rfl : e' = e := engines
  have kept : ∀ e : σ, Coupled N (withEngine e session) (withEngine e session') := by
    intro e
    obtain ⟨notices, left⟩ := withEngine_eq (S := S) (T := T) e session
    obtain ⟨notices', right⟩ := withEngine_eq (S := S) (T := T) e session'
    rw [left, right]
    exact ⟨rfl, { coupled with }⟩
  unfold Solver.onEngine
  dsimp only
  cases act e' with
  | ok a e => exact .ok (.refl N) (kept e) rfl
  | error x e => exact .error (.refl N) (kept e) (.refl x)

end Coupled

end Solver

end FormulaGraph
