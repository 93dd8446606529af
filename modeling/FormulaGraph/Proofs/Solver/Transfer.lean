import FormulaGraph.Proofs.Rewrite.Invariant
import FormulaGraph.Proofs.Solver.Making

/-!
Moving terms between sessions on the enumerating engine. What comes out has the shape of what went
in; moving a term whose counterpart is there already makes nothing new and answers that counterpart,
so moving a term to and fro leads back to it.
-/

namespace FormulaGraph.Solver

open FormulaGraph.Action Rewriter

variable {e d d' : Solver Enumerator LogicSort Handle} {t u : Term} {ts news : List Term}
  {cache : TermMap}

/-- What is known of the terms of a session are their counterparts in another. -/
def Counterparts (e d : Solver Enumerator LogicSort Handle) (cache : TermMap) : Prop :=
  ∀ a u : Term, e.session.Has a → cache[a]? = some u → d.session.Has u ∧ u.shape = a.shape

theorem counterparts_empty (e d : Solver Enumerator LogicSort Handle) : Counterparts e d {} := by
  intro a u _ found
  simp at found

theorem Counterparts.extend (counterparts : Counterparts e d cache)
    (extension : d.session.Extends d'.session) : Counterparts e d' cache := by
  intro a u ha found
  obtain ⟨hu, shape⟩ := counterparts a u ha found
  exact ⟨extension.has u hu, shape⟩

theorem Counterparts.insert (counterparts : Counterparts e d cache) (interned : e.session.Interned)
    (ht : e.session.Has t) (hu : d.session.Has u) (shape : u.shape = t.shape) :
    Counterparts e d (cache.insert t u) := by
  intro a v ha found
  rw [Std.HashMap.getElem?_insert] at found
  split at found
  · rename_i same
    rw [← interned.identified t a ht ha (Term.beq_iff.mp same)]
    cases found
    exact ⟨hu, shape⟩
  · exact counterparts a v ha found

theorem Counterparts.resolve (counterparts : Counterparts e d cache)
    (known : ∀ t ∈ ts, e.session.Has t) (resolved : ∀ t ∈ ts, cache.contains t = true) :
    (∀ u ∈ ts.map fun t => cache.getD t t, d.session.Has u) ∧
      (ts.map fun t => cache.getD t t).map Term.shape = ts.map Term.shape := by
  have each : ∀ t ∈ ts, d.session.Has (cache.getD t t) ∧ (cache.getD t t).shape = t.shape := by
    intro t ht
    have found := resolved t ht
    rw [Std.HashMap.contains_eq_isSome_getElem?, Option.isSome_iff_exists] at found
    obtain ⟨u, found⟩ := found
    rw [Std.HashMap.getD_eq_getD_getElem?, found]
    exact counterparts t u (known t ht) found
  refine ⟨List.forall_mem_map.mpr fun t ht => (each t ht).1, ?_⟩
  rw [List.map_map]
  exact List.map_congr_left fun t ht => (each t ht).2

theorem translator_visit (t : Term) (news : List Term) (s : Solver Enumerator LogicSort Handle) :
    translator.visit t news s = (Step.replace <$> translate t news : Action _ Step) s := rfl

theorem translator_goes_on (t : Term) (news : List Term)
    (s s' : Solver Enumerator LogicSort Handle) :
    translator.visit t news s ≠ .ok .abort s' := by
  intro visited
  rw [translator_visit] at visited
  cases translated : translate t news s with
  | ok u s'' => cases (map_ok translated).symm.trans visited
  | error x s'' => cases (map_error translated).symm.trans visited

theorem transfer_eq (t : Term) (d : Solver Enumerator LogicSort Handle) :
    transfer t d =
      match Walker.visit translator t ({ clears := true }, d) with
      | .ok u (_, d') => .ok u d'
      | .error x (_, d') => .error x d' := by
  cases visited : Walker.visit translator t ({ clears := true }, d) with
  | ok u after =>
    have walked : walkWith translator { clears := true } t d = .ok (after.1, u) after.2 := by
      rw [walkWith, visited]
    rw [transfer, bind_ok walked]
    rfl
  | error x after =>
    have walked : walkWith translator { clears := true } t d = .error x after.2 := by
      rw [walkWith, visited]
    rw [transfer, bind_error walked]

section Sound

/-- A walk from the first state has come to the second, and knows of counterparts alone. -/
def Moved (e d : Solver Enumerator LogicSort Handle) (cache : TermMap)
    (d' : Solver Enumerator LogicSort Handle) : Prop :=
  Kept Enumerator.contract d d' ∧ Counterparts e d' cache

variable (source : e.Coherent Enumerator.contract) (tidy : e.Tidy)

include source tidy

theorem Moved.settles (moved : Moved e d cache d') (ht : e.session.Has t)
    (resolved : resolved cache t t.children = .ok news) :
    Settles (Moved e d) Error.Plain cache t (translator.settle t news d') := by
  obtain ⟨kept, counterparts⟩ := moved
  have children := fun c hc => (source.canonical.children t ht c hc).1
  obtain ⟨known, rfl⟩ := resolved_ok resolved
  obtain ⟨has, shapes⟩ := counterparts.resolve children known
  have led := keeps_translation kept.coherent (tidy.movable source ht) has shapes
  rw [Rewriter.settle, translator_visit]
  cases translated : translate t (t.children.map fun c => cache.getD c c) d' with
  | ok u d'' =>
    obtain ⟨kept', hu, shape, -⟩ := led.answer translated
    rw [map_ok translated]
    exact ⟨kept.trans Enumerator.contract_honoured kept',
      (counterparts.extend kept'.extension).insert source.canonical.toInterned ht hu shape⟩
  | error x d'' =>
    obtain ⟨kept', plain⟩ := led.failure translated
    rw [map_error translated]
    exact ⟨⟨kept.trans Enumerator.contract_honoured kept', counterparts.extend kept'.extension⟩,
      plain⟩

/-- What comes out of a transfer is a term of the target with the shape of what went in. -/
theorem transfer_shape (target : d.Coherent Enumerator.contract) (ht : e.session.Has t)
    (done : transfer t d = .ok u d') :
    Kept Enumerator.contract d d' ∧ d'.session.Has u ∧ u.shape = t.shape := by
  have walked : Ending.Within (Moved e d) Error.Plain (translator.walk {} {} d [t]) := by
    refine walk_within (fun a ha c hc => (source.canonical.children a ha c hc).1) ?_ (fun _ h => h)
      {} {} d [t] ?_ (List.forall_mem_singleton.mpr ht)
    · exact fun cache d' a news moved ha found => moved.settles source tidy ha found
    · exact ⟨.refl Enumerator.contract_honoured target, counterparts_empty e d⟩
  have held := Walker.visit_within (w := { clears := true }) (fun _ h => h) walked
  rw [transfer_eq] at done
  cases visited : Walker.visit translator t ({ clears := true }, d) with
  | error x after =>
    rw [visited] at done
    cases done
  | ok v after =>
    obtain ⟨w, d''⟩ := after
    rw [visited] at done held
    cases done
    obtain ⟨⟨kept, counterparts⟩, -⟩ := held
    exact ⟨kept, counterparts t u ht (Walker.known_of_visit translator_goes_on visited)⟩

end Sound

section Complete

/-- The session has a counterpart of the term. -/
def Knows (d : Solver Enumerator LogicSort Handle) (t : Term) : Prop :=
  ∃ u, d.session.Has u ∧ u.shape = t.shape

/-- The counterpart of a node is there, or it can be made along with those of others of its
session. -/
def Welcomes (d : Solver Enumerator LogicSort Handle) (t : Term) : Prop :=
  d.Knows t ∨ (∃ bits, t.sort.searchBits = .ok bits) ∧
    ∀ name k, t.kind = .symbol name → d.session.symbols[name]? = some k → k.sort = t.sort

/-- A walk over these terms has come from the first state to the second. -/
structure Arrived (e d : Solver Enumerator LogicSort Handle) (ts : List Term) (cache : TermMap)
    (d' : Solver Enumerator LogicSort Handle) : Prop where
  kept : Kept Enumerator.contract d d'
  tidy : d'.Tidy
  counterparts : Counterparts e d' cache
  only : ∀ u, d'.session.Has u → d.session.Has u ∨ ∃ a, e.session.Has a ∧ u.shape = a.shape
  same : (∀ t ∈ ts, d.Knows t) → SameTerms d d'

theorem Knows.extend (knows : d.Knows t) (extension : d.session.Extends d'.session) :
    d'.Knows t := by
  obtain ⟨u, hu, shape⟩ := knows
  exact ⟨u, extension.has u hu, shape⟩

theorem Knows.child (knows : d.Knows t) (interned : d.session.Interned) {c : Term}
    (hc : c ∈ t.children) : d.Knows c := by
  obtain ⟨u, hu, shape⟩ := knows
  have shapes := (Term.shape_eq_iff.mp shape).2.2.2
  have member : c.shape ∈ u.children.map Term.shape := shapes ▸ List.mem_map_of_mem hc
  obtain ⟨k, hk, same⟩ := List.mem_map.mp member
  exact ⟨k, (interned.children u hu k hk).1, same⟩

theorem Knows.of_occursIn (knows : d.Knows t) (interned : d.session.Interned) {a : Term}
    (occurs : a.OccursIn t) : d.Knows a := by
  induction occurs with
  | here => exact knows
  | inChild hc _ ih => exact ih (knows.child interned hc)

theorem Welcomes.accepts (welcomes : d.Welcomes t) (coherent : d.Coherent Enumerator.contract)
    (tidy : d.Tidy) : d.Accepts t := by
  obtain ⟨u, hu, shape⟩ | ⟨⟨bits, counted⟩, names⟩ := welcomes
  · exact tidy.accepts coherent hu shape
  · unfold Accepts
    cases kind : t.kind with
    | symbol name =>
      cases found : d.session.symbols[name]? with
      | some k => simpa [found] using names name k kind found
      | none => simpa [found] using ⟨bits, counted⟩
    | value | constArray => exact .inr ⟨bits, counted⟩
    | application => trivial

theorem Arrived.refl (target : d.Coherent Enumerator.contract) (tidy : d.Tidy)
    (counterparts : Counterparts e d cache) : Arrived e d ts cache d :=
  ⟨.refl Enumerator.contract_honoured target, tidy, counterparts, fun _ hu =>
    .inl hu, fun _ => .refl d⟩

theorem Arrived.trans {us vs : List Term} {cache' : TermMap}
    {d'' : Solver Enumerator LogicSort Handle}
    (first : Arrived e d ts cache d') (second : Arrived e d' us cache' d'')
    (parts : (∀ v ∈ vs, d.Knows v) → (∀ t ∈ ts, d.Knows t) ∧ ∀ u ∈ us, d.Knows u) :
    Arrived e d vs cache' d'' where
  kept := first.kept.trans Enumerator.contract_honoured second.kept
  tidy := second.tidy
  counterparts := second.counterparts
  only u hu := by
    cases second.only u hu with
    | inl hu => exact first.only u hu
    | inr new => exact .inr new
  same known := (first.same (parts known).1).trans
    (second.same fun u hu => ((parts known).2 u hu).extend first.kept.extension)

variable (source : e.Coherent Enumerator.contract)

include source

theorem Welcomes.after (welcomes : d.Welcomes t) (ht : e.session.Has t)
    (arrived : Arrived e d ts cache d') (target : d.Coherent Enumerator.contract) :
    d'.Welcomes t := by
  obtain knows | ⟨counted, names⟩ := welcomes
  · exact .inl (knows.extend arrived.kept.extension)
  · refine .inr ⟨counted, fun name k kind found => ?_⟩
    obtain ⟨hk, kind'⟩ := (arrived.kept.coherent.canonical.symbols name k).mp found
    obtain hk | ⟨a, ha, shape⟩ := arrived.only k hk
    · exact names name k kind ((target.canonical.symbols name k).mpr ⟨hk, kind'⟩)
    · -- A session has one symbol of each name.
      obtain ⟨-, sort, kind'', -⟩ := Term.shape_eq_iff.mp shape
      have first := (source.canonical.symbols name a).mpr ⟨ha, kind''.symm.trans kind'⟩
      have second := (source.canonical.symbols name t).mpr ⟨ht, kind⟩
      cases first.symm.trans second
      exact sort

theorem rewriteAll_moves
    (each : ∀ t ∈ ts, ∀ cache (d : Solver Enumerator LogicSort Handle),
      d.Coherent Enumerator.contract → d.Tidy → Counterparts e d cache → e.session.Has t →
      (∀ a, a.OccursIn t → d.Welcomes a) →
      Succeeds (Rewriter.rewrite translator t) (cache, d)
        fun _ (cache', d') => Arrived e d [t] cache' d')
    (target : d.Coherent Enumerator.contract) (tidy : d.Tidy)
    (counterparts : Counterparts e d cache)
    (known : ∀ t ∈ ts, e.session.Has t) (welcomes : ∀ t ∈ ts, ∀ a, a.OccursIn t → d.Welcomes a) :
    Succeeds (Rewriter.rewriteAll translator ts) (cache, d)
      fun _ (cache', d') => Arrived e d ts cache' d' := by
  induction ts with
  | nil =>
    rw [Rewriter.rewriteAll]
    exact succeeds_pure (.refl target tidy counterparts)
  | cons t ts ih =>
    obtain ⟨ht, known⟩ := List.forall_mem_cons.mp known
    obtain ⟨first, others⟩ := List.forall_mem_cons.mp each
    obtain ⟨welcome, welcomes⟩ := List.forall_mem_cons.mp welcomes
    rw [Rewriter.rewriteAll]
    refine (ih others known welcomes).bind ?_
    rintro _ ⟨cache₁, d₁⟩ arrived₁
    have still : ∀ a, a.OccursIn t → d₁.Welcomes a := fun a ha =>
      (welcome a ha).after source (source.canonical.has_of_occursIn ht ha) arrived₁ target
    refine (first cache₁ d₁ arrived₁.kept.coherent arrived₁.tidy
      arrived₁.counterparts ht still).mono ?_
    rintro _ ⟨cache₂, d₂⟩ arrived₂
    refine arrived₁.trans arrived₂ fun knows => ?_
    exact ⟨fun u hu => knows u (List.mem_cons_of_mem _ hu),
      List.forall_mem_singleton.mpr (knows t List.mem_cons_self)⟩

variable (order : e.Tidy)

include order

theorem finish_moves (target : d.Coherent Enumerator.contract) (tidy : d.Tidy)
    (counterparts : Counterparts e d cache) (ht : e.session.Has t) (welcomes : d.Welcomes t)
    (known : ∀ u ∈ news, d.session.Has u)
    (shapes : news.map Term.shape = t.children.map Term.shape) :
    Succeeds (Rewriter.finish translator t news) (cache, d)
      fun _ (cache', d') => Arrived e d [t] cache' d' := by
  have movable := order.movable source ht
  have moves := (keeps_translation target movable known shapes).and
    (translate_succeeds target tidy movable known shapes (welcomes.accepts target tidy))
  obtain ⟨u, d', run, stays, -, kept, ⟨hu, shape, frugal⟩, -⟩ :=
    (frames_translate tidy t news).and moves
  have visited : translator.visit t news d = .ok (.replace u) d' := map_ok run
  rw [Rewriter.finish, Succeeds, bind_ok (perform_ok visited cache)]
  refine ⟨(), _, rfl, kept, stays.tidy, ?_, fun v hv => ?_, fun knows => ?_⟩
  · exact (counterparts.extend kept.extension).insert source.canonical.toInterned ht hu shape
  · cases frugal.only v hv with
    | inl hv => exact .inl hv
    | inr same => exact .inr ⟨t, ht, same ▸ shape⟩
  · obtain ⟨k, hk, shape'⟩ := knows t List.mem_cons_self
    have interned := kept.coherent.canonical.toInterned
    have same := interned.eq_of_shape (kept.extension.has k hk) hu (shape'.trans shape.symm)
    exact frugal.same (same ▸ hk)

theorem rewrite_moves (target : d.Coherent Enumerator.contract) (tidy : d.Tidy)
    (counterparts : Counterparts e d cache) (ht : e.session.Has t)
    (welcomes : ∀ a, a.OccursIn t → d.Welcomes a) :
    Succeeds (Rewriter.rewrite translator t) (cache, d)
      fun _ (cache', d') => Arrived e d [t] cache' d' := by
  induction t generalizing cache d with
  | node t ih =>
    cases known : cache.contains t with
    | true =>
      rw [Succeeds, rewrite_known known]
      exact ⟨(), _, rfl, .refl target tidy counterparts⟩
    | false =>
      have children := fun c hc => (source.canonical.children t ht c hc).1
      have acyclic := (source.canonical.ordered ht).acyclic
      have progress := rewriteAll_progress (r := translator)
        (fun c hc => rewrite_progress translator (acyclic.child hc)) cache d
      obtain ⟨_, ⟨cache₁, d₁⟩, run, arrived₁⟩ := rewriteAll_moves source
        (fun c hc _ _ target tidy counterparts => ih c hc target tidy counterparts) target tidy
        counterparts children fun c hc a ha => welcomes a (.inChild hc ha)
      rw [run] at progress
      obtain ⟨news, shapes⟩ := arrived₁.counterparts.resolve children progress.2
      rw [Succeeds, rewrite_unknown known, bind_ok run, bind_ok (images_apply _ _ _)]
      refine (finish_moves source order arrived₁.kept.coherent arrived₁.tidy
        arrived₁.counterparts ht
        ((welcomes t .here).after source ht arrived₁ target) news shapes).mono ?_
      rintro _ ⟨cache₂, d₂⟩ arrived₂
      refine arrived₁.trans arrived₂ fun knows => ⟨fun c hc => ?_, knows⟩
      exact (knows t List.mem_cons_self).child target.canonical.toInterned hc

/-- A term is moved if all its nodes are welcome. If its counterpart was there before, nothing is
made. -/
theorem transfer_succeeds (target : d.Coherent Enumerator.contract) (tidy : d.Tidy)
    (ht : e.session.Has t) (welcomes : ∀ a, a.OccursIn t → d.Welcomes a) :
    Succeeds (transfer t) d fun u d' => Kept Enumerator.contract d d' ∧ d'.Tidy ∧
      (d'.session.Has u ∧ u.shape = t.shape) ∧ (d.Knows t → SameTerms d d') := by
  have acyclic := (source.canonical.ordered ht).acyclic
  have progress := translator.rewrite_progress acyclic {} d
  obtain ⟨_, ⟨cache, d'⟩, run, arrived⟩ :=
    rewrite_moves source order target tidy (counterparts_empty e d) ht welcomes
  rw [run] at progress
  have found := progress.2
  rw [Std.HashMap.contains_eq_isSome_getElem?, Option.isSome_iff_exists] at found
  obtain ⟨u, found⟩ := found
  have visited : Walker.visit translator t ({ clears := true }, d) =
      .ok u ({ clears := true, cache, aborted := false }, d') := by
    rw [Walker.visit_eq_recurse _ acyclic _ rfl, Walker.recurse]
    simp only [if_true, run, Std.HashMap.getD_eq_getD_getElem?, found, Option.getD_some]
  refine ⟨u, d', ?_, arrived.kept, arrived.tidy, arrived.counterparts t u ht found, fun knows => ?_⟩
  · rw [transfer_eq, visited]
  · exact arrived.same (List.forall_mem_singleton.mpr knows)

/-- Moving the term answers this one, and makes nothing new. -/
def MovesTo (d : Solver Enumerator LogicSort Handle) (t u : Term) : Prop :=
  ∃ d', transfer t d = .ok u d' ∧ SameTerms d d'

theorem movesTo_of_shape (target : d.Coherent Enumerator.contract) (tidy : d.Tidy)
    (ht : e.session.Has t) (hu : d.session.Has u) (shape : u.shape = t.shape) : d.MovesTo t u := by
  have knows : ∀ a, a.OccursIn t → d.Knows a := fun a ha =>
    Knows.of_occursIn ⟨u, hu, shape⟩ target.canonical.toInterned ha
  obtain ⟨v, d', done, kept, -, ⟨hv, shape'⟩, same⟩ := transfer_succeeds source order target tidy ht
    fun a ha => .inl (knows a ha)
  have eq := kept.coherent.canonical.toInterned.eq_of_shape hv (kept.extension.has u hu)
    (shape'.trans shape.symm)
  exact ⟨d', eq ▸ done, same (knows t .here)⟩

end Complete

theorem Run.settled {s : Solver Enumerator LogicSort Handle} {issued : List Term}
    (run : Run Enumerator.Unused s issued) : s.Coherent Enumerator.contract ∧ s.Tidy := by
  obtain ⟨scopes, history⟩ := run.history
  exact ⟨(history.fresh.coherent Enumerator.contract_honoured).1, history.asserted.1⟩

/-- Transfer is an isomorphism: what comes out is a term of the target of the same shape. Now and
later the term is moved to it again, and it is moved back to the term it came from, without anything
being made. -/
theorem transfer_round_trip {s : Solver Enumerator LogicSort Handle} {issued issued' : List Term}
    (source : Run Enumerator.Unused s issued) (target : Run Enumerator.Unused d issued')
    (ht : s.session.Has t) (done : transfer t d = .ok u d') :
    (d'.session.Has u ∧ u.session = d.session.number ∧ u.shape = t.shape) ∧
      d'.MovesTo t u ∧ (s = d → d'.MovesTo u t) ∧
      (∀ d'' later, Run Enumerator.Unused d'' later → d'.session.Extends d''.session →
        d''.MovesTo t u) ∧
      ∀ s' later, Run Enumerator.Unused s' later → s.session.Extends s'.session →
        s'.MovesTo u t ∧ s'.MovesTo t t := by
  obtain ⟨coherent, tidy⟩ := source.settled
  obtain ⟨coherent', tidy'⟩ := target.settled
  obtain ⟨kept, hu, shape⟩ := transfer_shape coherent tidy coherent' ht done
  have after : d'.Tidy := ((frames_transfer tidy' t).answer done).1.tidy
  have number := (kept.coherent.canonical.numbered u hu).trans kept.extension.number
  refine ⟨⟨hu, number, shape⟩, ?_, ?_, ?_, ?_⟩
  · exact movesTo_of_shape coherent tidy kept.coherent after ht hu shape
  · rintro rfl
    exact movesTo_of_shape kept.coherent after kept.coherent after hu
      (kept.extension.has t ht) shape.symm
  · intro d'' later run extension
    obtain ⟨coherent'', tidy''⟩ := run.settled
    exact movesTo_of_shape coherent tidy coherent'' tidy'' ht (extension.has u hu) shape
  · intro s' later run extension
    obtain ⟨coherent'', tidy''⟩ := run.settled
    have ht' := extension.has t ht
    exact ⟨movesTo_of_shape kept.coherent after coherent'' tidy'' hu ht' shape.symm,
      movesTo_of_shape coherent tidy coherent'' tidy'' ht ht' rfl⟩

/-- The negation of a symbol is moved to another session, where the symbol is declared, and back. -/
theorem transfer_round_trip_negation :
    ∃ (s d d' : Solver Enumerator LogicSort Handle) (x t u : Term),
      Run Enumerator.Unused s [x, t] ∧ x.kind = .symbol "x" ∧ t.op = PrimOp.not ∧ t.children = [x] ∧
        Run Enumerator.Unused d [] ∧ s.session.number ≠ d.session.number ∧ transfer t d = .ok u d' ∧
        d'.session.Has u ∧ u.shape = t.shape ∧ d'.MovesTo t u ∧ s.MovesTo u t := by
  obtain ⟨s, x, t, source, number, ⟨-, sort, kind, leaf⟩, ht, op, sort', -, children⟩ :=
    run_negation {}
  have target : Run Enumerator.Unused (Solver.new (Enumerator.new "n") ⟨10, 10⟩) [] :=
    .new (Enumerator.unused_new "n") _
  obtain ⟨coherent, tidy⟩ := source.settled
  obtain ⟨coherent', tidy'⟩ := target.settled
  have welcomes : ∀ a : Term, a.OccursIn t →
      Welcomes (Solver.new (Enumerator.new "n") ⟨10, 10⟩) a := by
    intro a occurs
    have which : a = t ∨ a = x := by
      simpa [Term.occursIn_iff (t := t), Term.occursIn_iff (t := x), children, leaf] using occurs
    have truth : a.sort = .bool := by
      cases which with
      | inl same => rw [same, sort']
      | inr same => rw [same, sort]
    exact .inr ⟨⟨1, by rw [truth]; rfl⟩, by simp [Solver.new]⟩
  obtain ⟨u, d', done, -⟩ := transfer_succeeds coherent tidy coherent' tidy' ht welcomes
  obtain ⟨⟨hu, -, shape⟩, again, -, -, back⟩ := transfer_round_trip source target ht done
  have other : s.session.number ≠ 10 := by simp [number]
  exact ⟨s, _, d', x, t, u, source, kind, op, children, target, other, done, hu, shape, again,
    (back s _ source (.refl _)).1⟩

end FormulaGraph.Solver
