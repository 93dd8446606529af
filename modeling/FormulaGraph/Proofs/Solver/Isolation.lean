import FormulaGraph.Proofs.Solver.Foreign
import FormulaGraph.Proofs.Solver.OverEnumerator
import Mathlib.Order.BooleanAlgebra.Set
import Mathlib.Logic.Function.Basic

/-!
Isolation of sessions. Any number of solvers, each over an engine of its own, draw on one supply and
are used in any order; what one of them hands out may be given to any other. Every term is told by
its number which session it is of, so a solver takes just the terms that it has issued since its
last reset.
-/

namespace FormulaGraph

/-- All nodes of the graphs of these terms. -/
def Term.nodes (ts : List Term) : Set Term := {t | ∃ u ∈ ts, t.OccursIn u}

/-- The request starts a new session, if it is answered. -/
def Request.ends : Request → Bool
  | .command .reset => true
  | _ => false

namespace Solver

variable {σ S T : Type} [BEq T] [Hashable T] {K : Contract σ S T} {s s' : Solver σ S T}
  {supply supply' : Supply}

/-- The solver once others have drawn on its supply. -/
def drawing (s : Solver σ S T) (supply : Supply) : Solver σ S T :=
  ⟨s.engine, { s.session with supply }⟩

theorem Coherent.drawing (coherent : (s.drawing supply).Coherent K) (drawn : supply.Drawn supply') :
    (s.drawing supply').Coherent K :=
  ⟨coherent.canonical.congr rfl rfl rfl rfl rfl drawn.nextTerm drawn.nextSession
      coherent.canonical.memo,
    coherent.mirrored.congr rfl rfl rfl rfl coherent.mirrored.sorts⟩

theorem reset_renews [Engine σ S T] {answer : Answer LogicSort Term}
    (done : (Request.command .reset).perform s = .ok answer s') :
    s'.session.number = s.session.supply.nextSession ∧
      s.session.supply.Drawn s'.session.supply := by
  obtain ⟨engine, session⟩ := s
  change (reset >>= fun _ => pure .done :
    Action (Solver σ S T) (Answer LogicSort Term)) _ = _ at done
  obtain ⟨u, s₁, called, done⟩ := Action.of_bind_ok done
  cases done
  obtain ⟨_, s₂, called, recorded⟩ := Action.of_bind_ok called
  obtain ⟨_, _, -, rfl⟩ := of_onEngine_ok called
  cases recorded
  exact ⟨rfl, Nat.le_refl _, Nat.le_succ _⟩

end Solver

/-- Solvers by name, and what has become of the terms that they handed out. -/
structure World {ι : Type} (σ S T : ι → Type) [∀ i, BEq (T i)] [∀ i, Hashable (T i)] where
  supply : Supply
  solver : ∀ i, Option (Solver (σ i) (S i) (T i))
  /-- What each solver has issued since it was created or last reset: the terms that it was the
  first to hand out, with all that lies below them. -/
  issued : ι → Set Term
  /-- Every term that was ever handed out by a solver. -/
  known : Set Term

namespace World

variable {ι : Type} [DecidableEq ι] {σ S T : ι → Type} [∀ i, BEq (T i)] [∀ i, Hashable (T i)]
  [∀ i, Engine (σ i) (S i) (T i)] {w w' : World σ S T} {i : ι}
  {s s' : Solver (σ i) (S i) (T i)} {t : Term}

omit [∀ i, Engine (σ i) (S i) (T i)] in
/-- A solver has got into this state, and has handed out these terms on the way. -/
def served (w : World σ S T) (i : ι) (s : Solver (σ i) (S i) (T i)) (ended : Bool)
    (given : List Term) :
    World σ S T where
  supply := s.session.supply
  solver := Function.update w.solver i (some s)
  issued := Function.update w.issued i
    ((if ended then ∅ else w.issued i) ∪ Term.nodes given \ w.known)
  known := w.known ∪ Term.nodes given

/-- One step: a solver is created, perhaps in the place of another, on any engine; one of the
solvers is asked something, about terms that were handed out, and answers or fails; its notices are
taken; or the supply is drawn on from elsewhere, as by solvers that are engines of these. -/
inductive Step : World σ S T → World σ S T → Prop
  | created {w : World σ S T} (i : ι) (engine : σ i) (evicts : Eviction := .never) :
      Step w {
        supply := (Solver.new engine w.supply evicts : Solver (σ i) (S i) (T i)).session.supply
        solver := Function.update w.solver i (some (Solver.new engine w.supply evicts))
        issued := Function.update w.issued i ∅
        known := w.known }
  | answered {w : World σ S T} {i : ι} {s s' : Solver (σ i) (S i) (T i)}
      (there : w.solver i = some s)
      (q : Request) (handed : ∀ t ∈ q.terms, t ∈ w.known) {answer : Answer LogicSort Term}
      (done : q.perform (s.drawing w.supply) = .ok answer s') :
      Step w (w.served i s' q.ends answer.given)
  | failed {w : World σ S T} {i : ι} {s s' : Solver (σ i) (S i) (T i)} (there : w.solver i = some s)
      (q : Request) (handed : ∀ t ∈ q.terms, t ∈ w.known) {e : Error}
      (done : q.perform (s.drawing w.supply) = .error e s') : Step w (w.served i s' false [])
  | reported {w : World σ S T} {i : ι} {s : Solver (σ i) (S i) (T i)}
      (there : w.solver i = some s) :
      Step w (w.served i (Engine.takeNotices (s.drawing w.supply)).2 false [])
  | elsewhere {w : World σ S T} {supply : Supply} (drawn : w.supply.Drawn supply) :
      Step w { w with supply }

/-- A world in which any number of steps have been taken, at first without solvers. -/
inductive Reached : World σ S T → Prop
  | empty (supply : Supply) :
      Reached { supply, solver := fun _ => none, issued := fun _ => ∅, known := ∅ }
  | next {w w' : World σ S T} (before : Reached w) (step : Step w w') : Reached w'

/-- What holds in every world that is reached. -/
structure Sound (w : World σ S T) : Prop where
  coherent : ∀ i s, w.solver i = some s →
    (s.drawing w.supply).Coherent (Contract.free (σ i) (S i) (T i))
  whole : ∀ t ∈ w.known, ∀ c ∈ t.children, c ∈ w.known
  drawn : ∀ t ∈ w.known, t.session < w.supply.nextSession
  has : ∀ i s, w.solver i = some s → ∀ t ∈ w.known, t.session = s.session.number → s.session.Has t
  issued : ∀ i s, w.solver i = some s →
    ∀ t, t ∈ w.issued i ↔ t ∈ w.known ∧ t.session = s.session.number
  apart : ∀ i j s s', w.solver i = some s → w.solver j = some s' →
    s.session.number = s'.session.number → i = j

theorem nodes_nil : Term.nodes [] = ∅ := by
  ext t
  simp [Term.nodes]

omit [DecidableEq ι] [∀ i, Engine (σ i) (S i) (T i)] in
theorem Sound.known_of_occursIn (sound : w.Sound) {a : Term} (occurs : a.OccursIn t)
    (known : t ∈ w.known) : a ∈ w.known := by
  induction occurs with
  | here => exact known
  | inChild child _ ih => exact ih (sound.whole _ known _ child)

omit [DecidableEq ι] [∀ i, Engine (σ i) (S i) (T i)] in
theorem Sound.genuine (sound : w.Sound) (there : w.solver i = some s) (known : t ∈ w.known) :
    (s.drawing w.supply).session.Genuine t :=
  fun a occurs number => sound.has i s there a (sound.known_of_occursIn occurs known) number

omit [DecidableEq ι] [∀ i, Engine (σ i) (S i) (T i)] in
theorem Sound.records (sound : w.Sound) (there : w.solver i = some s) (issued : t ∈ w.issued i) :
    s.session.Records t := by
  obtain ⟨known, number⟩ := (sound.issued i s there t).mp issued
  obtain ⟨n, found⟩ := (sound.coherent i s there).native (sound.has i s there t known number)
  exact ⟨n, Session.native_of_has number found⟩

omit [∀ i, Engine (σ i) (S i) (T i)] in
theorem Sound.served (sound : w.Sound) (there : w.solver i = some s)
    (kept : Solver.Kept (Contract.free (σ i) (S i) (T i)) (s.drawing w.supply) s')
    {given : List Term} (sourced : ∀ t ∈ Term.nodes given, s'.session.Has t ∨ t ∈ w.known) :
    (w.served i s' false given).Sound := by
  have number : s'.session.number = s.session.number := kept.extension.number
  have numbered := kept.coherent.canonical.numbered
  -- What is handed out for the first time is of the session of this solver.
  have own : ∀ t ∈ Term.nodes given, t ∉ w.known → s'.session.Has t := fun t ht new =>
    (sourced t ht).resolve_right new
  have others : ∀ j u, j ≠ i → (w.served i s' false given).solver j = some u →
      w.solver j = some u := by
    intro j u other there'
    simpa [World.served, other] using there'
  have self : ∀ u, (w.served i s' false given).solver i = some u → u = s' := by
    intro u there'
    simpa [World.served, eq_comm] using there'
  have elsewhere : ∀ j u, j ≠ i → w.solver j = some u → ∀ t ∈ Term.nodes given,
      t.session = u.session.number → t ∈ w.known := by
    intro j u other there' t ht same
    by_contra new
    have mine := numbered t (own t ht new)
    exact other (sound.apart j i u s there' there (same.symm.trans (mine.trans number)))
  refine ⟨?_, ?_, ?_, ?_, ?_, ?_⟩
  · intro j u there'
    by_cases same : j = i
    · subst same
      obtain rfl := self u there'
      exact kept.coherent
    · exact (sound.coherent j u (others j u same there')).drawing kept.drawn
  · intro t known c child
    cases known with
    | inl known => exact .inl (sound.whole t known c child)
    | inr new =>
      obtain ⟨u, hu, occurs⟩ := new
      exact .inr ⟨u, hu, occurs.child child⟩
  · intro t known
    by_cases old : t ∈ w.known
    · exact Nat.lt_of_lt_of_le (sound.drawn t old) kept.drawn.nextSession
    · have mine := numbered t (own t (known.resolve_left old) old)
      rw [mine]
      exact kept.coherent.canonical.current
  · intro j u there' t known same
    by_cases here : j = i
    · subst here
      obtain rfl := self u there'
      by_cases old : t ∈ w.known
      · exact kept.extension.has t (sound.has j s there t old (same.trans number))
      · exact own t (known.resolve_left old) old
    · have there' := others j u here there'
      refine sound.has j u there' t (known.elim id fun new => ?_) same
      exact elsewhere j u here there' t new same
  · intro j u there' t
    by_cases here : j = i
    · subst here
      obtain rfl := self u there'
      have issued := sound.issued j s there t
      simp only [World.served, Function.update_self, Bool.false_eq_true, if_false, Set.mem_union,
        Set.mem_sdiff, issued]
      constructor
      · rintro (⟨known, same⟩ | ⟨new, fresh⟩)
        · exact ⟨.inl known, same.trans number.symm⟩
        · exact ⟨.inr new, numbered t (own t new fresh)⟩
      · rintro ⟨known, same⟩
        by_cases old : t ∈ w.known
        · exact .inl ⟨old, same.trans number⟩
        · exact .inr ⟨known.resolve_left old, old⟩
    · have there' := others j u here there'
      have issued := sound.issued j u there' t
      simp only [World.served, Function.update_of_ne here, Set.mem_union, issued]
      constructor
      · rintro ⟨known, same⟩
        exact ⟨.inl known, same⟩
      · rintro ⟨known, same⟩
        exact ⟨known.elim id fun new => elsewhere j u here there' t new same, same⟩
  · have old : ∀ j u, (w.served i s' false given).solver j = some u →
        ∃ v, w.solver j = some v ∧ u.session.number = v.session.number := by
      intro j u there'
      by_cases here : j = i
      · subst here
        obtain rfl := self u there'
        exact ⟨s, there, number⟩
      · exact ⟨u, others j u here there', rfl⟩
    intro j k u v thereU thereV same
    obtain ⟨u', thereU', numberU⟩ := old j u thereU
    obtain ⟨v', thereV', numberV⟩ := old k v thereV
    exact sound.apart j k u' v' thereU' thereV' (numberU.symm.trans (same.trans numberV))

omit [∀ i, Engine (σ i) (S i) (T i)] in
theorem Sound.begun (sound : w.Sound)
    (coherent : s'.Coherent (Contract.free (σ i) (S i) (T i)))
    (number : s'.session.number = w.supply.nextSession) (drawn : w.supply.Drawn s'.session.supply) :
    Sound {
      supply := s'.session.supply
      solver := Function.update w.solver i (some s')
      issued := Function.update w.issued i ∅
      known := w.known } := by
  have others : ∀ j u, j ≠ i → Function.update w.solver i (some s') j = some u →
      w.solver j = some u := by
    intro j u other there'
    simpa [other] using there'
  have self : ∀ u, Function.update w.solver i (some s') i = some u → u = s' := by
    intro u there'
    simpa [eq_comm] using there'
  have unused : ∀ t ∈ w.known, t.session ≠ s'.session.number := by
    intro t known
    rw [number]
    exact Nat.ne_of_lt (sound.drawn t known)
  have earlier : ∀ j u, w.solver j = some u → u.session.number < s'.session.number := by
    intro j u there'
    rw [number]
    exact (sound.coherent j u there').canonical.current
  refine ⟨?_, sound.whole, ?_, ?_, ?_, ?_⟩
  · intro j u there'
    by_cases same : j = i
    · subst same
      obtain rfl := self u there'
      exact coherent
    · exact (sound.coherent j u (others j u same there')).drawing drawn
  · exact fun t known => Nat.lt_of_lt_of_le (sound.drawn t known) drawn.nextSession
  · intro j u there' t known same
    by_cases here : j = i
    · subst here
      obtain rfl := self u there'
      exact absurd same (unused t known)
    · exact sound.has j u (others j u here there') t known same
  · intro j u there' t
    by_cases here : j = i
    · subst here
      obtain rfl := self u there'
      simp only [Function.update_self]
      exact ⟨fun issued => issued.elim, fun both => absurd both.2 (unused t both.1)⟩
    · simp only [Function.update_of_ne here]
      exact sound.issued j u (others j u here there') t
  · intro j k u v thereU thereV same
    by_cases hereU : j = i
    · by_cases hereV : k = i
      · rw [hereU, hereV]
      · subst hereU
        obtain rfl := self u thereU
        exact absurd same.symm (Nat.ne_of_lt (earlier k v (others k v hereV thereV)))
    · by_cases hereV : k = i
      · subst hereV
        obtain rfl := self v thereV
        exact absurd same (Nat.ne_of_lt (earlier j u (others j u hereU thereU)))
      · exact sound.apart j k u v (others j u hereU thereU) (others k v hereV thereV) same

section Run

variable [∀ i, EquivBEq (T i)] [∀ i, LawfulHashable (T i)]

omit [DecidableEq ι] in
/-- What one of the solvers answers within its session is its own, or was handed out before. -/
theorem Sound.answers (sound : w.Sound) (there : w.solver i = some s) {q : Request}
    (handed : ∀ t ∈ q.terms, t ∈ w.known) (lasting : q ≠ .command .reset)
    {answer : Answer LogicSort Term} (done : q.perform (s.drawing w.supply) = .ok answer s') :
    Solver.Kept (Contract.free (σ i) (S i) (T i)) (s.drawing w.supply) s' ∧
      ∀ t ∈ Term.nodes answer.given, s'.session.Has t ∨ t ∈ w.known := by
  have closed : Solver.Closed (Contract.free (σ i) (S i) (T i)) fun s t =>
      s.session.Genuine t ∧ ∀ a, a.OccursIn t → s.session.Has a ∨ a ∈ w.known :=
    { genuine := fun _ _ holds => holds.1
      later := fun _ _ _ kept holds =>
        ⟨holds.1.extend kept.extension, fun a occurs =>
          (holds.2 a occurs).imp_left (kept.extension.has a)⟩
      child := fun _ _ _ _ holds child =>
        ⟨holds.1.of_occursIn (.inChild child .here), fun a occurs =>
          holds.2 a (.inChild child occurs)⟩
      has := fun _ _ coherent ht =>
        ⟨coherent.canonical.toInterned.genuine ht,
          fun a occurs => .inl (coherent.canonical.toInterned.has_of_occursIn ht occurs)⟩ }
  have given := Solver.serves_closed Contract.free_honoured closed (sound.coherent i s there)
    (fun t ht => ⟨sound.genuine there (handed t ht),
      fun a occurs => .inr (sound.known_of_occursIn occurs (handed t ht))⟩) lasting
  obtain ⟨kept, holds⟩ := Action.Leads.answer given done
  refine ⟨kept, fun t ht => ?_⟩
  obtain ⟨u, hu, occurs⟩ := ht
  exact (holds u hu).2 t occurs

/-- Every step keeps the world sound. -/
theorem Step.sound (step : Step w w') (sound : w.Sound) : w'.Sound := by
  cases step with
  | created i engine evicts =>
    have new : Solver.Run (fun _ => True) (Solver.new engine w.supply evicts) [] :=
      .new trivial w.supply evicts
    have coherent := (new.coherent Contract.free_honoured).1
    exact sound.begun coherent rfl ⟨Nat.le_refl _, Nat.le_succ _⟩
  | @answered i s s' there q handed answer done =>
    by_cases lasting : q = .command .reset
    · subst lasting
      obtain ⟨coherent, -, rfl⟩ :=
        Solver.reset_answered Contract.free_honoured (sound.coherent i s there) done
      obtain ⟨number, drawn⟩ := Solver.reset_renews done
      have begun := sound.begun coherent number drawn
      simpa [World.served, Request.ends, Answer.given, nodes_nil, Set.empty_sdiff] using begun
    · have going : q.ends = false := by
        cases q with
        | command c =>
          cases c with
          | reset => exact absurd rfl lasting
          | _ => rfl
        | _ => rfl
      obtain ⟨kept, sourced⟩ := sound.answers there handed lasting done
      rw [going]
      exact sound.served there kept sourced
  | @failed i s s' there q handed e done =>
    have genuine := fun t ht => sound.genuine there (handed t ht)
    obtain ⟨kept, -⟩ :=
      Solver.request_failed Contract.free_honoured (sound.coherent i s there) genuine done
    exact sound.served there kept (by simp [nodes_nil])
  | @reported i s there =>
    have coherent := sound.coherent i s there
    have kept : Solver.Kept (Contract.free (σ i) (S i) (T i)) (s.drawing w.supply)
        (Engine.takeNotices (s.drawing w.supply)).2 :=
      ⟨coherent.congr rfl rfl rfl rfl rfl coherent.canonical.assumptions rfl coherent.canonical.memo
        rfl coherent.mirrored.sorts, .congr rfl rfl rfl rfl rfl, trivial, .refl _⟩
    exact sound.served there kept (by simp [nodes_nil])
  | elsewhere drawn =>
    exact ⟨fun i s there => (sound.coherent i s there).drawing drawn, sound.whole,
      fun t known => Nat.lt_of_lt_of_le (sound.drawn t known) drawn.nextSession, sound.has,
      sound.issued, sound.apart⟩

theorem Reached.sound (reached : Reached w) : w.Sound := by
  induction reached with
  | empty supply =>
    exact ⟨nofun, nofun, nofun, nofun, nofun, nofun⟩
  | next _ step ih => exact step.sound ih

/-- Sessions are isolated, however many there are, in whatever order their solvers are asked and
reset, and whatever their engines do. Of the terms that were handed out a solver hands to its engine
just those that it has issued since it was created or last reset. Given any other, it fails with an
error of usage, the same whatever the engine is and does, and leaves the engine and the session as
they are. Those that it has issued are recorded, and it finds no fault with them; an error that says
so is one that the engine gave. -/
theorem session_isolation (reached : Reached w) (there : w.solver i = some s) {q : Request}
    (hands : q.HandsOver) (handed : ∀ t ∈ q.terms, t ∈ w.known) :
    ((∃ t ∈ q.terms, t ∉ w.issued i) →
      ∃ e : Error, e.kind = .usage ∧ ∀ (σ' : Type) [Engine σ' (S i) (T i)] (x : σ'),
        q.perform (⟨x, (s.drawing w.supply).session⟩ : Solver σ' (S i) (T i)) =
          .error e ⟨x, (s.drawing w.supply).session⟩) ∧
    ∀ t ∈ w.issued i, (∃ n, (s.drawing w.supply).session.native t = .ok n) ∧
      ∀ e s', q.perform (s.drawing w.supply) = .error e s' →
        (e = .usage (.foreignTerm t) ∨ e = .internal (.noEngineTerm t)) →
        ∃ (c : Command (S i) (T i)) (x x' : σ i), Engine.perform c x = .error e x' := by
  have sound := reached.sound
  constructor
  · rintro ⟨t, ht, unissued⟩
    have foreign : t.session ≠ s.session.number := fun number =>
      unissued ((sound.issued i s there t).mpr ⟨handed t ht, number⟩)
    exact Solver.refused_of_foreign hands ⟨t, ht, foreign⟩ fun u hu number =>
      (sound.records there ((sound.issued i s there u).mpr ⟨handed u hu, number⟩)).congr rfl rfl
  · intro t issued
    have records : (s.drawing w.supply).session.Records t :=
      (sound.records there issued).congr rfl rfl
    refine ⟨records, fun e s' failed => ?_⟩
    exact (Action.Leads.failure (Solver.spares_of_records hands records) failed).2

/-- Two solvers. The second refuses to assert the truth value that the first has made; the first
knows it. -/
theorem session_isolation_two :
    ∃ (w : World (fun _ : Bool => Enumerator) (fun _ => LogicSort) fun _ => Handle)
    (mine other : Solver Enumerator LogicSort Handle) (t : Term), Reached w ∧
      w.solver false = some mine ∧ w.solver true = some other ∧
      (∃ n, (mine.drawing w.supply).session.native t = .ok n) ∧
      ∃ e : Error, e.kind = .usage ∧
        (Request.command (.assertFormula t)).perform (other.drawing w.supply) =
        .error e (other.drawing w.supply) := by
  let K := Enumerator.contract
  let first : Solver Enumerator LogicSort Handle := Solver.new (Enumerator.new "m") {}
  let second : Solver Enumerator LogicSort Handle :=
    Solver.new (Enumerator.new "n") first.session.supply
  have begins :=
    Reached.next (Reached.next (σ := fun _ : Bool => Enumerator) (S := fun _ => LogicSort)
      (T := fun _ => Handle) (.empty {}) (.created false (Enumerator.new "m")))
        (.created true (Enumerator.new "n"))
  have new : (first.drawing first.session.supply).Coherent K :=
    (Solver.Run.coherent Enumerator.contract_honoured (.new (Enumerator.fresh_new "m") {})).1
  have coherent : (first.drawing second.session.supply).Coherent K :=
    new.drawing ⟨Nat.le_refl _, Nat.le_succ _⟩
  obtain ⟨t, mine, made, kept, has, -⟩ := Solver.makeBool_succeeds coherent true
  have answers : (Request.makeBool true).perform (first.drawing second.session.supply) =
      .ok (.term t) mine :=
    Action.map_ok made
  have reached := begins.next
    (.answered (i := false) rfl (.makeBool true) (fun _ hu => absurd hu List.not_mem_nil) answers)
  have node : t ∈ Term.nodes [t] := ⟨t, List.mem_singleton_self t, .here⟩
  have handed : ∀ {u}, u ∈ (Request.command (.assertFormula t)).terms → u = t :=
    List.mem_singleton.mp
  refine ⟨_, mine, second, t, reached, rfl, rfl, ?_, ?_⟩
  · have recorded :=
      (session_isolation (i := false) reached rfl (q := .command (.assertFormula t)) trivial
        fun u hu => .inr (handed hu ▸ node)).2 t (.inr ⟨node, id⟩)
    exact recorded.1
  · obtain ⟨e, usage, refused⟩ := (session_isolation (i := true) reached rfl
      (q := .command (.assertFormula t)) trivial fun u hu => .inr (handed hu ▸ node)).1
      ⟨t, List.mem_cons_self, id⟩
    exact ⟨e, usage, refused Enumerator second.engine⟩

end Run

end World

end FormulaGraph
