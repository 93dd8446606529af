import FormulaGraph.Proofs.Solver.Evolution
import FormulaGraph.Proofs.Solver.Isolation

/-!
Identifiers tell terms apart across sessions. Whatever a solver is asked, the terms that become
canonical by it take their identifiers from the supply; so in a world of solvers no two terms have
one identifier, whichever sessions they are of.
-/

namespace FormulaGraph

namespace Solver

open FormulaGraph.Action

variable {σ S T : Type} [BEq T] [Hashable T] {s s' s'' : Solver σ S T}

/-- What is canonical at the second state and was not at the first has an identifier that was still
in the supply. -/
structure Mints (s s' : Solver σ S T) : Prop where
  drawn : s.session.supply.Drawn s'.session.supply
  has : ∀ t, s'.session.Has t → s.session.Has t ∨ s.session.supply.nextTerm ≤ t.id

theorem Mints.trans (first : Mints s s') (second : Mints s' s'') : Mints s s'' := by
  refine ⟨first.drawn.trans second.drawn, fun t ht => ?_⟩
  cases second.has t ht with
  | inl old => exact first.has t old
  | inr new => exact .inr (Nat.le_trans first.drawn.nextTerm new)

theorem mints_of_table (table : s'.session.table = s.session.table)
    (drawn : s.session.supply.Drawn s'.session.supply) : Mints s s' := by
  refine ⟨drawn, fun t ht => .inl ?_⟩
  rw [Session.Has, ← table]
  exact ht

theorem Mints.refl (s : Solver σ S T) : Mints s s := mints_of_table rfl (.refl _)

theorem mints_intern (s : Solver σ S T) (op : Op) (sort : LogicSort) (kind : TermKind)
    (children : List Term) (native : T) :
    Mints s ⟨s.engine, (s.session.intern op sort kind children native).2⟩ := by
  cases found : s.session.table.find? (s.session.candidate op sort kind children) with
  | none =>
    rw [Session.intern_miss found]
    refine ⟨⟨Nat.le_succ _, Nat.le_refl _⟩, fun t ht => ?_⟩
    refine ((Session.has_add found native).mp ht).imp_right fun same => ?_
    rw [same]
    exact Nat.le_refl _
  | some u =>
    have hit : s.session.intern op sort kind children native = (u, s.session.tick) := by
      rw [Session.candidate] at found
      rw [Session.intern]
      simp only [found]
      rfl
    rw [hit]
    exact mints_of_table rfl ⟨Nat.le_succ _, Nat.le_refl _⟩

theorem QuietChange.mints (change : QuietChange s s') : Mints s s' := by
  cases change <;> exact mints_of_table rfl (.refl _)

theorem QuietChanges.mints (quietly : QuietChanges s s') : Mints s s' := by
  induction quietly with
  | refl => exact .refl s
  | tail _ change ih => exact ih.trans change.mints

/-- Each change that puts nothing back into the supply makes terms canonical under new identifiers
only. -/
theorem Change.mints (change : Change s s') (drawn : s.session.supply.Drawn s'.session.supply) :
    Mints s s' := by
  cases change with
  | quiet change => exact change.mints
  | interned op sort kind children native => exact mints_intern s op sort kind children native
  | named | sortDeclared | assumed | drawn => exact mints_of_table rfl drawn
  | renewed =>
    refine ⟨drawn, fun t ht => ?_⟩
    exact absurd ht (Session.not_has_of_empty rfl t)

variable [Engine σ S T]

theorem mints_onEngine {α : Type} (act : Action σ α) :
    Abides Mints (onEngine act : Action (Solver σ S T) α) :=
  fun s => QuietChanges.mints
    (leads_iff_finalState.mp ((quiet_onEngine act s).mono fun _ _ _ _ => trivial))

instance : Permissive (Mints : Solver σ S T → Solver σ S T → Prop) where
  refl := .refl
  trans _ _ _ := .trans
  called _ := mints_onEngine _
  nativeSort sort s :=
    QuietChanges.mints
      (leads_iff_finalState.mp ((quiet_nativeSort sort s).mono fun _ _ _ _ => trivial))
  changed change _ _ drawn := change.mints drawn

/-- However a request ends, what has become canonical by it has a new identifier. -/
theorem mints_perform (q : Request) :
    Abides Mints (q.perform : Action (Solver σ S T) (Answer LogicSort Term)) :=
  abides_perform_every (fun _ _ => mints_of_table rfl (.refl _)) mints_onEngine
    (fun s => (Change.renewed s).mints ⟨Nat.le_refl _, Nat.le_succ _⟩) q

end Solver

namespace World

variable {ι : Type} [DecidableEq ι] {σ S T : ι → Type} [∀ i, BEq (T i)] [∀ i, Hashable (T i)]
  [∀ i, Engine (σ i) (S i) (T i)] {w w' : World σ S T} {i : ι}
  {s s' : Solver (σ i) (S i) (T i)} {t : Term}

omit [DecidableEq ι] [∀ i, Engine (σ i) (S i) (T i)] in
/-- Every term that was handed out or is canonical at one of the solvers. -/
def held (w : World σ S T) : Set Term :=
  w.known ∪ {t | ∃ i s, w.solver i = some s ∧ s.session.Has t}

omit [DecidableEq ι] [∀ i, Engine (σ i) (S i) (T i)] in
/-- The terms have different identifiers, none of which is in the supply any more, and those below a
term have smaller ones. -/
structure Numbered (w : World σ S T) : Prop where
  supplied : ∀ t ∈ w.held, t.id < w.supply.nextTerm
  apart : ∀ t ∈ w.held, ∀ u ∈ w.held, t.id = u.id → t = u
  ordered : ∀ t ∈ w.held, t.Ordered

omit [∀ i, Engine (σ i) (S i) (T i)] in
theorem Numbered.served (numbered : w.Numbered) (there : w.solver i = some s)
    (mints : Solver.Mints (s.drawing w.supply) s')
    (interned : s'.session.Interned) {given : List Term}
    (sourced : ∀ t ∈ Term.nodes given, s'.session.Has t ∨ t ∈ w.known) (ended : Bool) :
    (w.served i s' ended given).Numbered := by
  have drawn : w.supply.nextTerm ≤ s'.session.supply.nextTerm := mints.drawn.nextTerm
  have cases_ : ∀ t ∈ (w.served i s' ended given).held,
      t ∈ w.held ∨ s'.session.Has t ∧ w.supply.nextTerm ≤ t.id := by
    have own : ∀ t, s'.session.Has t → t ∈ w.held ∨ s'.session.Has t ∧ w.supply.nextTerm ≤ t.id :=
      fun t ht => (mints.has t ht).imp (fun old => .inr ⟨i, s, there, old⟩) fun new => ⟨ht, new⟩
    rintro t ((known | given) | ⟨j, u, there', ht⟩)
    · exact .inl (.inl known)
    · exact (sourced t given).elim (own t) fun known => .inl (.inl known)
    · by_cases same : j = i
      · subst same
        have self : s' = u := by simpa [World.served] using there'
        exact own t (self ▸ ht)
      · have there' : w.solver j = some u := by simpa [World.served, same] using there'
        exact .inl (.inr ⟨j, u, there', ht⟩)
  refine ⟨fun t ht => ?_, fun t ht u hu same => ?_, fun t ht => ?_⟩
  · cases cases_ t ht with
    | inl old => exact Nat.lt_of_lt_of_le (numbered.supplied t old) drawn
    | inr new => exact interned.supplied t new.1
  · -- An old term and a new one differ, as the supply has gone past the one and not past the other.
    have differ : ∀ a b : Term, a ∈ w.held → w.supply.nextTerm ≤ b.id → a.id ≠ b.id :=
      fun a b old new => Nat.ne_of_lt (Nat.lt_of_lt_of_le (numbered.supplied a old) new)
    cases cases_ t ht with
    | inl oldT =>
      cases cases_ u hu with
      | inl oldU => exact numbered.apart t oldT u oldU same
      | inr newU => exact absurd same (differ t u oldT newU.2)
    | inr newT =>
      cases cases_ u hu with
      | inl oldU => exact absurd same.symm (differ u t oldU newT.2)
      | inr newU => exact interned.identified t u newT.1 newU.1 same
  · exact (cases_ t ht).elim (numbered.ordered t) fun new => interned.ordered new.1

variable [∀ i, EquivBEq (T i)] [∀ i, LawfulHashable (T i)]

theorem Step.numbered (step : Step w w') (sound : w.Sound) (numbered : w.Numbered) :
    w'.Numbered := by
  have later := step.sound sound
  cases step with
  | created i engine evicts =>
    have fewer : ∀ t, (t ∈ w.known ∨ ∃ j u, Function.update w.solver i
        (some (Solver.new engine w.supply evicts)) j = some u ∧ u.session.Has t) → t ∈ w.held := by
      rintro t (known | ⟨j, u, there, ht⟩)
      · exact .inl known
      · by_cases same : j = i
        · subst same
          have self : Solver.new engine w.supply evicts = u := by simpa using there
          exact absurd (self ▸ ht) (Session.not_has_of_empty rfl t)
        · have there : w.solver j = some u := by simpa [same] using there
          exact .inr ⟨j, u, there, ht⟩
    exact ⟨fun t ht => numbered.supplied t (fewer t ht),
      fun t ht u hu => numbered.apart t (fewer t ht) u (fewer u hu),
      fun t ht => numbered.ordered t (fewer t ht)⟩
  | @answered i s s' there q handed answer done =>
    have interned := (later.coherent i s' (by simp [World.served])).canonical.toInterned
    have mints := Action.finalState_ok done ▸ Solver.mints_perform q (s.drawing w.supply)
    refine numbered.served there mints interned ?_ q.ends
    by_cases lasting : q = .command .reset
    · subst lasting
      obtain ⟨-, -, rfl⟩ :=
        Solver.reset_answered Contract.free_honoured (sound.coherent i s there) done
      simp [Answer.given, nodes_nil]
    · exact (sound.answers there handed lasting done).2
  | @failed i s s' there q handed e done =>
    have interned := (later.coherent i s' (by simp [World.served])).canonical.toInterned
    have mints := Action.finalState_error done ▸ Solver.mints_perform q (s.drawing w.supply)
    exact numbered.served there mints interned (by simp [nodes_nil]) false
  | @reported i s there =>
    have interned := (later.coherent i (Engine.takeNotices (s.drawing w.supply)).2
      (by simp [World.served])).canonical.toInterned
    have mints : Solver.Mints (s.drawing w.supply) (Engine.takeNotices (s.drawing w.supply)).2 :=
      Solver.mints_of_table rfl (.refl _)
    exact numbered.served there mints interned (by simp [nodes_nil]) false
  | elsewhere drawn =>
    exact ⟨fun t ht => Nat.lt_of_lt_of_le (numbered.supplied t ht) drawn.nextTerm, numbered.apart,
      numbered.ordered⟩

/-- In every world that is reached, terms are told apart by their identifiers. -/
theorem Reached.numbered (reached : Reached w) : w.Numbered := by
  induction reached with
  | empty supply =>
    constructor <;> rintro t (known | ⟨j, u, there, -⟩)
    · exact known.elim
    · cases there
    · exact known.elim
    · cases there
    · exact known.elim
    · cases there
  | next before step ih => exact step.numbered before.sound ih

end World

end FormulaGraph
