import FormulaGraph.Proofs.Engine.Contract
import FormulaGraph.Proofs.Solver.Canonical

/-!
Coherence of a solver: its session is canonical, and the engine's term of each canonical term was
made as that term was, from the engine's terms of its children. An action that starts from a
coherent solver is followed to its end by `Solver.Keeps`, whatever the engine does that honours the
contract.
-/

namespace FormulaGraph

section Session

variable {S T : Type} [BEq T] [Hashable T]

/-- These are the engine's terms of these terms, one by one. -/
def Session.Renders (s : Session S T) : List Term → List T → Prop :=
  List.Forall₂ fun t n => s.natives[t]? = some n

theorem Session.Renders.extend {s s' : Session S T} {ts : List Term} {ns : List T}
    (renders : s.Renders ts ns) (extension : s.Extends s') : s'.Renders ts ns :=
  List.Forall₂.imp (fun t n found => extension.natives t n found) renders

end Session

/-- The second supply is the first after some identifiers were drawn from it. -/
structure Supply.Drawn (a b : Supply) : Prop where
  nextTerm : a.nextTerm ≤ b.nextTerm
  nextSession : a.nextSession ≤ b.nextSession

theorem Supply.Drawn.refl (a : Supply) : Drawn a a := ⟨Nat.le_refl _, Nat.le_refl _⟩

theorem Supply.Drawn.trans {a b c : Supply} (first : Drawn a b) (second : Drawn b c) : Drawn a c :=
  ⟨Nat.le_trans first.nextTerm second.nextTerm, Nat.le_trans first.nextSession second.nextSession⟩

theorem Session.InternedAs.drawn {S T : Type} [BEq T] [Hashable T] {op : Op} {sort : LogicSort}
    {kind : TermKind} {children : List Term} {native : T} {s s' : Session S T} {t : Term}
    (interns : InternedAs op sort kind children native s t s') : s.supply.Drawn s'.supply := by
  cases interns.known_or_new with
  | inl hit =>
    obtain ⟨rfl, -⟩ := hit
    exact ⟨Nat.le_succ _, Nat.le_refl _⟩
  | inr miss =>
    obtain ⟨rfl, -, -⟩ := miss
    exact ⟨Nat.le_succ _, Nat.le_refl _⟩

theorem Session.drawn_intern {S T : Type} [BEq T] [Hashable T] (s : Session S T)
    (op : Op) (sort : LogicSort) (kind : TermKind) (children : List Term) (native : T) :
    s.supply.Drawn (s.intern op sort kind children native).2.supply := by
  unfold intern
  dsimp only
  split <;> exact ⟨Nat.le_succ _, Nat.le_refl _⟩

namespace Solver

variable {σ S T α β : Type} [BEq T] [Hashable T] {K : Contract σ S T} {s s' s'' : Solver σ S T}
  {t u : Term} {n : T}

structure Mirrored (K : Contract σ S T) (s : Solver σ S T) : Prop where
  valid : K.Valid s.engine
  aliases : K.Aliases s.engine s.session.arbiter.aliasing
  sorts : ∀ (sort : LogicSort) (made : S), s.session.sorts[sort]? = some made → K.Denotes sort made
  names : ∀ (t : Term) (n : T), s.session.Has t → s.session.natives[t]? = some n →
    ∃ ns, s.session.Renders t.children ns ∧ K.Names s.engine n ⟨t.op, t.sort, t.kind, ns⟩
  apart : ∀ (t u : Term) (n m : T), s.session.Has t → s.session.Has u → t ≠ u →
    s.session.natives[t]? = some n → s.session.natives[u]? = some m → K.Apart n m

structure Coherent (K : Contract σ S T) (s : Solver σ S T) : Prop where
  canonical : s.session.Canonical
  mirrored : s.Mirrored K

/-- What an operation keeps that does not end the session. -/
structure Kept (K : Contract σ S T) (s s' : Solver σ S T) : Prop where
  coherent : s'.Coherent K
  extension : s.session.Extends s'.session
  grows : K.Grows s.engine s'.engine
  drawn : s.session.supply.Drawn s'.session.supply

/-- Both states have the same terms. -/
structure SameTerms (s s' : Solver σ S T) : Prop where
  table : s'.session.table = s.session.table
  natives : s'.session.natives = s.session.natives
  symbols : s'.session.symbols = s.session.symbols

theorem SameTerms.refl (s : Solver σ S T) : SameTerms s s := ⟨rfl, rfl, rfl⟩

theorem SameTerms.trans (first : SameTerms s s') (second : SameTerms s' s'') : SameTerms s s'' :=
  ⟨second.table.trans first.table, second.natives.trans first.natives,
    second.symbols.trans first.symbols⟩

/-- However the action ends, it keeps the solver coherent. -/
def Keeps (K : Contract σ S T) (act : Action (Solver σ S T) α) (s : Solver σ S T)
    (post : α → Solver σ S T → Prop) : Prop :=
  Action.Leads (Kept K) K.Fails act s post

/-- The engine's term is none that is recorded already. -/
def Unrecorded (K : Contract σ S T) (s : Solver σ S T) (n : T) : Prop :=
  ∀ (t : Term) (m : T), s.session.natives[t]? = some m → K.Apart m n

/-- The engine has made this term for a structure, and it is not recorded yet. -/
structure Offers (K : Contract σ S T) (s : Solver σ S T) (b : Blueprint T) (n : T) : Prop where
  names : K.Names s.engine n b
  unrecorded : s.Unrecorded K n

theorem Coherent.native (coherent : s.Coherent K) (ht : s.session.Has t) :
    ∃ n, s.session.natives[t]? = some n := by
  have known := (coherent.canonical.natives t).mpr ⟨t, ht, rfl⟩
  rwa [Std.HashMap.contains_eq_isSome_getElem?, Option.isSome_iff_exists] at known

theorem Mirrored.congr (mirrored : s.Mirrored K) (engine : s'.engine = s.engine)
    (table : s'.session.table = s.session.table) (natives : s'.session.natives = s.session.natives)
    (aliasing : s'.session.arbiter.aliasing = s.session.arbiter.aliasing)
    (sorts : ∀ (sort : LogicSort) (made : S),
      s'.session.sorts[sort]? = some made → K.Denotes sort made) :
    s'.Mirrored K := by
  have has : ∀ t, s'.session.Has t → s.session.Has t := fun t ht => by
    rwa [Session.Has, table] at ht
  refine ⟨engine ▸ mirrored.valid, ?_, sorts, ?_, ?_⟩
  · rw [engine, aliasing]
    exact mirrored.aliases
  · intro t n ht found
    rw [natives] at found
    obtain ⟨ns, renders, named⟩ := mirrored.names t n (has t ht) found
    refine ⟨ns, ?_, engine ▸ named⟩
    rwa [Session.Renders, natives]
  · intro t u n m ht hu other found found'
    rw [natives] at found found'
    exact mirrored.apart t u n m (has t ht) (has u hu) other found found'

theorem Coherent.congr (coherent : s.Coherent K) (engine : s'.engine = s.engine)
    (number : s'.session.number = s.session.number)
    (table : s'.session.table = s.session.table) (natives : s'.session.natives = s.session.natives)
    (symbols : s'.session.symbols = s.session.symbols)
    (assumptions : ∀ (n : T) (t : Term), s'.session.assumptions[n]? = some t → s.session.Has t)
    (supply : s'.session.supply = s.session.supply) (memo : s'.session.arbiter.Faithful)
    (aliasing : s'.session.arbiter.aliasing = s.session.arbiter.aliasing)
    (sorts : ∀ (sort : LogicSort) (made : S),
      s'.session.sorts[sort]? = some made → K.Denotes sort made) :
    s'.Coherent K := by
  have canonical := coherent.canonical
  have interned := canonical.toInterned.congr number table natives (supply ▸ Nat.le_refl _)
  have has : ∀ t, s'.session.Has t ↔ s.session.Has t := fun t => by
    rw [Session.Has, Session.Has, table]
  refine ⟨⟨interned, ?_, ?_, ?_, memo⟩, coherent.mirrored.congr engine table natives aliasing sorts⟩
  · intro name t
    rw [symbols, has]
    exact canonical.symbols name t
  · intro n t found
    exact (has t).mpr (assumptions n t found)
  · rw [number, supply]
    exact canonical.current

theorem coherent_of_empty (table : s.session.table = {}) (natives : s.session.natives = {})
    (symbols : s.session.symbols = {}) (assumptions : s.session.assumptions = {})
    (sorts : s.session.sorts = {}) (current : s.session.number < s.session.supply.nextSession)
    (memo : s.session.arbiter.Faithful) (valid : K.Valid s.engine)
    (aliases : K.Aliases s.engine s.session.arbiter.aliasing) : s.Coherent K := by
  refine ⟨.of_empty table natives symbols assumptions current memo, ⟨valid, aliases, ?_, ?_, ?_⟩⟩
  · intro sort made found
    rw [sorts] at found
    simp at found
  · exact fun t _ ht => absurd ht (Session.not_has_of_empty table t)
  · exact fun t _ _ _ ht => absurd ht (Session.not_has_of_empty table t)

section Rules

variable [Engine σ S T] {start : σ → Prop} {post : α → Solver σ S T → Prop}

theorem Kept.refl (honoured : K.Honoured start) (coherent : s.Coherent K) : Kept K s s :=
  ⟨coherent, .refl _, honoured.refl _, .refl _⟩

theorem Kept.trans (honoured : K.Honoured start) (first : Kept K s s') (second : Kept K s' s'') :
    Kept K s s'' where
  coherent := second.coherent
  extension := first.extension.trans second.extension
  grows := honoured.trans _ _ _ first.grows second.grows
  drawn := first.drawn.trans second.drawn

theorem Keeps.bind (honoured : K.Honoured start) {act : Action (Solver σ S T) α}
    {next : α → Action (Solver σ S T) β} {goal : β → Solver σ S T → Prop}
    (first : Keeps K act s post)
    (rest : ∀ a s', Kept K s s' → post a s' → Keeps K (next a) s' goal) :
    Keeps K (act >>= next) s goal :=
  Action.Leads.bind (fun h h' => h.trans honoured h') first rest

omit [Engine σ S T] in
theorem Keeps.mono {act : Action (Solver σ S T) α} {goal : α → Solver σ S T → Prop}
    (keeps : Keeps K act s post) (weaker : ∀ a s', Kept K s s' → post a s' → goal a s') :
    Keeps K act s goal :=
  Action.Leads.mono keeps weaker

theorem keeps_pure (honoured : K.Honoured start) (coherent : s.Coherent K) {a : α}
    (holds : post a s) : Keeps K (pure a) s post :=
  Action.leads_pure (.refl honoured coherent) holds

theorem keeps_throw (honoured : K.Honoured start) (coherent : s.Coherent K) {e : Error}
    (plain : e.Plain) : Keeps K (throw e) s post :=
  Action.leads_throw (.refl honoured coherent) (honoured.fails e plain)

theorem keeps_ofExcept (honoured : K.Honoured start) (coherent : s.Coherent K)
    {r : Except Error α} (plain : Plainly r) :
    Keeps K (Action.ofExcept r) s fun a s' => r = .ok a ∧ s = s' :=
  Action.leads_ofExcept (.refl honoured coherent) (fun _ h => ⟨h, rfl⟩)
    fun e h => honoured.fails e (plain e h).plain

theorem keeps_guard (honoured : K.Honoured start) (coherent : s.Coherent K) {c : Prop}
    [Decidable c] {e : Error} {next : PUnit → Action (Solver σ S T) α} (plain : e.Plain)
    (passed : ¬ c → Keeps K (next ⟨⟩) s post) :
    Keeps K (if c then throw e >>= next else next ⟨⟩) s post := by
  split
  · exact keeps_throw honoured coherent plain
  · exact passed ‹_›

theorem keeps_ask (honoured : K.Honoured start) (coherent : s.Coherent K)
    {question : Session S T → Except Error α} (holds : ∀ a, question s.session = .ok a → post a s)
    (may : ∀ e, question s.session = .error e → K.Fails e) : Keeps K (ask question) s post := by
  have kept := Kept.refl honoured coherent
  cases h : question s.session with
  | ok a =>
    have asked : ask question s = .ok a s := by rw [ask, h]
    exact (Action.leads_ok asked).mpr ⟨kept, holds a h⟩
  | error e =>
    have asked : ask question s = .error e s := by rw [ask, h]
    exact (Action.leads_error asked).mpr ⟨kept, may e h⟩

theorem keeps_record (honoured : K.Honoured start) {change : Session S T → Session S T}
    (coherent : Coherent K ⟨s.engine, change s.session⟩)
    (extension : s.session.Extends (change s.session))
    (supply : (change s.session).supply = s.session.supply) :
    Keeps K (record change) s fun _ s' => s' = ⟨s.engine, change s.session⟩ :=
  ⟨⟨coherent, extension, honoured.refl _, supply ▸ .refl _⟩, rfl⟩

end Rules

end Solver

end FormulaGraph
