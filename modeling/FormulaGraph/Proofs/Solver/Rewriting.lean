import FormulaGraph.Proofs.Rewrite.Invariant
import FormulaGraph.Proofs.Solver.Query
import FormulaGraph.Solver.Transfer

/-!
Substituting in terms and moving them between sessions keeps a coherent solver coherent. What comes
out of a rewriting has every property that the terms have that went into it, if it is one that goes
down to children and holds of all that is made: it is genuine, for one.
-/

namespace FormulaGraph.Solver

open FormulaGraph.Action

variable {σ S T : Type} [BEq T] [Hashable T] [Engine σ S T] {K : Contract σ S T}
  {start : σ → Prop} {s s' : Solver σ S T} {t : Term} {P : Solver σ S T → Term → Prop}

section Keeping

omit [Engine σ S T]

variable {I : Solver σ S T → Prop} {r : Rewriter (Solver σ S T)}
  (visit : ∀ t news s, I s → I ((r.visit t news).finalState s))
  (rebuild : ∀ op news s, I s → I ((r.rebuild op news).finalState s))

include visit rebuild

theorem settle_keeps (cache : TermMap) (t : Term) (news : List Term) (holds : I s) :
    Rewriter.Settles (fun _ => I) (fun _ => True) cache t (r.settle t news s) := by
  have visiting := visit t news s holds
  unfold Rewriter.settle
  cases visited : r.visit t news s with
  | error e s₁ =>
    rw [finalState_error visited] at visiting
    exact ⟨visiting, trivial⟩
  | ok step s₁ =>
    rw [finalState_ok visited] at visiting
    cases step with
    | abort | keep | replace => exact visiting
    | resume =>
      have rebuilding := rebuild t.op news s₁ visiting
      dsimp only
      split
      · exact visiting
      · cases rebuilt : r.rebuild t.op news s₁ with
        | error e s₂ =>
          rw [finalState_error rebuilt] at rebuilding
          exact ⟨rebuilding, trivial⟩
        | ok u s₂ =>
          rw [finalState_ok rebuilt] at rebuilding
          exact rebuilding

/-- What visiting and rebuilding keep of the solver, a walk keeps, however it ends. -/
theorem walkWith_keeps (w : Walker) (t : Term) (holds : I s) :
    I ((walkWith r w t).finalState s) := by
  have walk : ∀ cache : TermMap,
      Rewriter.Ending.Within (fun _ => I) (fun _ => True) (r.walk {} cache s [t]) := by
    intro cache
    refine Rewriter.walk_within (N := fun _ => True) (fun _ _ _ _ => trivial) ?_
      (fun _ _ => trivial)
      {} cache s [t] holds fun _ _ => trivial
    exact fun cache s' u news holds _ _ => settle_keeps visit rebuild cache u news holds
  have held := Walker.visit_within (fun _ _ => trivial) (walk (if w.clears then {} else w.cache))
  cases visited : Walker.visit r t (w, s) with
  | error e after =>
    rw [visited] at held
    have run : walkWith r w t s = .error e after.2 := by rw [walkWith, visited]
    rw [finalState_error run]
    cases held.1 with
    | inl same => exact same ▸ holds
    | inr holds => exact holds
  | ok u after =>
    rw [visited] at held
    have run : walkWith r w t s = .ok (after.1, u) after.2 := by rw [walkWith, visited]
    rw [finalState_ok run]
    exact held.1

end Keeping

omit [Engine σ S T] in
/-- A property of genuine terms that canonical terms have, and that a term shares with its
children. -/
structure Closed (K : Contract σ S T) (P : Solver σ S T → Term → Prop) : Prop where
  genuine : ∀ s t, P s t → s.session.Genuine t
  later : ∀ s s' t, Kept K s s' → P s t → P s' t
  child : ∀ s t c, s.Coherent K → P s t → c ∈ t.children → P s c
  has : ∀ s t, s.Coherent K → s.session.Has t → P s t

omit [Engine σ S T] in
theorem closed_genuine : Closed K fun s t => s.session.Genuine t where
  genuine _ _ genuine := genuine
  later _ _ _ kept genuine := genuine.extend kept.extension
  child _ _ _ _ genuine member := genuine.of_occursIn (.inChild member .here)
  has _ _ coherent ht := coherent.canonical.toInterned.genuine ht

/-- A walk that started at `s` has kept it coherent, and all images that it knows have the
property. -/
def Walked (K : Contract σ S T) (P : Solver σ S T → Term → Prop)
    (s : Solver σ S T) (cache : TermMap) (s' : Solver σ S T) : Prop :=
  Kept K s s' ∧ ∀ a u : Term, cache[a]? = some u → P s' u

theorem Walked.after (honoured : K.Honoured start) (closed : Closed K P) {cache : TermMap}
    {s'' : Solver σ S T} (walked : Walked K P s cache s') (kept : Kept K s' s'') :
    Walked K P s cache s'' :=
  ⟨walked.1.trans honoured kept, fun a u found => closed.later _ _ u kept (walked.2 a u found)⟩

omit [Engine σ S T] in
theorem Walked.insert {cache : TermMap} {u : Term} (walked : Walked K P s cache s')
    (holds : P s' u) (t : Term) : Walked K P s (cache.insert t u) s' := by
  refine ⟨walked.1, fun a v found => ?_⟩
  rw [Std.HashMap.getElem?_insert] at found
  split at found
  · cases found
    exact holds
  · exact walked.2 a v found

omit [Engine σ S T] in
theorem Walked.resolved {cache : TermMap} {u : Term} {ts news : List Term}
    (walked : Walked K P s cache s') (found : Rewriter.resolved cache u ts = .ok news) :
    ∀ v ∈ news, P s' v := by
  intro v hv
  obtain ⟨c, -, known⟩ := Rewriter.mem_resolved found hv
  exact walked.2 c v known

theorem walked_start (honoured : K.Honoured start) (coherent : s.Coherent K) {w : Walker}
    (known : ∀ a u : Term, w.cache[a]? = some u → P s u) :
    Walked K P s (if w.clears then {} else w.cache) s := by
  refine ⟨.refl honoured coherent, ?_⟩
  split
  · intro a u found
    simp at found
  · exact known

/-- What a rewriter has to do for its walks to stay among the terms of the property. -/
structure Tame (K : Contract σ S T) (P : Solver σ S T → Term → Prop) (r : Rewriter (Solver σ S T)) :
    Prop where
  visit : ∀ s t news, s.Coherent K → P s t → (∀ u ∈ news, P s u) →
    Keeps K (r.visit t news) s fun step s' => ∀ u, step = .replace u → P s' u
  rebuild : ∀ s op news, s.Coherent K → (∀ u ∈ news, P s u) →
    Keeps K (r.rebuild op news) s fun u s' => P s' u

theorem Tame.settles (honoured : K.Honoured start) (closed : Closed K P)
    {r : Rewriter (Solver σ S T)}
    (tame : Tame K P r) {cache : TermMap} {news : List Term} (walked : Walked K P s cache s')
    (node : P s t) (holds : ∀ u ∈ news, P s' u) :
    Rewriter.Settles (Walked K P s) K.Fails cache t (r.settle t news s') := by
  have node' := closed.later _ _ t walked.1 node
  have led := tame.visit s' t news walked.1.coherent node' holds
  unfold Rewriter.settle
  cases visited : r.visit t news s' with
  | error e s₁ =>
    obtain ⟨kept, may⟩ := Leads.failure led visited
    exact ⟨walked.after honoured closed kept, may⟩
  | ok step s₁ =>
    obtain ⟨kept, replaced⟩ := Leads.answer led visited
    have walked₁ := walked.after honoured closed kept
    have stays := walked₁.insert (closed.later _ _ t kept node') t
    cases step with
    | abort => exact walked₁
    | keep => exact stays
    | replace u => exact walked₁.insert (replaced u rfl) t
    | resume =>
      dsimp only
      split
      · exact stays
      · have led := tame.rebuild s₁ t.op news kept.coherent
          fun u hu => closed.later _ _ u kept (holds u hu)
        cases rebuilt : r.rebuild t.op news s₁ with
        | error e s₂ =>
          obtain ⟨kept, may⟩ := Leads.failure led rebuilt
          exact ⟨walked₁.after honoured closed kept, may⟩
        | ok u s₂ =>
          obtain ⟨kept, image⟩ := Leads.answer led rebuilt
          exact (walked₁.after honoured closed kept).insert image t

theorem Tame.walk (honoured : K.Honoured start) (closed : Closed K P) {r : Rewriter (Solver σ S T)}
    (tame : Tame K P r) {cache : TermMap} (walked : Walked K P s cache s) (root : P s t) :
    Rewriter.Ending.Within (Walked K P s) K.Fails (r.walk {} cache s [t]) := by
  refine Rewriter.walk_within (N := P s) ?_ ?_ honoured.fails {} cache s [t] walked ?_
  · exact fun u hu c hc => closed.child s u c walked.1.coherent hu hc
  · intro cache s' u news walked hu found
    exact tame.settles honoured closed walked hu (walked.resolved found)
  · intro u hu
    rw [List.mem_singleton.mp hu]
    exact root

theorem keeps_walkWith (honoured : K.Honoured start) (closed : Closed K P) (coherent : s.Coherent K)
    {r : Rewriter (Solver σ S T)} (tame : Tame K P r) {w : Walker}
    (known : ∀ a u : Term, w.cache[a]? = some u → P s u) (root : P s t) :
    Keeps K (walkWith r w t) s fun (w', u) s' =>
      P s' u ∧ ∀ a v : Term, w'.cache[a]? = some v → P s' v := by
  have held := Walker.visit_within honoured.fails
    (tame.walk honoured closed (walked_start honoured coherent known) root)
  cases visited : Walker.visit r t (w, s) with
  | error e after =>
    rw [visited] at held
    have run : walkWith r w t s = .error e after.2 := by rw [walkWith, visited]
    refine (leads_error run).mpr ⟨?_, held.2⟩
    cases held.1 with
    | inl same =>
      rw [same]
      exact .refl honoured coherent
    | inr walked => exact walked.1
  | ok u after =>
    rw [visited] at held
    obtain ⟨walked, image⟩ := held
    have run : walkWith r w t s = .ok (after.1, u) after.2 := by rw [walkWith, visited]
    refine (leads_ok run).mpr ⟨walked.1, ?_, walked.2⟩
    cases image with
    | inl found => exact walked.2 t u found
    | inr same => exact same ▸ closed.later _ _ t walked.1 root

theorem tame_identity (honoured : K.Honoured start) (closed : Closed K P) :
    Tame K P (.identity makeTerm : Rewriter (Solver σ S T)) where
  visit _ _ _ coherent _ _ := keeps_pure honoured coherent nofun
  rebuild s op _ coherent holds :=
    (keeps_makeTerm honoured coherent op fun u hu => closed.genuine s u (holds u hu)).mono
      fun _ _ kept ht => closed.has _ _ kept.coherent ht

theorem keeps_substituteAll (honoured : K.Honoured start) (closed : Closed K P) {w : Walker}
    {ts : List Term} {s : Solver σ S T} (coherent : s.Coherent K)
    (known : ∀ a u : Term, w.cache[a]? = some u → P s u) (roots : ∀ t ∈ ts, P s t) :
    Keeps K (substituteAll w ts) s fun us s' => ∀ u ∈ us, P s' u := by
  induction ts generalizing w s with
  | nil => exact keeps_pure honoured coherent fun u hu => absurd hu List.not_mem_nil
  | cons t ts ih =>
    rw [substituteAll]
    refine (keeps_walkWith honoured closed coherent (tame_identity honoured closed) known
      (roots t List.mem_cons_self)).bind honoured ?_
    rintro ⟨w', u⟩ s₁ kept₁ ⟨image, known₁⟩
    refine (ih kept₁.coherent known₁ fun a ha =>
      closed.later _ _ a kept₁ (roots a (List.mem_cons_of_mem _ ha))).bind honoured ?_
    intro us s₂ kept₂ images
    refine keeps_pure honoured kept₂.coherent fun v hv => ?_
    cases List.mem_cons.mp hv with
    | inl same => exact same ▸ closed.later _ _ u kept₂ image
    | inr hv => exact images v hv

theorem plainly_walker (map : TermMap) : Plainly (Substitution.walker map) := by
  unfold Substitution.walker
  split
  · exact .error trivial
  · exact .ok _

theorem cache_of_walker {map : TermMap} {w : Walker} (made : Substitution.walker map = .ok w) :
    w.cache = map ∧ w.clears = false := by
  unfold Substitution.walker at made
  split at made
  · cases made
  · cases made
    exact ⟨rfl, rfl⟩

theorem keeps_substituteTerms (honoured : K.Honoured start) (closed : Closed K P)
    (coherent : s.Coherent K) {ts : List Term} {map : TermMap} (roots : ∀ t ∈ ts, P s t)
    (images : ∀ a u : Term, map[a]? = some u → P s u) :
    Keeps K (substituteTerms ts map) s fun us s' => ∀ u ∈ us, P s' u := by
  refine (keeps_ofExcept honoured coherent (plainly_walker map)).bind honoured ?_
  rintro w _ _ ⟨made, same⟩
  subst same
  refine keeps_substituteAll honoured closed coherent ?_ roots
  rw [(cache_of_walker made).1]
  exact images

theorem keeps_substitute (honoured : K.Honoured start) (closed : Closed K P)
    (coherent : s.Coherent K)
    {map : TermMap} (root : P s t) (images : ∀ a u : Term, map[a]? = some u → P s u) :
    Keeps K (substitute t map) s fun u s' => P s' u := by
  refine (keeps_ofExcept honoured coherent (plainly_walker map)).bind honoured ?_
  rintro w _ _ ⟨made, same⟩
  subst same
  have known : ∀ a u : Term, w.cache[a]? = some u → P s u := by
    rw [(cache_of_walker made).1]
    exact images
  refine (keeps_walkWith honoured closed coherent (tame_identity honoured closed) known
    root).bind honoured ?_
  rintro ⟨_, u⟩ s₁ kept₁ h
  exact keeps_pure honoured kept₁.coherent h.1

mutual
theorem keeps_declareSorts (honoured : K.Honoured start) (sort : LogicSort) {s : Solver σ S T}
    (coherent : s.Coherent K) : Keeps K (declareSorts sort) s fun _ s' => SameTerms s s' := by
  cases sort with
  | uninterpreted name arity =>
    rw [declareSorts]
    refine keeps_get ?_
    split
    · exact (keeps_makeUninterpretedSort honoured coherent name arity).bind honoured
        fun _ _ kept terms => keeps_pure honoured kept.coherent terms
    · exact keeps_pure honoured coherent (.refl s)
  | datatype name =>
    rw [declareSorts]
    refine keeps_get ?_
    split
    · exact keeps_throw honoured coherent trivial
    · exact keeps_pure honoured coherent (.refl s)
  | array index element =>
    rw [declareSorts]
    refine (keeps_declareSorts honoured element coherent).bind honoured ?_
    intro _ _ kept terms
    exact (keeps_declareSorts honoured index kept.coherent).mono fun _ _ _ h => terms.trans h
  | function domain range =>
    rw [declareSorts]
    refine (keeps_declareSorts honoured range coherent).bind honoured ?_
    intro _ _ kept terms
    exact (keeps_declareAll honoured domain kept.coherent).mono fun _ _ _ h => terms.trans h
  | bool | int | real | bitVec | param | unresolved =>
    rw [declareSorts]
    exact keeps_pure honoured coherent (.refl s)
theorem keeps_declareAll (honoured : K.Honoured start) (sorts : List LogicSort)
    {s : Solver σ S T} (coherent : s.Coherent K) :
    Keeps K (declareAll sorts) s fun _ s' => SameTerms s s' := by
  cases sorts with
  | nil =>
    rw [declareAll]
    exact keeps_pure honoured coherent (.refl s)
  | cons sort rest =>
    rw [declareAll]
    refine (keeps_declareAll honoured rest coherent).bind honoured ?_
    intro _ _ kept terms
    exact (keeps_declareSorts honoured sort kept.coherent).mono fun _ _ _ h => terms.trans h
end

theorem keeps_matchSymbol (honoured : K.Honoured start) (coherent : s.Coherent K) (name : String)
    (sort : LogicSort) :
    Keeps K (matchSymbol name sort) s fun t s' => s'.session.Has t ∧
      (t.op = .null ∧ t.sort = sort ∧ t.kind = .symbol name ∧ t.children = []) ∧
      Frugal s t s' := by
  refine keeps_get ?_
  split
  · rename_i known found
    obtain ⟨has, kind⟩ := (coherent.canonical.symbols name known).mp found
    have formed := coherent.canonical.formed known has
    rw [Term.Formed, kind] at formed
    refine (keeps_ofExcept honoured coherent
      (LogicSort.plainly_expectSame known.sort sort)).bind honoured ?_
    rintro _ _ _ ⟨same, rfl⟩
    have sort_eq := LogicSort.expectSame_eq_ok_iff.mp same
    exact keeps_pure honoured coherent
      ⟨has, ⟨formed.1, sort_eq, kind, formed.2⟩, fun _ hu => .inl hu, fun _ => .refl _⟩
  · refine (keeps_declareSorts honoured sort coherent).bind honoured ?_
    intro _ s₁ kept₁ terms
    refine (keeps_symbol honoured kept₁.coherent name sort).mono ?_
    rintro t _ _ ⟨has, structure_eq, frugal⟩
    exact ⟨has, structure_eq, terms.frugal frugal⟩

theorem keeps_translate (honoured : K.Honoured start) (coherent : s.Coherent K) (t : Term)
    {children : List Term} (genuine : ∀ c ∈ children, s.session.Genuine c) :
    Keeps K (translate t children) s fun u s' => s'.session.Has u := by
  unfold translate
  split
  · exact (keeps_matchSymbol honoured coherent _ _).mono fun _ _ _ h => h.1
  · exact keeps_makeValue honoured coherent _ _
  · exact keeps_makeConstArray honoured coherent (genuine _ List.mem_cons_self) _
  · exact keeps_throw honoured coherent trivial
  · exact keeps_makeTerm honoured coherent _ genuine

theorem tame_translator (honoured : K.Honoured start) (closed : Closed K P) :
    Tame K P (translator : Rewriter (Solver σ S T)) where
  visit s t _ coherent _ holds := by
    refine (keeps_translate honoured coherent t fun u hu =>
      closed.genuine s u (holds u hu)).bind honoured ?_
    intro u s₁ kept₁ known
    refine keeps_pure honoured kept₁.coherent fun v same => ?_
    cases same
    exact closed.has _ _ kept₁.coherent known
  rebuild s op news coherent holds :=
    (keeps_makeTerm honoured coherent op fun u hu => closed.genuine s u (holds u hu)).mono
      fun _ _ kept ht => closed.has _ _ kept.coherent ht

theorem keeps_transfer (honoured : K.Honoured start) (closed : Closed K P) (coherent : s.Coherent K)
    (root : P s t) : Keeps K (transfer t) s fun u s' => P s' u := by
  have known : ∀ a u : Term, ({ clears := true } : Walker).cache[a]? = some u → P s u := by
    intro a u found
    simp at found
  refine (keeps_walkWith honoured closed coherent (tame_translator honoured closed) known
    root).bind honoured ?_
  rintro ⟨_, u⟩ s₁ kept₁ h
  exact keeps_pure honoured kept₁.coherent h.1

end FormulaGraph.Solver
