import FormulaGraph.Proofs.Solver.Freshness
import FormulaGraph.Proofs.Solver.Substitution

/-!
Substitution among terms of any sessions. Only a node that is rebuilt is looked up in the session.
What is not rebuilt comes out as it is, wherever it is from: the value of a key, and a term in which
nothing changes.
-/

namespace FormulaGraph

namespace Term

/-- Something else becomes of the term: it is a key with another value, or a node that is rebuilt
for a child. -/
inductive Altered (m : TermMap) : Term → Prop
  | replaced {t v : Term} (found : m[t]? = some v) (other : v.id ≠ t.id) : Altered m t
  | rebuilt {t c : Term} (absent : m[t]? = none) (proper : t.isValue = false)
      (child : c ∈ t.children)
      (altered : Altered m c) : Altered m t

/-- The term becomes one of another session: a key has such a value, or nothing changes in such a
term. -/
inductive Strays (m : TermMap) (number : Nat) (t : Term) : Prop
  | value {v : Term} (found : m[t]? = some v) (foreign : v.session ≠ number)
  | stays (absent : m[t]? = none) (unaltered : ¬ t.Altered m) (foreign : t.session ≠ number)

/-- In the term, outside of the keys, there is a node that has to be rebuilt over a child of another
session. -/
inductive Mixes (m : TermMap) (number : Nat) : Term → Prop
  | here {t c d : Term} (absent : m[t]? = none) (proper : t.isValue = false)
      (child : c ∈ t.children)
      (altered : c.Altered m) (other : d ∈ t.children) (strays : d.Strays m number) :
        Mixes m number t
  | deeper {t c : Term} (absent : m[t]? = none) (child : c ∈ t.children)
      (mixes : Mixes m number c) :
      Mixes m number t

/-- What becomes of a term: as a key its value, the term itself if nothing changes in it, and
otherwise a term of the session. -/
inductive Becomes {S T : Type} [BEq T] [Hashable T] (m : TermMap)
    (session : Session S T) (t : Term) :
    Term → Prop
  | value {v : Term} (found : m[t]? = some v) : Becomes m session t v
  | stays (absent : m[t]? = none) (unaltered : ¬ t.Altered m) : Becomes m session t t
  | rebuilt {u : Term} (absent : m[t]? = none) (altered : t.Altered m) (has : session.Has u)
      (other : u.id ≠ t.id) : Becomes m session t u

variable {S T : Type} [BEq T] [Hashable T] {session session' : Session S T}
    {m : TermMap} {t u : Term}

theorem Becomes.extend (becomes : Becomes m session t u) (extension : session.Extends session') :
    Becomes m session' t u := by
  cases becomes with
  | value found => exact .value found
  | stays absent unaltered => exact .stays absent unaltered
  | rebuilt absent altered has other => exact .rebuilt absent altered (extension.has u has) other

theorem Becomes.altered_iff (becomes : Becomes m session t u) : t.Altered m ↔ u.id ≠ t.id := by
  cases becomes with
  | value found =>
    refine ⟨fun altered => ?_, .replaced found⟩
    cases altered with
    | replaced found' other =>
      cases found.symm.trans found'
      exact other
    | rebuilt absent => cases found.symm.trans absent
  | stays absent unaltered => exact iff_of_false unaltered (not_not_intro rfl)
  | rebuilt absent altered has other => exact iff_of_true altered other

theorem Becomes.strays_iff (becomes : Becomes m session t u) (interned : session.Interned) :
    t.Strays m session.number ↔ u.session ≠ session.number := by
  cases becomes with
  | value found =>
    refine ⟨fun strays => ?_, .value found⟩
    cases strays with
    | value found' foreign =>
      cases found.symm.trans found'
      exact foreign
    | stays absent => cases found.symm.trans absent
  | stays absent unaltered =>
    refine ⟨fun strays => ?_, .stays absent unaltered⟩
    cases strays with
    | value found => cases absent.symm.trans found
    | stays _ _ foreign => exact foreign
  | rebuilt absent altered has other =>
    refine iff_of_false (fun strays => ?_) (not_not_intro (interned.numbered u has))
    cases strays with
    | value found => cases absent.symm.trans found
    | stays _ unaltered => exact unaltered altered

theorem not_mixes_of_key {v : Term} {number : Nat} (found : m[t]? = some v) :
    ¬ t.Mixes m number := by
  intro mixes
  cases mixes with
  | here absent | deeper absent => cases found.symm.trans absent

end Term

namespace Solver

open FormulaGraph.Action

variable {σ S T : Type} [BEq T] [Hashable T] {s s' s'' : Solver σ S T}
    {D : Set Term} {m cache : TermMap}
  {t u : Term}

/-- Terms of any sessions that a solver may be given: with all that is below them, told apart by
identifiers, and known to the solver if they are of its session. -/
structure Surveys (s : Solver σ S T) (D : Set Term) : Prop where
  whole : ∀ t ∈ D, ∀ c ∈ t.children, c ∈ D
  ordered : ∀ t ∈ D, t.Ordered
  genuine : ∀ t ∈ D, t.session = s.session.number → s.session.Has t
  supplied : ∀ t ∈ D, t.id < s.session.supply.nextTerm
  apart : ∀ t ∈ D, ∀ u, u ∈ D ∨ s.session.Has u → t.id = u.id → t = u

theorem Surveys.later (surveys : Surveys s D) (mints : Mints s s')
    (extension : s.session.Extends s'.session) : Surveys s' D where
  whole := surveys.whole
  ordered := surveys.ordered
  genuine t ht number := extension.has t (surveys.genuine t ht (number.trans extension.number))
  supplied t ht := Nat.lt_of_lt_of_le (surveys.supplied t ht) mints.drawn.nextTerm
  apart t ht u known same := by
    obtain known | has := known
    · exact surveys.apart t ht u (.inl known) same
    · obtain old | new := mints.has u has
      · exact surveys.apart t ht u (.inr old) same
      · exact absurd same (Nat.ne_of_lt (Nat.lt_of_lt_of_le (surveys.supplied t ht) new))

theorem Surveys.has_image (surveys : Surveys s D)
    (values : ∀ a v : Term, m[a]? = some v → v ∈ D) (ht : t ∈ D)
    (becomes : t.Becomes m s.session u) (number : u.session = s.session.number) :
    s.session.Has u := by
  cases becomes with
  | value found => exact surveys.genuine u (values t u found) number
  | stays => exact surveys.genuine t ht number
  | rebuilt _ _ has => exact has

/-- How a term passes a substitution from the one state to the other: what becomes of it is of the
session just if it does not stray, and nothing was mixed in it. -/
structure Passes (m : TermMap) (s s' : Solver σ S T) (t u : Term) : Prop where
  becomes : t.Becomes m s'.session u
  has_iff : s'.session.Has u ↔ ¬ t.Strays m s.session.number
  unmixed : ¬ t.Mixes m s.session.number

theorem Passes.later (passes : Passes m s s' t u) (interned : s''.session.Interned)
    (number : s'.session.number = s.session.number) (extension : s'.session.Extends s''.session) :
    Passes m s s'' t u := by
  have becomes := passes.becomes.extend extension
  have strays := becomes.strays_iff interned
  rw [extension.number, number] at strays
  refine ⟨becomes, ⟨fun has => ?_, fun stays => extension.has u (passes.has_iff.mpr stays)⟩,
    passes.unmixed⟩
  rw [strays, not_not, interned.numbered u has, extension.number, number]

variable [Engine σ S T] {K : Contract σ S T} {start : σ → Prop}

/-- A walk of the map that started at a solver, with terms of any sessions, is here. -/
structure Passing (K : Contract σ S T) (D : Set Term) (m : TermMap)
    (s : Solver σ S T) (cache : TermMap) (s' : Solver σ S T) : Prop where
  kept : Kept K s s'
  surveys : Surveys s' D
  seeds : ∀ a v : Term, m[a]? = some v → cache[a]? = some v
  known : ∀ a ∈ D, ∀ u, cache[a]? = some u → a.Becomes m s'.session u ∧ ¬ a.Mixes m s.session.number

/-- How a substitution may fail: on a term of another session that was to be put into a node, or
just as an application cannot be built of terms of the session. -/
inductive Rejects (m : TermMap) (ts : List Term) (s : Solver σ S T) : Error → Prop
  | foreign {t a : Term} (member : t ∈ ts) (mixes : t.Mixes m s.session.number)
      (foreign : a.session ≠ s.session.number) : Rejects m ts s (.usage (.foreignTerm a))
  | application {op : Op} {args : List Term} {s₁ s₂ : Solver σ S T} {e : Error}
      (extension : s.session.Extends s₁.session) (has : ∀ a ∈ args, s₁.session.Has a)
      (failed : makeTerm op args s₁ = .error e s₂) : Rejects m ts s e

theorem passing_map (honoured : K.Honoured start) (coherent : s.Coherent K)
    (surveys : Surveys s D) :
    Passing K D m s m s :=
  ⟨.refl honoured coherent, surveys, fun _ _ found => found,
    fun _ _ _ found => ⟨.value found, Term.not_mixes_of_key found⟩⟩

omit [Engine σ S T] in
theorem Passing.absent (passing : Passing K D m s cache s') (unknown : cache.contains t = false) :
    m[t]? = none := by
  cases found : m[t]? with
  | none => rfl
  | some v =>
    rw [contains_of_getElem? (passing.seeds t v found)] at unknown
    cases unknown

theorem Passing.later (honoured : K.Honoured start) (passing : Passing K D m s cache s')
    (kept : Kept K s' s'') (mints : Mints s' s'') : Passing K D m s cache s'' where
  kept := passing.kept.trans honoured kept
  surveys := passing.surveys.later mints kept.extension
  seeds := passing.seeds
  known a ha u found := (passing.known a ha u found).imp_left fun becomes =>
    becomes.extend kept.extension

omit [Engine σ S T] in
theorem Passing.insert (passing : Passing K D m s cache s')
    (unknown : cache.contains t = false) (ht : t ∈ D)
    (becomes : t.Becomes m s'.session u) (pure : ¬ t.Mixes m s.session.number) :
    Passing K D m s (cache.insert t u) s' := by
  refine ⟨passing.kept, passing.surveys, fun a v found => ?_, fun a ha v found => ?_⟩
  · have other : (t == a) = false := by
      cases same : t == a with
      | false => rfl
      | true =>
        cases ((Std.HashMap.getElem?_congr same).symm.trans (passing.absent unknown)).symm.trans
          found
    rw [Std.HashMap.getElem?_insert, other]
    exact passing.seeds a v found
  · rw [Std.HashMap.getElem?_insert] at found
    split at found
    · rename_i same
      cases found
      rw [← passing.surveys.apart t ht a (.inl ha) (Term.beq_iff.mp same)]
      exact ⟨becomes, pure⟩
    · exact passing.known a ha v found

omit [Engine σ S T] in
theorem unchanged_map_iff {f : Term → Term} :
    Rewriter.unchanged (t.children.map f) t = true ↔ ∀ c ∈ t.children, (f c).id = c.id := by
  rw [← Rewriter.beq_eq_unchanged (by simp), beq_iff_ids, List.map_map, List.map_inj_left]
  exact Iff.rfl

theorem makeTerm_foreign {args : List Term} (coherent : s.Coherent K) (op : Op)
    (foreign : ∃ a ∈ args, a.session ≠ s.session.number)
    (own : ∀ a ∈ args, a.session = s.session.number → s.session.Has a) :
    ∃ a, a.session ≠ s.session.number ∧
      makeTerm op args s = .error (.usage (.foreignTerm a)) s := by
  obtain ⟨a, away, failed⟩ := Session.natives_foreign foreign fun b hb number => by
    obtain ⟨n, found⟩ := coherent.native (own b hb number)
    exact ⟨n, Session.native_of_has number found⟩
  have refused : natives args s = .error (.usage (.foreignTerm a)) s := by
    rw [natives_eq_ask, ask, failed]
  exact ⟨a, away, bind_error refused⟩

omit [Engine σ S T] in
theorem Passing.children (passing : Passing K D m s cache s') (ht : t ∈ D)
    (resolved : ∀ c ∈ t.children, cache.contains c = true) :
    ∀ c ∈ t.children, c.Becomes m s'.session (cache.getD c c) ∧ ¬ c.Mixes m s.session.number := by
  intro c hc
  have found := resolved c hc
  rw [Std.HashMap.contains_eq_isSome_getElem?, Option.isSome_iff_exists] at found
  obtain ⟨u, found⟩ := found
  rw [Std.HashMap.getD_eq_getD_getElem?, found]
  exact passing.known c (passing.surveys.whole t ht c hc) u found

omit [Engine σ S T] in
/-- A node that is not altered stays, and nothing was mixed below it. -/
theorem Passing.stay (passing : Passing K D m s cache s') (ht : t ∈ D)
    (unknown : cache.contains t = false)
    (resolved : ∀ c ∈ t.children, cache.contains c = true) (unaltered : ¬ t.Altered m) :
    Passing K D m s (cache.insert t t) s' := by
  have absent := passing.absent unknown
  refine passing.insert unknown ht (.stays absent unaltered) fun mixes => ?_
  cases mixes with
  | here _ proper child altered => exact unaltered (.rebuilt absent proper child altered)
  | deeper _ child mixes => exact (passing.children ht resolved _ child).2 mixes

/-- A node of which a child has changed is rebuilt in the session, unless a child is of another
session. -/
theorem Passing.rebuild (honoured : K.Honoured start) (passing : Passing K D m s cache s')
    (values : ∀ a v : Term, m[a]? = some v → v ∈ D) (unknown : cache.contains t = false)
    (resolved : ∀ c ∈ t.children, cache.contains c = true) (ht : t ∈ D) {ts : List Term}
    (root : t.Mixes m s.session.number → ∃ r ∈ ts, r.Mixes m s.session.number)
    (proper : t.isValue = false)
    {c : Term} (hc : c ∈ t.children) (changed : (cache.getD c c).id ≠ c.id) :
    Leads (fun _ => Passing K D m s cache) (Rejects m ts s)
      (makeTerm t.op (t.children.map fun c => cache.getD c c)) s' fun u s'' =>
        Passing K D m s (cache.insert t u) s'' := by
  have absent := passing.absent unknown
  have children := passing.children ht resolved
  have interned := passing.kept.coherent.canonical.toInterned
  have number : s'.session.number = s.session.number := passing.kept.extension.number
  have altered := (children c hc).1.altered_iff.mpr changed
  have own : ∀ a ∈ t.children.map fun c => cache.getD c c,
      a.session = s'.session.number → s'.session.Has a := by
    intro a ha number
    obtain ⟨d, hd, rfl⟩ := List.mem_map.mp ha
    exact passing.surveys.has_image values (passing.surveys.whole t ht d hd)
      (children d hd).1 number
  by_cases foreign : ∃ a ∈ t.children.map fun c => cache.getD c c, a.session ≠ s'.session.number
  · obtain ⟨a, away, refused⟩ := makeTerm_foreign passing.kept.coherent t.op foreign own
    obtain ⟨b, hb, foreign⟩ := foreign
    obtain ⟨d, hd, rfl⟩ := List.mem_map.mp hb
    have strays := ((children d hd).1.strays_iff interned).mpr foreign
    rw [number] at strays away
    obtain ⟨r, hr, mixes⟩ := root (.here absent proper hc altered hd strays)
    exact (leads_error refused).mpr ⟨passing, .foreign hr mixes away⟩
  · have has : ∀ a ∈ t.children.map fun c => cache.getD c c, s'.session.Has a := fun a ha =>
      own a ha (by_contra fun away => foreign ⟨a, ha, away⟩)
    have built := keeps_application honoured passing.kept.coherent t.op fun a ha =>
      interned.genuine (has a ha)
    have mints := abides_makeTerm (R := Mints) t.op (t.children.map fun c => cache.getD c c) s'
    cases made : makeTerm t.op (t.children.map fun c => cache.getD c c) s' with
    | error e s'' =>
      rw [finalState_error made] at mints
      have kept := (Leads.failure built made).1
      exact (leads_error made).mpr
        ⟨passing.later honoured kept mints, .application passing.kept.extension has made⟩
    | ok u s'' =>
      rw [finalState_ok made] at mints
      obtain ⟨kept, has', -, -, args, -⟩ := Leads.answer built made
      have later := passing.later honoured kept mints
      have other : u.id ≠ t.id := by
        intro same
        have eq := later.surveys.apart t ht u (.inr has') same.symm
        rw [← eq] at args
        -- The node would be its own image, so its children would be theirs.
        have still : cache.getD c c = c :=
          List.map_inj_left.mp (args.symm.trans (List.map_id _).symm) c hc
        exact changed (congrArg Term.id still)
      refine (leads_ok made).mpr ⟨later, later.insert unknown ht
        (.rebuilt absent (.rebuilt absent proper hc altered) has' other) fun mixes => ?_⟩
      cases mixes with
      | here _ _ _ _ member strays =>
        have away := ((children _ member).1.strays_iff interned).mp (number ▸ strays)
        exact foreign ⟨_, List.mem_map_of_mem member, away⟩
      | deeper _ child mixes => exact (children _ child).2 mixes

theorem Passing.settle (honoured : K.Honoured start) (passing : Passing K D m s cache s')
    (values : ∀ a v : Term, m[a]? = some v → v ∈ D) (unknown : cache.contains t = false)
    (resolved : ∀ c ∈ t.children, cache.contains c = true) (ht : t ∈ D) {ts : List Term}
    (root : t.Mixes m s.session.number → ∃ r ∈ ts, r.Mixes m s.session.number) :
    Rewriter.Settles (Passing K D m s) (Rejects m ts s) cache t
      ((Rewriter.identity makeTerm).settle t (t.children.map fun c => cache.getD c c) s') := by
  have visited : (Rewriter.identity makeTerm).visit t (t.children.map fun c => cache.getD c c) s' =
      .ok .resume s' := rfl
  unfold Rewriter.settle
  rw [visited]
  dsimp only
  by_cases same :
    (Rewriter.unchanged (t.children.map fun c => cache.getD c c) t || t.isValue) = true
  · rw [if_pos same]
    refine passing.stay ht unknown resolved fun altered => ?_
    cases altered with
    | replaced found => cases (passing.absent unknown).symm.trans found
    | rebuilt _ proper child altered =>
      rw [proper, Bool.or_false] at same
      have changed := (passing.children ht resolved _ child).1.altered_iff.mp altered
      exact changed (unchanged_map_iff.mp same _ child)
  · rw [if_neg same]
    rw [Bool.or_eq_true, not_or, unchanged_map_iff] at same
    obtain ⟨changed, proper⟩ := same
    simp only [not_forall] at changed
    obtain ⟨c, hc, changed⟩ := changed
    have built :=
      passing.rebuild honoured values unknown resolved ht root (by simpa using proper) hc changed
    cases made : makeTerm t.op (t.children.map fun c => cache.getD c c) s' with
    | ok u s'' =>
      have rebuilt :
        (Rewriter.identity makeTerm).rebuild t.op (t.children.map fun c => cache.getD c c) s' =
          .ok u s'' := made
      rw [rebuilt]
      exact (Leads.answer built made).2
    | error e s'' =>
      have rebuilt :
        (Rewriter.identity makeTerm).rebuild t.op (t.children.map fun c => cache.getD c c) s' =
          .error e s'' := made
      rw [rebuilt]
      exact Leads.failure built made

omit [Engine σ S T] in
theorem Passing.passes (passing : Passing K D m s cache s')
    (values : ∀ a v : Term, m[a]? = some v → v ∈ D)
    (ht : t ∈ D) (found : cache[t]? = some u) : Passes m s s' t u := by
  obtain ⟨becomes, unmixed⟩ := passing.known t ht u found
  have interned := passing.kept.coherent.canonical.toInterned
  have strays := becomes.strays_iff interned
  rw [passing.kept.extension.number] at strays
  refine ⟨becomes, ⟨fun has => ?_, fun stays => ?_⟩, unmixed⟩
  · rw [strays, not_not, interned.numbered u has, passing.kept.extension.number]
  · rw [strays, not_not, ← passing.kept.extension.number] at stays
    exact passing.surveys.has_image values ht becomes stays

theorem Passing.rebase (honoured : K.Honoured start) (passing : Passing K D m s cache s') :
    Passing K D m s' cache s' where
  kept := .refl honoured passing.kept.coherent
  surveys := passing.surveys
  seeds := passing.seeds
  known a ha u found := by
    rw [passing.kept.extension.number]
    exact passing.known a ha u found

theorem Rejects.earlier {ts : List Term} {e : Error} (rejects : Rejects m ts s' e)
    (extension : s.session.Extends s'.session) : Rejects m ts s e := by
  cases rejects with
  | foreign member mixes foreign =>
    rw [extension.number] at mixes foreign
    exact .foreign member mixes foreign
  | application extension' has failed => exact .application (extension.trans extension') has failed

/-- A walker of the map that may have visited some of the terms. -/
structure Walking (K : Contract σ S T) (D : Set Term) (m : TermMap) (w : Walker)
    (s : Solver σ S T) : Prop where
  passing : Passing K D m s w.cache s
  lasting : w.clears = false

variable {w : Walker} {ts us : List Term}

/-- What a visit answers is what the recursion on the tree leaves in the cache; it is never
stopped. -/
theorem walkWith_of_rewrite (acyclic : t.Acyclic) (lasting : w.clears = false) (s : Solver σ S T) :
    match Rewriter.rewrite (.identity makeTerm) t (w.cache, s) with
    | .ok _ (cache, s') => ∃ u, cache[t]? = some u ∧
        walkWith (.identity makeTerm) w t s = .ok ({ cache }, u) s'
    | .error (.failed e) (_, s') => walkWith (.identity makeTerm) w t s = .error e s'
    | .error .stopped _ => False := by
  have visited : Walker.visit (.identity makeTerm) t (w, s) =
      Walker.recurse (.identity makeTerm) t (w, s) := Walker.visit_eq_recurse _ acyclic w rfl
  rw [Walker.recurse, lasting] at visited
  simp only [Bool.false_eq_true, if_false] at visited
  have known := fun u after (done : Walker.visit (.identity makeTerm) t (w, s) = .ok u after) =>
    Walker.known_of_visit (fun _ _ _ _ stopped => by cases stopped) done
  have progress := (Rewriter.identity makeTerm).rewrite_progress acyclic w.cache s
  cases ended : Rewriter.rewrite (.identity makeTerm) t (w.cache, s) with
  | ok _ after =>
    rw [ended] at visited
    exact ⟨_, known _ _ visited, by rw [walkWith, visited]⟩
  | error halt after =>
    rw [ended] at visited progress
    cases halt with
    | stopped => cases progress.2.symm.trans (contains_of_getElem? (known _ _ visited))
    | failed e =>
      show walkWith (.identity makeTerm) w t s = .error e after.2
      rw [walkWith, visited]

/-- A visit lets the term pass, or fails as it may. -/
theorem Walking.visit (honoured : K.Honoured start) (walking : Walking K D m w s)
    (values : ∀ a v : Term, m[a]? = some v → v ∈ D) (ht : t ∈ D) (member : t ∈ ts) :
    Leads (Kept K) (Rejects m ts s) (walkWith (.identity makeTerm) w t) s fun answer s' =>
      Walking K D m answer.1 s' ∧ Passes m s s' t answer.2 := by
  have acyclic := (walking.passing.surveys.ordered t ht).acyclic
  have rewritten := Rewriter.rewrite_within (r := .identity makeTerm) (I := Passing K D m s)
    (F := Rejects m ts s)
    (N := fun a => a ∈ D ∧ (a.Mixes m s.session.number → ∃ r ∈ ts, r.Mixes m s.session.number))
    (fun cache s₁ a passing unknown node c hc =>
      ⟨passing.surveys.whole a node.1 c hc, fun mixes =>
        node.2 (.deeper (passing.absent unknown) hc mixes)⟩)
    (fun cache s₁ a passing unknown resolved node =>
      passing.settle honoured values unknown resolved node.1 node.2)
    acyclic walking.passing ⟨ht, fun mixes => ⟨t, member, mixes⟩⟩
  have walked := walkWith_of_rewrite acyclic walking.lasting s
  cases ended : Rewriter.rewrite (.identity makeTerm) t (w.cache, s) with
  | ok _ after =>
    rw [ended] at rewritten walked
    obtain ⟨u, found, run⟩ := walked
    exact (leads_ok run).mpr
      ⟨rewritten.kept, ⟨rewritten.rebase honoured, rfl⟩, rewritten.passes values ht found⟩
  | error halt after =>
    rw [ended] at rewritten walked
    cases halt with
    | stopped => exact walked.elim
    | failed e => exact (leads_error walked).mpr ⟨rewritten.1.kept, rewritten.2⟩

theorem Walking.visits (honoured : K.Honoured start) (walking : Walking K D m w s)
    (values : ∀ a v : Term, m[a]? = some v → v ∈ D) {rest : List Term} (given : ∀ t ∈ rest, t ∈ D)
    (members : ∀ t ∈ rest, t ∈ ts) :
    Leads (Kept K) (Rejects m ts s) (substituteAll w rest) s fun us s' =>
      List.Forall₂ (Passes m s s') rest us := by
  induction rest generalizing w s with
  | nil => exact leads_pure (.refl honoured walking.passing.kept.coherent) .nil
  | cons t rest ih =>
    obtain ⟨ht, given⟩ := List.forall_mem_cons.mp given
    obtain ⟨member, members⟩ := List.forall_mem_cons.mp members
    rw [substituteAll]
    refine (walking.visit honoured values ht member).bind (.trans honoured) ?_
    rintro ⟨w', u⟩ s₁ kept₁ ⟨walking₁, passes⟩
    have others := (ih walking₁ given members).allow fun e rejects =>
      rejects.earlier kept₁.extension
    refine others.bind (.trans honoured) ?_
    intro us s₂ kept₂ passed
    have number := kept₁.extension.number
    have passed : List.Forall₂ (Passes m s s₂) rest us := passed.imp fun a b passes =>
      ⟨passes.becomes, number ▸ passes.has_iff, number ▸ passes.unmixed⟩
    have first := passes.later kept₂.coherent.canonical.toInterned number kept₂.extension
    exact leads_pure (.refl honoured kept₂.coherent) (.cons first passed)

section Requests

variable (honoured : K.Honoured start) (coherent : s.Coherent K) (surveys : Surveys s D)
  (values : ∀ a v : Term, m[a]? = some v → v ∈ D) (sorted : ∀ p ∈ m.toList, p.1.sort = p.2.sort)

include honoured coherent surveys values sorted

theorem passes_substituteTerms (given : ∀ t ∈ ts, t ∈ D) :
    Leads (Kept K) (Rejects m ts s) (substituteTerms ts m) s fun us s' =>
      List.Forall₂ (Passes m s s') ts us := by
  have walking : Walking K D m { cache := m } s := ⟨passing_map honoured coherent surveys, rfl⟩
  rw [substituteTerms, walker_of_sorted sorted]
  exact walking.visits honoured values given fun _ ht => ht

theorem passes_substitute (ht : t ∈ D) :
    Leads (Kept K) (Rejects m [t] s) (substitute t m) s fun u s' => Passes m s s' t u := by
  have walking : Walking K D m { cache := m } s := ⟨passing_map honoured coherent surveys, rfl⟩
  rw [substitute, walker_of_sorted sorted]
  show Leads _ _ (walkWith (.identity makeTerm) { cache := m } t >>= _) s _
  refine (walking.visit honoured values ht List.mem_cons_self).bind (.trans honoured) ?_
  intro answer s' kept visited
  exact leads_pure (.refl honoured kept.coherent) visited.2

end Requests

/-- All that is known of terms in which no key occurs is that they stay. -/
def Still (D : Set Term) (m cache : TermMap) : Prop :=
  ∀ a ∈ D, a.Untouched m → ∀ u, cache[a]? = some u → u = a

omit [Engine σ S T] in
theorem Still.insert (surveys : Surveys s D) (stays : Still D m cache) (ht : t ∈ D) :
    Still D m (cache.insert t t) := by
  intro a ha untouched u found
  rw [Std.HashMap.getElem?_insert] at found
  split at found
  · rename_i same
    cases found
    exact surveys.apart t ht a (.inl ha) (Term.beq_iff.mp same)
  · exact stays a ha untouched u found

theorem substitute_untouched (surveys : Surveys s D) (sorted : ∀ p ∈ m.toList, p.1.sort = p.2.sort)
    (ht : t ∈ D) (untouched : t.Untouched m) : substitute t m s = .ok t s := by
  have acyclic := (surveys.ordered t ht).acyclic
  have rewritten := Rewriter.rewrite_within (r := .identity makeTerm)
    (I := fun cache s' => s' = s ∧ Still D m cache) (F := fun _ => False)
    (N := fun a => a ∈ D ∧ a.Untouched m)
    (fun _ _ a _ _ node c hc =>
      ⟨surveys.whole a node.1 c hc, fun b hb => node.2 b (.inChild hc hb)⟩)
    (fun cache s' a ⟨same, stays⟩ _ resolved node => by
      have still : ∀ c ∈ a.children, (cache.getD c c).id = c.id := fun c hc => by
        have found := resolved c hc
        rw [Std.HashMap.contains_eq_isSome_getElem?, Option.isSome_iff_exists] at found
        obtain ⟨u, found⟩ := found
        rw [Std.HashMap.getD_eq_getD_getElem?, found]
        have below := fun b hb => node.2 b (.inChild hc hb)
        exact congrArg Term.id (stays c (surveys.whole a node.1 c hc) below u found)
      have visited : (Rewriter.identity makeTerm).visit a
          (a.children.map fun c => cache.getD c c) s' = .ok .resume s' := rfl
      unfold Rewriter.settle
      rw [visited]
      dsimp only
      rw [unchanged_map_iff.mpr still, Bool.true_or, if_pos rfl]
      exact ⟨same, stays.insert surveys node.1⟩)
    acyclic ⟨rfl, fun a _ untouched u found => by cases (untouched a .here).symm.trans found⟩
    ⟨ht, untouched⟩
  have walked := walkWith_of_rewrite (w := { cache := m }) acyclic rfl s
  rw [substitute, walker_of_sorted sorted]
  show (walkWith (.identity makeTerm) { cache := m } t >>= _) s = _
  cases ended : Rewriter.rewrite (.identity makeTerm) t (m, s) with
  | ok _ after =>
    rw [ended] at rewritten walked
    obtain ⟨u, found, run⟩ := walked
    obtain ⟨same, stays⟩ := rewritten
    rw [bind_ok run, stays t ht untouched u found, same]
    rfl
  | error halt after =>
    rw [ended] at rewritten walked
    cases halt with
    | stopped => exact walked.elim
    | failed e => exact rewritten.2.elim

end Solver

namespace World

open FormulaGraph.Action

variable {ι : Type} [DecidableEq ι] {σ S T : ι → Type} [∀ i, BEq (T i)] [∀ i, Hashable (T i)]
  [∀ i, Engine (σ i) (S i) (T i)] [∀ i, EquivBEq (T i)] [∀ i, LawfulHashable (T i)]
    {w : World σ S T} {i : ι}
  {s : Solver (σ i) (S i) (T i)} {m : TermMap} {ts : List Term}

theorem Reached.surveys (reached : Reached w) (there : w.solver i = some s) :
    Solver.Surveys (s.drawing w.supply) w.known where
  whole := reached.sound.whole
  ordered t ht := reached.numbered.ordered t (.inl ht)
  genuine t ht := reached.sound.has i s there t ht
  supplied t ht := reached.numbered.supplied t (.inl ht)
  apart t ht u known :=
    reached.numbered.apart t (.inl ht) u (known.imp_right fun has => ⟨i, s, there, has⟩)

/-- What substitution does with terms of any sessions, on any engine. What it answers for a term is
the value of a key, a term in which nothing changes, or else a term of the session. So it lets terms
of other sessions through in two cases and in no other: for a key that has such a value, and for
such a term if nothing in it has to be rebuilt. Where a node outside of the keys has to be rebuilt
over a child that has become a term of another session, the substitution fails. Whenever it fails,
that is by usage on a term of another session, or an application of terms of this session cannot be
built. -/
theorem substitution_across_sessions (reached : Reached w) (there : w.solver i = some s)
    (handed : ∀ t ∈ (Request.substituteTerms ts m).terms, t ∈ w.known)
    (sorted : ∀ p ∈ m.toList, p.1.sort = p.2.sort) :
    (∀ us s', Solver.substituteTerms ts m (s.drawing w.supply) = .ok us s' →
      List.Forall₂ (Solver.Passes m (s.drawing w.supply) s') ts us) ∧
    (∀ e s', Solver.substituteTerms ts m (s.drawing w.supply) = .error e s' →
      Solver.Rejects m ts (s.drawing w.supply) e) ∧
    ∀ t ∈ ts,
      (∀ u s', Solver.substitute t m (s.drawing w.supply) = .ok u s' →
        Solver.Passes m (s.drawing w.supply) s' t u) ∧
      ∀ e s', Solver.substitute t m (s.drawing w.supply) = .error e s' →
        Solver.Rejects m [t] (s.drawing w.supply) e := by
  have coherent := reached.sound.coherent i s there
  have surveys := reached.surveys there
  have given : ∀ t ∈ ts, t ∈ w.known := fun t ht => handed t (List.mem_append_left _ ht)
  have values : ∀ a v : Term, m[a]? = some v → v ∈ w.known := fun a v found =>
    handed v (List.mem_append_right _ (Solver.image_mem_mapTerms found))
  have all :=
    Solver.passes_substituteTerms Contract.free_honoured coherent surveys values sorted given
  refine ⟨fun us s' done => (Leads.answer all done).2, fun e s' failed =>
    (Leads.failure all failed).2, ?_⟩
  intro t ht
  have one :=
    Solver.passes_substitute Contract.free_honoured coherent surveys values sorted (given t ht)
  exact ⟨fun u s' done => (Leads.answer one done).2, fun e s' failed =>
    (Leads.failure one failed).2⟩

/-- Solvers over the enumerating engine. -/
abbrev Enumerators : Type := World (fun _ : Bool => Enumerator) (fun _ => LogicSort) fun _ => Handle

/-- A truth value and its negation were handed out in this session. -/
structure Negates (w : Enumerators) (number : Nat) (b : Bool) (x t : Term) : Prop where
  known : x ∈ w.known ∧ t ∈ w.known
  value : x.sort = .bool ∧ x.kind = .value (.bool b) ∧ x.children = []
  node : t.op = PrimOp.not ∧ t.kind = .application ∧ t.children = [x]
  session : x.session = number ∧ t.session = number

theorem Reached.negates {w : Enumerators} {i : Bool} {s : Solver Enumerator LogicSort Handle}
    (reached : Reached w) (there : w.solver i = some s)
    (coherent : (s.drawing w.supply).Coherent Enumerator.contract) (b : Bool) :
    ∃ (w' : Enumerators) (s' : Solver Enumerator LogicSort Handle) (x t : Term), Reached w' ∧
      w'.solver i = some s' ∧ s'.session.number = s.session.number ∧ w.known ⊆ w'.known ∧
      Negates w' s.session.number b x t := by
  obtain ⟨x, s₁, made, kept, hx, sort, kind⟩ := Solver.makeBool_succeeds coherent b
  have known : x ∈ (w.served i s₁ false [x]).known := .inr ⟨x, List.mem_singleton_self x, .here⟩
  have reached₁ : Reached (w.served i s₁ false [x]) := reached.next
    (.answered there (.makeBool b) (fun _ hu => absurd hu List.not_mem_nil) (Action.map_ok made))
  have there₁ : (w.served i s₁ false [x]).solver i = some s₁ := Function.update_self ..
  have negates : (PrimOp.not : Op).resultSort ([x].map Term.sort) = .ok (some .bool) := by
    rw [List.map_singleton, sort]
    rfl
  obtain ⟨t, s₂, made₂, kept₂, ht, op, -, application, children⟩ :=
    Solver.makeTerm_succeeds kept.coherent (List.forall_mem_singleton.mpr hx) negates
  have reached₂ := reached₁.next (.answered there₁ (.command (.makeTerm PrimOp.not [x]))
    (List.forall_mem_singleton.mpr known) (Action.map_ok made₂))
  have number₁ : s₁.session.number = s.session.number := kept.extension.number
  have number₂ := kept₂.extension.number.trans number₁
  have formed := kept.coherent.canonical.formed x hx
  rw [Term.Formed, kind] at formed
  refine ⟨_, s₂, x, t, reached₂, Function.update_self .., number₂, fun u hu => .inl (.inl hu), ?_⟩
  exact {
    known := ⟨.inl known, .inr ⟨t, List.mem_singleton_self t, .here⟩⟩
    value := ⟨sort, kind, formed.2⟩
    node := ⟨op, application, children⟩
    session := ⟨(kept.coherent.canonical.numbered x hx).trans number₁,
      (kept₂.coherent.canonical.numbered t ht).trans number₂⟩ }

theorem reached_two : ∃ (w : Enumerators) (other : Solver Enumerator LogicSort Handle)
    (x t y u : Term) (number : Nat), Reached w ∧ w.solver true = some other ∧
      number ≠ other.session.number ∧ Negates w number true x t ∧
      Negates w other.session.number false y u := by
  have begins := Reached.next (σ := fun _ : Bool => Enumerator) (S := fun _ => LogicSort)
    (T := fun _ => Handle) (.empty {}) (.created false (Enumerator.new "m"))
  have new := (Solver.Run.coherent Enumerator.contract_honoured
    (.new (Enumerator.fresh_new "m") {})).1
  obtain ⟨w₁, first, x, t, reached₁, -, -, -, made⟩ := begins.negates (i := false) rfl new true
  have reached := reached₁.next (.created true (Enumerator.new "n"))
  have new := (Solver.Run.coherent Enumerator.contract_honoured
    (.new (Enumerator.fresh_new "n") w₁.supply)).1
  obtain ⟨w, other, y, u, reached, there, number, more, made'⟩ :=
    reached.negates (i := true) rfl new false
  -- The second session is later than all that was handed out before it began.
  have earlier := reached₁.sound.drawn x made.known.1
  refine ⟨w, other, x, t, y, u, x.session, reached, there, ?_, ?_, number ▸ made'⟩
  · rw [number]
    exact Nat.ne_of_lt earlier
  · exact { made with
      known := ⟨more made.known.1, more made.known.2⟩
      session := ⟨rfl, made.session.2.trans made.session.1.symm⟩ }

/-- A key of the second solver whose value is a truth value of the first. The negation that the
first has made passes as it is, and the negation of the key, which would have to be rebuilt over the
value, is rejected. -/
theorem substitution_across_sessions_two :
    ∃ (w : Enumerators) (other s' : Solver Enumerator LogicSort Handle)
      (x t y u : Term) (m : TermMap)
      (e : Error), Reached w ∧ w.solver true = some other ∧
        (∀ a ∈ (Request.substituteTerms [t, u] m).terms, a ∈ w.known) ∧
        (∀ p ∈ m.toList, p.1.sort = p.2.sort) ∧ m[y]? = some x ∧
          t.children = [x] ∧ u.children = [y] ∧
        Solver.substitute t m (other.drawing w.supply) = .ok t (other.drawing w.supply) ∧
        Solver.Passes m (other.drawing w.supply) (other.drawing w.supply) t t ∧
        Solver.substitute u m (other.drawing w.supply) = .error e s' ∧
        Solver.Rejects m [u] (other.drawing w.supply) e := by
  obtain ⟨w, other, x, t, y, u, number, reached, there, away, one, two⟩ := reached_two
  have surveys := reached.surveys there
  obtain ⟨m, found, absent, entries⟩ : ∃ m : TermMap, m[y]? = some x ∧
      (∀ a ∈ w.known, a ≠ y → m[a]? = none) ∧ ∀ p ∈ m.toList, p = (y, x) := by
    refine ⟨Std.HashMap.insert {} y x, Std.HashMap.getElem?_insert_self, fun a ha other => ?_, ?_⟩
    · have apart : (y == a) = false := by
        rw [← Bool.not_eq_true, Term.beq_iff]
        exact fun same => other (surveys.apart y two.known.1 a (.inl ha) same).symm
      rw [Std.HashMap.getElem?_insert, apart]
      exact Std.HashMap.getElem?_empty
    · intro p hp
      simpa using Std.HashMap.toList_insert_perm.mem_iff.mp hp
  have sorted : ∀ p ∈ m.toList, p.1.sort = p.2.sort := fun p hp => by
    rw [entries p hp]
    exact two.value.1.trans one.value.1.symm
  have handed : ∀ a ∈ (Request.substituteTerms [t, u] m).terms, a ∈ w.known := by
    intro a ha
    obtain given | ⟨p, hp, ha⟩ := (List.mem_append.mp ha).imp_right List.mem_flatMap.mp
    · exact List.forall_mem_cons.mpr
        ⟨one.known.2, List.forall_mem_singleton.mpr two.known.2⟩ a given
    · rw [entries p hp] at ha
      exact List.forall_mem_cons.mpr
        ⟨two.known.1, List.forall_mem_singleton.mpr one.known.1⟩ a ha
  -- No key occurs in the first negation.
  have foreign : ∀ a ∈ w.known, a.session = number → m[a]? = none := fun a ha session =>
    absent a ha fun same => away (session.symm.trans (same ▸ two.session.1))
  have untouched : t.Untouched m := by
    intro a occurs
    obtain rfl | ⟨c, child, occurs⟩ := Term.occursIn_iff.mp occurs
    · exact foreign a one.known.2 one.session.2
    · obtain rfl : c = x := by simpa [one.node.2.2] using child
      rw [Term.occursIn_iff, one.value.2.2] at occurs
      obtain rfl : a = c := by simpa using occurs
      exact foreign a one.known.1 one.session.1
  have stays := Solver.substitute_untouched surveys sorted one.known.2 untouched
  obtain ⟨-, -, each⟩ := substitution_across_sessions (i := true) reached there handed sorted
  have passes := (each t List.mem_cons_self).1 t _ stays
  -- The other would be rebuilt over a term of the first session.
  have strays : y.Strays m other.session.number := .value found fun same =>
    away (one.session.1.symm.trans same)
  have altered : y.Altered m := .replaced found fun same => by
    have eq := surveys.apart x one.known.1 y (.inl two.known.1) same
    exact away (one.session.1.symm.trans (eq ▸ two.session.1))
  have key : u ≠ y := by
    rintro rfl
    cases two.node.2.1.symm.trans two.value.2.1
  have child : y ∈ u.children := two.node.2.2 ▸ List.mem_singleton_self y
  have mixes : u.Mixes m other.session.number :=
    .here (absent u two.known.2 key) (by rw [Term.isValue, two.node.2.1]) child altered child strays
  cases done : Solver.substitute u m (other.drawing w.supply) with
  | ok v s' => exact absurd mixes ((each u (by simp)).1 v s' done).unmixed
  | error e s' =>
    exact ⟨w, other, s', x, t, y, u, m, e, reached, there, handed, sorted, found, one.node.2.2,
      two.node.2.2, stays, passes, done, (each u (by simp)).2 e s' done⟩

/-- A solver answers a term that another has made, which it has not itself. -/
theorem foreign_term_answered :
    ∃ (w : World (fun _ : Bool => Enumerator) (fun _ => LogicSort) fun _ => Handle)
      (other s' : Solver Enumerator LogicSort Handle) (t : Term), Reached w ∧
        w.solver true = some other ∧
        t ∈ w.known ∧ Solver.substitute t {} (other.drawing w.supply) = .ok t s' ∧
        t.session ≠ s'.session.number ∧ ¬ s'.session.Has t := by
  obtain ⟨w, other, x, t, -, -, number, reached, there, away, one, -⟩ := reached_two
  have foreign : t.session ≠ other.session.number := one.session.2 ▸ away
  have answered := Solver.substitute_untouched (m := {}) (reached.surveys there) (by simp)
    one.known.2 fun a _ => Std.HashMap.getElem?_empty
  have interned := (reached.sound.coherent true other there).canonical.toInterned
  exact ⟨w, other, _, t, reached, there, one.known.2, answered, foreign,
    fun has => foreign (interned.numbered t has)⟩

end World

end FormulaGraph
