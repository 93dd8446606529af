import FormulaGraph.Proofs.Rewrite.Abreast
import FormulaGraph.Proofs.Solver.BlindReads

/-!
Rewriting does the same on a solver and its twin, as every step of a walk does, and so does every
request.
-/

namespace FormulaGraph.Solver

open FormulaGraph.Action

variable {s : Solver Enumerator LogicSort Handle} {t : Term}

section Walks

/-- What a rewriter has to do for its walks to be the same on a twin. -/
structure Oblivious (r : Rewriter (Solver Enumerator LogicSort Handle)) : Prop where
  iterable : ∀ guise s, r.iterable (aliased guise s) = r.iterable s
  visit : ∀ s t news, s.Coherent Enumerator.contract → (∀ u ∈ news, s.session.Genuine u) →
    Blind (r.visit t news) s
  rebuild : ∀ s op news, s.Coherent Enumerator.contract → (∀ u ∈ news, s.session.Genuine u) →
    Blind (r.rebuild op news) s

variable {r : Rewriter (Solver Enumerator LogicSort Handle)}
  (tame : Tame Enumerator.contract (fun s t => s.session.Genuine t) r) (oblivious : Oblivious r)

include tame oblivious

theorem Oblivious.settle {s' : Solver Enumerator LogicSort Handle} {news : List Term}
    (coherent : s.Coherent Enumerator.contract) (node : s.session.Genuine t)
    (genuine : ∀ u ∈ news, s.session.Genuine u) (twin : Twin s s') :
    Rewriter.Abreast Twin (r.settle t news s) (r.settle t news s') := by
  obtain ⟨guise, rfl⟩ := twin
  refine Rewriter.settle_abreast (oblivious.visit s t news coherent genuine guise) ?_
  rintro s₁ _ visited ⟨guise', rfl⟩
  obtain ⟨kept, -⟩ := (tame.visit s t news coherent node genuine).answer visited
  exact oblivious.rebuild s₁ t.op news kept.coherent
    (fun u hu => (genuine u hu).extend kept.extension) guise'

theorem blind_walkWith (coherent : s.Coherent Enumerator.contract) {w : Walker}
    (known : ∀ a u : Term, w.cache[a]? = some u → s.session.Genuine u)
    (root : s.session.Genuine t) : Blind (walkWith r w t) s := by
  have honoured := Enumerator.contract_honoured
  intro guise
  have walks := Rewriter.walk_abreast (N := fun u => s.session.Genuine u)
    (fun u hu c hc => closed_genuine.child s u c coherent hu hc)
    (fun cache s' u news walked node found =>
      tame.settles honoured closed_genuine walked node (walked.resolved found))
    (fun cache s' s'' u news walked node found twin => oblivious.settle tame walked.1.coherent
      (node.extend walked.1.extension) (walked.resolved found) twin)
    {} _ s (aliased guise s) [t] (walked_start honoured coherent known) (by simpa using root)
    (twin_aliased guise s)
  have visits := Walker.visit_alike (oblivious.iterable guise s) (twin_aliased guise s) walks
  unfold walkWith
  generalize Walker.visit r t (w, s) = v, Walker.visit r t (w, aliased guise s) = v' at visits
  cases visits with
  | @ok u x x' related =>
    obtain ⟨w₁, s₁⟩ := x
    obtain ⟨w₂, s₂⟩ := x'
    obtain ⟨rfl, twin⟩ : w₂ = w₁ ∧ Twin s₁ s₂ := related
    exact .ok (w₂, u) twin
  | error e related => exact .error e related.2

end Walks

section Rewriting

theorem oblivious_identity : Oblivious (.identity makeTerm) where
  iterable _ _ := rfl
  visit s _ _ _ _ := blind_pure Step.resume s
  rebuild _ op _ coherent genuine := blind_makeTerm coherent op genuine

theorem blind_substituteAll {w : Walker} {ts : List Term} {s : Solver Enumerator LogicSort Handle}
    (coherent : s.Coherent Enumerator.contract)
    (known : ∀ a u : Term, w.cache[a]? = some u → s.session.Genuine u)
    (roots : ∀ t ∈ ts, s.session.Genuine t) : Blind (substituteAll w ts) s := by
  have honoured := Enumerator.contract_honoured
  have tame := tame_identity honoured closed_genuine
  induction ts generalizing w s with
  | nil => exact blind_pure [] s
  | cons t ts ih =>
    have root := roots t List.mem_cons_self
    rw [substituteAll]
    refine (blind_walkWith tame oblivious_identity coherent known root).after
      (keeps_walkWith honoured closed_genuine coherent tame known root) ?_
    rintro ⟨w', u⟩ s₁ kept ⟨-, known₁⟩
    have rest := fun a ha => (roots a (List.mem_cons_of_mem _ ha)).extend kept.extension
    exact Blind.bind (ih kept.coherent known₁ rest) fun us s₂ _ => blind_pure (u :: us) s₂

theorem blind_substituteTerms (coherent : s.Coherent Enumerator.contract) {ts : List Term}
    {map : TermMap} (roots : ∀ t ∈ ts, s.session.Genuine t)
    (images : ∀ a u : Term, map[a]? = some u → s.session.Genuine u) :
    Blind (substituteTerms ts map) s := by
  refine (blind_ofExcept _ s).after
    (keeps_ofExcept Enumerator.contract_honoured coherent (plainly_walker map)) ?_
  rintro w _ - ⟨made, rfl⟩
  refine blind_substituteAll coherent ?_ roots
  rw [(cache_of_walker made).1]
  exact images

theorem blind_substitute (coherent : s.Coherent Enumerator.contract) {map : TermMap}
    (root : s.session.Genuine t) (images : ∀ a u : Term, map[a]? = some u → s.session.Genuine u) :
    Blind (substitute t map) s := by
  have honoured := Enumerator.contract_honoured
  refine (blind_ofExcept _ s).after (keeps_ofExcept honoured coherent (plainly_walker map)) ?_
  rintro w _ - ⟨made, rfl⟩
  rw [← (cache_of_walker made).1] at images
  exact (blind_walkWith (tame_identity honoured closed_genuine) oblivious_identity coherent images
    root).bind fun found s₁ _ => blind_pure found.2 s₁

mutual
theorem blind_declareSorts (sort : LogicSort) (s : Solver Enumerator LogicSort Handle) :
    Blind (declareSorts sort) s := by
  cases sort with
  | uninterpreted name arity =>
    rw [declareSorts]
    refine .get (fun _ => rfl) ?_
    split
    · exact (blind_makeUninterpretedSort name arity s).map _
    · exact blind_pure _ s
  | datatype name =>
    rw [declareSorts]
    refine .get (fun _ => rfl) ?_
    split
    · exact blind_throw _ s
    · exact blind_pure _ s
  | array index element =>
    rw [declareSorts]
    exact (blind_declareSorts element s).bind fun _ s₁ _ => blind_declareSorts index s₁
  | function domain range =>
    rw [declareSorts]
    exact (blind_declareSorts range s).bind fun _ s₁ _ => blind_declareAll domain s₁
  | bool | int | real | bitVec | param | unresolved =>
    rw [declareSorts]
    exact blind_pure _ s
theorem blind_declareAll (sorts : List LogicSort) (s : Solver Enumerator LogicSort Handle) :
    Blind (declareAll sorts) s := by
  cases sorts with
  | nil =>
    rw [declareAll]
    exact blind_pure _ s
  | cons sort rest =>
    rw [declareAll]
    exact (blind_declareAll rest s).bind fun _ s₁ _ => blind_declareSorts sort s₁
end

theorem blind_matchSymbol (name : String) (sort : LogicSort)
    (s : Solver Enumerator LogicSort Handle) : Blind (matchSymbol name sort) s := by
  refine .get (fun _ => rfl) ?_
  split
  · exact (blind_ofExcept _ s).bind fun _ s₁ _ => blind_pure _ s₁
  · exact (blind_declareSorts sort s).bind fun _ s₁ _ => blind_makeSymbol name sort s₁

theorem blind_translate (coherent : s.Coherent Enumerator.contract) (t : Term)
    {children : List Term}
    (genuine : ∀ c ∈ children, s.session.Genuine c) : Blind (translate t children) s := by
  unfold translate
  split
  · exact blind_matchSymbol _ _ s
  · exact blind_makeValue _ _ s
  · exact blind_makeConstArray _ _ s
  · exact blind_throw _ s
  · exact blind_makeTerm coherent _ genuine

theorem oblivious_translator : Oblivious translator where
  iterable _ _ := rfl
  visit _ t _ coherent genuine := (blind_translate coherent t genuine).map Step.replace
  rebuild _ op _ coherent genuine := blind_makeTerm coherent op genuine

theorem blind_transfer (coherent : s.Coherent Enumerator.contract) (root : s.session.Genuine t) :
    Blind (transfer t) s := by
  have known : ∀ a u : Term, ({ clears := true } : Walker).cache[a]? = some u →
      s.session.Genuine u := by
    intro a u found
    simp at found
  exact (blind_walkWith (tame_translator Enumerator.contract_honoured closed_genuine)
    oblivious_translator coherent known root).bind fun found s₁ _ => blind_pure found.2 s₁

end Rewriting

section Requests

theorem blind_done {act : Action (Solver Enumerator LogicSort Handle) Unit} (blind : Blind act s) :
    Blind (do act; return (.done : Answer LogicSort Term)) s :=
  blind.bind fun _ s₁ _ => blind_pure Answer.done s₁

theorem blind_now {answer : Solver Enumerator LogicSort Handle → Answer LogicSort Term}
    (same : ∀ guise, answer (s.aliased guise) = answer s) :
    Blind (fun s => .ok (answer s) s) s := by
  intro guise
  dsimp only
  rw [same]
  exact .ok _ (twin_aliased guise s)

theorem blind_command (coherent : s.Coherent Enumerator.contract) {c : Command LogicSort Term}
    (genuine : ∀ t ∈ c.terms, s.session.Genuine t) (hidden : c ≠ .capabilities) :
    Blind (Engine.perform c) s := by
  cases c with
  | name => exact blind_now fun _ => rfl
  | capabilities => exact absurd rfl hidden
  | literal t => exact blind_now fun _ => rfl
  | sortOf t | opOf t | children t => exact (blind_pure _ s).map _
  | setOption option value =>
    exact blind_done (blind_onEngine (Enumerator.blind_setOption option value) s)
  | setLogic logic => exact blind_done (blind_onEngine (Enumerator.blind_setOption "logic" logic) s)
  | makeSort kind => exact (blind_makeSort kind s).map _
  | makeBitVecSort width => exact (blind_makeBitVecSort width s).map _
  | makeArraySort index element => exact (blind_withNative _ s).map _
  | makeFunctionSort domain range => exact (blind_makeFunctionSort domain range s).map _
  | makeUninterpretedSort name arity => exact (blind_makeUninterpretedSort name arity s).map _
  | makeDatatypeSort decl => exact (blind_makeDatatypeSort decl s).map _
  | makeValue l sort => exact (blind_makeValue l sort s).map _
  | makeConstArray fill sort => exact (blind_makeConstArray fill sort s).map _
  | makeSymbol name sort => exact (blind_makeSymbol name sort s).map _
  | makeTerm op args => exact (blind_makeTerm coherent op genuine).map _
  | assertFormula t => exact blind_done (blind_assertFormula t s)
  | checkSat => exact (blind_onEngine (Enumerator.blind_check [] .idle) s).map _
  | checkSatAssuming assumptions => exact (blind_checkSatAssuming assumptions s).map _
  | checkSatInterruptible token => exact (blind_onEngine (Enumerator.blind_check [] token) s).map _
  | getValue t => exact (blind_getValue coherent (genuine t List.mem_cons_self)).map _
  | getArrayValues t => exact (blind_getArrayValues coherent (genuine t List.mem_cons_self)).map _
  | getUnsatCore => exact (blind_getUnsatCore s).map _
  | push levels => exact blind_done (blind_onEngine (Enumerator.blind_push levels) s)
  | pop levels => exact blind_done (blind_onEngine (Enumerator.blind_pop levels) s)
  | reset => exact blind_done (blind_reset s)
  | resetAssertions => exact blind_done (blind_resetAssertions s)

/-- But for what the engine is capable of, a solver and its twin serve every request alike. -/
theorem blind_perform (coherent : s.Coherent Enumerator.contract) {q : Request}
    (genuine : ∀ t ∈ q.terms, s.session.Genuine t) (hidden : q ≠ .command .capabilities) :
    Blind q.perform s := by
  cases q with
  | command c => exact blind_command coherent genuine fun same => hidden (congrArg _ same)
  | makeBool b => exact (blind_makeValue _ _ s).map _
  | makeInt i sort => exact (blind_makeInt i sort s).map _
  | parseValue repr sort base => exact (blind_parseValue repr sort base s).map _
  | getSymbol name => exact Blind.map _ (blind_ask fun _ => rfl)
  | substitute t map =>
    refine (blind_substitute coherent (genuine t List.mem_cons_self) ?_).map _
    exact fun a u found => genuine u (List.mem_cons_of_mem _ (image_mem_mapTerms found))
  | substituteTerms ts map =>
    refine (blind_substituteTerms coherent ?_ ?_).map _
    · exact fun t ht => genuine t (List.mem_append_left _ ht)
    · exact fun a u found => genuine u (List.mem_append_right _ (image_mem_mapTerms found))
  | transfer t => exact (blind_transfer coherent (genuine t List.mem_cons_self)).map _

end Requests

end FormulaGraph.Solver
