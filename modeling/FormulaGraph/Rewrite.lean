import FormulaGraph.Action

/-!
Rewriting of formula graphs from the leaves up, with a stack and a cache of its own.

A rewriter is asked about every node once its children are done, and says what becomes of it. The
cache maps nodes to what they became; a node that is in the cache is never entered. Entries may be
put there before a walk, and those that a walk made are there afterwards, whether it was completed,
stopped by the rewriter or ended by a failure.
-/

namespace FormulaGraph

/-- What becomes of a node. -/
inductive Step where
  /-- It is rebuilt from its rewritten children, if one of them changed. -/
  | resume
  | replace (t : Term)
  /-- It stays as it is, whatever became of its children. -/
  | keep
  /-- The walk stops. -/
  | abort

/-- Acts on a state that the walk itself does not look into: where terms are built, and whatever the
rewriter wants to remember. -/
structure Rewriter (σ : Type) where
  /-- Whether terms show their operator and children. -/
  iterable : σ → Bool
  /-- What becomes of a node, given what its children became. -/
  visit : Term → List Term → Action σ Step
  rebuild : Op → List Term → Action σ Term

namespace Rewriter

/-- How a walk ends. -/
inductive Ending where
  | completed
  | stopped
  | failed (e : Error)

/-- What the children of a term became. -/
def resolved (cache : TermMap) (t : Term) : List Term → Except Error (List Term)
  | [] => .ok []
  | c :: cs =>
    match cache[c]? with
    | none => .error (.internal (.unresolvedChild c t))
    | some d => do return d :: (← resolved cache t cs)

/-- Whether the children are all still the ones that the term has. -/
def unchanged (children : List Term) (t : Term) : Bool :=
  (children.zip t.children).all fun (new, old) => new == old

/-- What a node becomes, or why the walk ends there. -/
def settle {σ : Type} (r : Rewriter σ) (t : Term) (children : List Term) (s : σ) :
    Except Ending Term × σ :=
  match r.visit t children s with
  | .error e s => (.error (.failed e), s)
  | .ok .abort s => (.error .stopped, s)
  | .ok .keep s => (.ok t, s)
  | .ok (.replace u) s => (.ok u, s)
  | .ok .resume s =>
    if unchanged children t || t.isValue then (.ok t, s)
    else
      match r.rebuild t.op children s with
      | .ok u s => (.ok u, s)
      | .error e s => (.error (.failed e), s)

/-- What a term on the stack counts for: a node that was entered is only left. -/
def weight (entered : Std.HashSet Term) (t : Term) : Nat :=
  if entered.contains t then 1 else 2 * t.size

def weights (entered : Std.HashSet Term) : List Term → Nat
  | [] => 0
  | t :: ts => weight entered t + weights entered ts

theorem weight_pos (entered : Std.HashSet Term) (t : Term) : 0 < weight entered t := by
  have := t.size_pos
  unfold weight
  split <;> omega

theorem weight_insert_le (entered : Std.HashSet Term) (u t : Term) :
    weight (entered.insert u) t ≤ weight entered t := by
  have := t.size_pos
  unfold weight
  rw [Std.HashSet.contains_insert]
  by_cases known : entered.contains t = true
  · simp only [known, Bool.or_true, Nat.le_refl]
  · rw [if_neg known]
    by_cases same : (u == t) = true
    · rw [same, Bool.true_or, if_pos rfl]
      omega
    · simp [same, known]

theorem weights_insert_le (entered : Std.HashSet Term) (u : Term) (ts : List Term) :
    weights (entered.insert u) ts ≤ weights entered ts := by
  induction ts with
  | nil => exact Nat.le_refl _
  | cons t ts ih =>
    have := weight_insert_le entered u t
    simp only [weights]
    omega

theorem weights_le_sizes (entered : Std.HashSet Term) (ts : List Term) :
    weights entered ts ≤ 2 * Term.sizes ts := by
  induction ts with
  | nil => exact Nat.le_refl _
  | cons t ts ih =>
    have : weight entered t ≤ 2 * t.size := by
      have := t.size_pos
      unfold weight
      split <;> omega
    simp only [weights, Term.sizes]
    omega

theorem weights_append (entered : Std.HashSet Term) (ss ts : List Term) :
    weights entered (ss ++ ts) = weights entered ss + weights entered ts := by
  induction ss with
  | nil => simp [weights]
  | cons s ss ih => simp [weights, ih, Nat.add_assoc]

/-- The stack with a node back on it below its children, of which the last is on top. -/
def enter (t : Term) (rest : List Term) : List Term := t.children.reverse ++ t :: rest

/-- Entering a node makes the stack lighter, although its children are put on it. -/
theorem weights_enter {entered : Std.HashSet Term} {t : Term} (rest : List Term)
    (fresh : ¬ entered.contains t = true) :
    weights (entered.insert t) (enter t rest) < weights entered (t :: rest) := by
  have children := weights_le_sizes (entered.insert t) t.children.reverse
  have others := weights_insert_le entered t rest
  have self : weight (entered.insert t) t = 1 := by simp [weight]
  have whole : weight entered t = 2 * t.size := by simp [weight, fresh]
  rw [Term.sizes_reverse] at children
  rw [enter, weights_append]
  simp only [weights, self, whole] at children others ⊢
  have := t.size_eq
  omega

/-- Works off a stack of nodes. A node is entered when it is first met; when it is met again, its
children are done. -/
def walk {σ : Type} (r : Rewriter σ) (entered : Std.HashSet Term) (cache : TermMap) (s : σ) :
    List Term → Ending × TermMap × σ
  | [] => (.completed, cache, s)
  | t :: rest =>
    if cache.contains t then r.walk entered cache s rest
    else if entered.contains t then
      match resolved cache t t.children with
      | .error e => (.failed e, cache, s)
      | .ok children =>
        match r.settle t children s with
        | (.error ending, s) => (ending, cache, s)
        | (.ok u, s) => r.walk entered (cache.insert t u) s rest
    else r.walk (entered.insert t) cache s (enter t rest)
termination_by stack => weights entered stack
decreasing_by
  · have := weight_pos entered t
    simp only [weights]
    omega
  · have := weight_pos entered t
    simp only [weights]
    omega
  · exact weights_enter rest ‹_›

end Rewriter

/-- A cache that outlives a walk, unless it is cleared before each. -/
structure Walker where
  cache : TermMap := {}
  clears : Bool := false
  /-- Whether the last walk was stopped by the rewriter. -/
  aborted : Bool := false

namespace Walker

/-- Enters a node as already done; an earlier entry is overwritten. -/
def save (key value : Term) (w : Walker) : Walker := { w with cache := w.cache.insert key value }

/-- Rewrites a term. A walk that is stopped answers what the term became if that is known, and else
the term itself. -/
def visit {σ : Type} (r : Rewriter σ) (root : Term) : Action (Walker × σ) Term :=
  fun (⟨cache, clears, aborted⟩, s) =>
    if !r.iterable s then .error (.unsupported .opaqueTerms) (⟨cache, clears, aborted⟩, s)
    else
      match r.walk {} (if clears then {} else cache) s [root] with
      | (.failed e, cache, s) => .error e (⟨cache, clears, false⟩, s)
      | (.stopped, cache, s) => .ok (cache.getD root root) (⟨cache, clears, true⟩, s)
      | (.completed, cache, s) =>
        match cache[root]? with
        | some t => .ok t (⟨cache, clears, false⟩, s)
        | none => .error (.internal (.unresolvedRoot root)) (⟨cache, clears, false⟩, s)

end Walker

end FormulaGraph
