import FormulaGraph.Proofs.Agreement
import FormulaGraph.Rewrite.Substitution

/-!
One walk in two worlds. If rewriters do the same at nodes that stand for each other, so do their
walks: what is entered, what is known and what is left to do always correspond, and the walks end
the same way.
-/

namespace FormulaGraph

open FormulaGraph.Action

namespace Naming

variable {N N' : Naming} {β β' : Type} {Q : β → β' → Prop} {m : Std.HashMap Term β}
    {m' : Std.HashMap Term β'}
  {marks marks' : Std.HashSet Term} {t t' : Term}

theorem contains (maps : N.Maps Q (m[·]?) (m'[·]?)) (ordered : N.Ordered)
    (named : N.ids t.id t'.id) :
    m'.contains t' = m.contains t := by
  have found := find maps ordered named
  rw [Std.HashMap.contains_eq_isSome_getElem?, Std.HashMap.contains_eq_isSome_getElem?]
  generalize m[t]? = v, m'[t']? = v' at found
  cases found with
  | some _ => rfl
  | none => rfl

/-- The nodes that are in two sets stand for each other. -/
def Marks (N : Naming) (marks marks' : Std.HashSet Term) : Prop :=
  N.Maps (fun _ _ => True) (fun t => if marks.contains t then some () else none)
    fun t' => if marks'.contains t' then some () else none

theorem marks_empty (N : Naming) : N.Marks {} {} :=
  Matching.empty (fun t => by simp) fun t' => by simp

theorem Marks.extend (same : N.Marks marks marks') (extension : N.Extends N') :
    N'.Marks marks marks' :=
  Matching.imp same extension.ids fun _ _ h => h

theorem blurred_marks (marks : Std.HashSet Term) :
    Blurred Term.id fun t => if marks.contains t then some () else none := by
  intro t u same
  dsimp only
  rw [Std.HashSet.contains_congr (Term.beq_iff.mpr same)]

theorem Marks.contains (same : N.Marks marks marks') (ordered : N.Ordered)
    (named : N.ids t.id t'.id) :
    marks'.contains t' = marks.contains t := by
  have found :=
    Matching.lookup same ordered.oneToOne (blurred_marks marks) (blurred_marks marks') named
  cases left : marks.contains t with
  | true =>
    cases right : marks'.contains t' with
    | true => rfl
    | false => simp [left, right] at found
  | false =>
    cases right : marks'.contains t' with
    | true => simp [left, right] at found
    | false => rfl

theorem Marks.insert (same : N.Marks marks marks') (ordered : N.Ordered)
    (named : N.ids t.id t'.id) :
    N.Marks (marks.insert t) (marks'.insert t') := by
  have marked (marks : Std.HashSet Term) (t u : Term) :
    (if (marks.insert t).contains u then some () else none) =
      if t.id = u.id then some () else if marks.contains u then some () else none := by
    by_cases other : t.id = u.id <;> simp [Std.HashSet.contains_insert, Term.beq_iff, other]
  exact Matching.insert same ordered.oneToOne named trivial (marked marks t) (marked marks' t')

end Naming

/-- What becomes of a node is the same, under other names. -/
inductive Step.Alike (R : Term → Term → Prop) : Step → Step → Prop
  | resume : Alike R .resume .resume
  | replace {t t' : Term} (related : R t t') : Alike R (.replace t) (.replace t')
  | keep : Alike R .keep .keep
  | abort : Alike R .abort .abort

variable {σ σ' : Type} {V : Vocabulary} {sound : Naming → σ → σ' → Prop}
    {N N' : Naming} {s : σ} {s' : σ'}
  {t t' : Term}

namespace Rewriter

/-- The rewriters do the same at nodes that stand for each other. -/
structure Alike (V : Vocabulary) (sound : Naming → σ → σ' → Prop) (r : Rewriter σ)
    (r' : Rewriter σ') : Prop where
  ordered : ∀ {N s s'}, sound N s s' → N.Ordered
  iterable : ∀ {N s s'}, sound N s s' → r'.iterable s' = r.iterable s
  visit : ∀ {N s s'} {t t' : Term} {news news' : List Term}, sound N s s' → V.Pair N t t' →
    List.Forall₂ (V.Pair N) news news' →
      Agree sound N (fun N => Step.Alike (V.Pair N)) (r.visit t news s) (r'.visit t' news' s')
  rebuild : ∀ {N s s'} {op : Op} {news news' : List Term}, sound N s s' → V.ops op →
    List.Forall₂ (V.Pair N) news news' →
      Agree sound N V.Pair (r.rebuild op news s) (r'.rebuild op news' s')

inductive Ending.Alike : Ending → Ending → Prop
  | completed : Alike .completed .completed
  | stopped : Alike .stopped .stopped
  | failed {e e' : Error} (alike : e.Alike e') : Alike (.failed e) (.failed e')

variable {r : Rewriter σ} {r' : Rewriter σ'} {cache cache' : TermMap}
    {entered entered' : Std.HashSet Term}
  {news news' stack stack' : List Term}

theorem resolved_renamed (ordered : N.Ordered) (caches : N.Maps (V.Pair N) (cache[·]?) (cache'[·]?))
    (pair : V.Pair N t t') {children children' : List Term}
    (pairs : List.Forall₂ (V.Pair N) children children') :
    Answers (List.Forall₂ (V.Pair N)) (resolved cache t children)
      (resolved cache' t' children') := by
  induction pairs with
  | nil => exact .ok .nil
  | @cons c c' _ _ first _ ih =>
    have image := Naming.find caches ordered first.renamed.id
    rw [resolved, resolved]
    generalize cache[c]? = v, cache'[c']? = v' at image
    cases image with
    | none => exact .error (Error.Alike.unresolvedChild pair.render first.render)
    | some known => exact ih.bind fun _ _ rest => .ok (.cons known rest)

theorem unchanged_renamed (ordered : N.Ordered) (pairs : List.Forall₂ (V.Pair N) news news')
    (pair : V.Pair N t t') : unchanged news' t' = unchanged news t := by
  have olds := pair.children
  rw [unchanged, unchanged]
  generalize t.children = children, t'.children = children' at olds
  induction pairs generalizing children children' with
  | nil => rfl
  | cons first _ ih =>
    cases olds with
    | nil => rfl
    | cons old rest =>
      rw [List.zip_cons_cons, List.zip_cons_cons, List.all_cons, List.all_cons, ih _ _ rest]
      congr 1
      rw [Bool.eq_iff_iff, Term.beq_iff, Term.beq_iff]
      exact ordered.oneToOne _ _ _ _ first.renamed.id old.renamed.id

/-- What became of a node in both worlds, or how the walks ended there. -/
inductive Settled (V : Vocabulary) (sound : Naming → σ → σ' → Prop) (N : Naming) :
    Except Ending Term × σ → Except Ending Term × σ' → Prop
  | ok {N' : Naming} {u u' : Term} {s : σ} {s' : σ'} (extension : N.Extends N')
      (related : sound N' s s')
      (pair : V.Pair N' u u') : Settled V sound N (.ok u, s) (.ok u', s')
  | ended {N' : Naming} {ending ending' : Ending} {s : σ} {s' : σ'} (extension : N.Extends N')
      (related : sound N' s s') (alike : ending.Alike ending') :
      Settled V sound N (.error ending, s) (.error ending', s')

theorem settle_renamed (alike : r.Alike V sound r') (related : sound N s s') (pair : V.Pair N t t')
    (pairs : List.Forall₂ (V.Pair N) news news') :
    Settled V sound N (r.settle t news s) (r'.settle t' news' s') := by
  have visited := alike.visit related pair pairs
  unfold settle
  generalize r.visit t news s = v, r'.visit t' news' s' = v' at visited
  cases visited with
  | error extension related failed => exact .ended extension related (.failed failed)
  | ok extension related step =>
    have pair := pair.extend extension
    have pairs := Vocabulary.Pair.extend_all pairs extension
    cases step with
    | abort => exact .ended extension related .stopped
    | keep => exact .ok extension related pair
    | replace image => exact .ok extension related image
    | resume =>
      dsimp only
      rw [unchanged_renamed (alike.ordered related) pairs pair, pair.isValue, pair.renamed.op]
      split
      · exact .ok extension related pair
      · have rebuilt := alike.rebuild related pair.op_mem pairs
        generalize r.rebuild t.op news _ = v, r'.rebuild t.op news' _ = v' at rebuilt
        cases rebuilt with
        | ok extension' related image => exact .ok (extension.trans extension') related image
        | error extension' related failed =>
          exact .ended (extension.trans extension') related (.failed failed)

/-- How two walks end that went along with each other. -/
inductive Ended (V : Vocabulary) (sound : Naming → σ → σ' → Prop) (N : Naming) :
    Ending × TermMap × σ → Ending × TermMap × σ' → Prop
  | intro {N' : Naming} {ending ending' : Ending} {cache cache' : TermMap} {s : σ} {s' : σ'}
      (extension : N.Extends N') (related : sound N' s s')
      (caches : N'.Maps (V.Pair N') (cache[·]?) (cache'[·]?)) (alike : ending.Alike ending') :
      Ended V sound N (ending, cache, s) (ending', cache', s')

theorem Ended.after {p : Ending × TermMap × σ} {p' : Ending × TermMap × σ'}
    (extension : N.Extends N') (ended : Ended V sound N' p p') : Ended V sound N p p' := by
  cases ended with
  | intro extension' related caches alike =>
    exact .intro (extension.trans extension') related caches alike

theorem maps_extend (caches : N.Maps (V.Pair N) (cache[·]?) (cache'[·]?))
    (extension : N.Extends N') :
    N'.Maps (V.Pair N') (cache[·]?) (cache'[·]?) :=
  caches.imp extension.ids fun _ _ pair => pair.extend extension

theorem walk_renamed (alike : r.Alike V sound r') (related : sound N s s')
    (caches : N.Maps (V.Pair N) (cache[·]?) (cache'[·]?)) (marks : N.Marks entered entered')
    (pending : List.Forall₂ (V.Pair N) stack stack') :
    Ended V sound N (r.walk entered cache s stack) (r'.walk entered' cache' s' stack') := by
  induction entered, cache, s, stack using walk.induct r
    generalizing N entered' cache' s' stack' with
  | case1 entered cache s =>
    cases pending
    rw [walk, walk]
    exact .intro (.refl N) related caches .completed
  | case2 entered cache s t rest known ih =>
    cases pending with
    | cons pair rests =>
      have contained := Naming.contains caches (alike.ordered related) pair.renamed.id
      rw [walk, if_pos known, walk, if_pos (contained.trans known)]
      exact ih related caches marks rests
  | case3 entered cache s t rest unknown met e failed =>
    cases pending with
    | cons pair rests =>
      have contained := Naming.contains caches (alike.ordered related) pair.renamed.id
      have marked := marks.contains (alike.ordered related) pair.renamed.id
      have children := resolved_renamed (alike.ordered related) caches pair pair.children
      rw [walk, if_neg unknown, if_pos met, walk, if_neg (contained ▸ unknown),
        if_pos (marked.trans met)]
      rw [failed] at children ⊢
      generalize resolved cache' _ _ = answer at children ⊢
      cases children with
      | error failed => exact .intro (.refl N) related caches (.failed failed)
  | case4 entered cache s t rest unknown met news found ending s₁ settled =>
    cases pending with
    | cons pair rests =>
      have contained := Naming.contains caches (alike.ordered related) pair.renamed.id
      have marked := marks.contains (alike.ordered related) pair.renamed.id
      have children := resolved_renamed (alike.ordered related) caches pair pair.children
      rw [walk, if_neg unknown, if_pos met, walk, if_neg (contained ▸ unknown),
        if_pos (marked.trans met)]
      rw [found] at children ⊢
      generalize resolved cache' _ _ = answer at children ⊢
      cases children with
      | ok pairs =>
        have both := settle_renamed alike related pair pairs
        dsimp only
        rw [settled] at both ⊢
        generalize r'.settle _ _ s' = outcome at both ⊢
        cases both with
        | ended extension related ending =>
          exact .intro extension related (maps_extend caches extension) ending
  | case5 entered cache s t rest unknown met news found u s₁ settled ih =>
    cases pending with
    | cons pair rests =>
      have contained := Naming.contains caches (alike.ordered related) pair.renamed.id
      have marked := marks.contains (alike.ordered related) pair.renamed.id
      have children := resolved_renamed (alike.ordered related) caches pair pair.children
      rw [walk, if_neg unknown, if_pos met, walk, if_neg (contained ▸ unknown),
        if_pos (marked.trans met)]
      rw [found] at children ⊢
      generalize resolved cache' _ _ = answer at children ⊢
      cases children with
      | ok pairs =>
        have both := settle_renamed alike related pair pairs
        dsimp only
        rw [settled] at both ⊢
        generalize r'.settle _ _ s' = outcome at both ⊢
        cases both with
        | ok extension related image =>
          have named := (pair.extend extension).renamed.id
          have caches :=
            Naming.insertTable (maps_extend caches extension) (alike.ordered related) named image
          refine (ih related caches (marks.extend extension) ?_).after extension
          exact Vocabulary.Pair.extend_all rests extension
  | case6 entered cache s t rest unknown unmet ih =>
    cases pending with
    | cons pair rests =>
      have ordered := alike.ordered related
      have contained := Naming.contains caches ordered pair.renamed.id
      have marked := marks.contains ordered pair.renamed.id
      rw [walk, if_neg unknown, if_neg unmet, walk, if_neg (contained ▸ unknown),
        if_neg (marked ▸ unmet)]
      refine ih related caches (marks.insert ordered pair.renamed.id) ?_
      exact List.rel_append (List.rel_reverse pair.children) (.cons pair rests)

end Rewriter

namespace Walker

/-- Both walkers know the same. -/
structure Alike (V : Vocabulary) (N : Naming) (w w' : Walker) : Prop where
  clears : w'.clears = w.clears
  caches : N.Maps (V.Pair N) (w.cache[·]?) (w'.cache[·]?)

variable {r : Rewriter σ} {r' : Rewriter σ'} {w w' : Walker}

theorem alike_fresh (clears : Bool) : Alike V N { clears } { clears } :=
  ⟨rfl, Matching.empty (fun _ => Std.HashMap.getElem?_empty) fun _ => Std.HashMap.getElem?_empty⟩

theorem visit_renamed (alike : r.Alike V sound r') (walkers : w.Alike V N w')
    (related : sound N s s') (pair : V.Pair N t t') :
    Agree (fun N x x' => x.1.Alike V N x'.1 ∧ sound N x.2 x'.2) N V.Pair (visit r t (w, s))
      (visit r' t' (w', s')) := by
  obtain ⟨cache, clears, aborted⟩ := w
  obtain ⟨cache', clears', aborted'⟩ := w'
  obtain ⟨rfl, caches⟩ := walkers
  rw [visit, visit, alike.iterable related]
  split
  · exact .error (.refl N) ⟨⟨rfl, caches⟩, related⟩ (.refl _)
  · have start : N.Maps (V.Pair N) ((if clears' then ({} : TermMap) else cache)[·]?)
        ((if clears' then ({} : TermMap) else cache')[·]?) := by
      cases clears' with
      | true => exact (alike_fresh true).caches
      | false => exact caches
    have ended := Rewriter.walk_renamed alike related start (Naming.marks_empty N) (.cons pair .nil)
    generalize r.walk {} (if clears' then {} else cache) s [t] = p,
      r'.walk {} (if clears' then {} else cache') s' [t'] = p' at ended
    cases ended with
    | @intro _ _ _ cache cache' _ _ extension related caches ending =>
      have pair := pair.extend extension
      have image := Naming.find caches (alike.ordered related) pair.renamed.id
      cases ending with
      | failed failed => exact .error extension ⟨⟨rfl, caches⟩, related⟩ failed
      | stopped =>
        refine .ok extension ⟨⟨rfl, caches⟩, related⟩ ?_
        rw [Std.HashMap.getD_eq_getD_getElem?, Std.HashMap.getD_eq_getD_getElem?]
        generalize cache[t]? = v, cache'[t']? = v' at image
        cases image with
        | some image => exact image
        | none => exact pair
      | completed =>
        dsimp only
        generalize cache[t]? = v, cache'[t']? = v' at image
        cases image with
        | some image => exact .ok extension ⟨⟨rfl, caches⟩, related⟩ image
        | none =>
          exact .error extension ⟨⟨rfl, caches⟩, related⟩ (Error.Alike.unresolvedRoot pair.render)

end Walker

end FormulaGraph
