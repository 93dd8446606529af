import FormulaGraph.Proofs.Rewrite.Renamed
import FormulaGraph.Proofs.Solver.Likeness
import FormulaGraph.Proofs.Solver.Run

/-!
Requests to solvers that are alike. Two requests are the same if they ask the same of terms that
stand for each other; they are then answered the same, or fail alike. What is heard of an answer are
the shapes of its terms, and of a failure its kind and its words.
-/

namespace FormulaGraph

open FormulaGraph.Action

section Answers

variable {S T T' : Type}

def ArrayModel.map (f : T → T') (m : ArrayModel T) : ArrayModel T' :=
  ⟨m.base.map f, m.cells.map fun (i, x) => (f i, f x)⟩

def Answer.map (f : T → T') : Answer S T → Answer S T'
  | .done => .done
  | .text s => .text s
  | .capabilities c => .capabilities c
  | .sort s => .sort s
  | .term t => .term (f t)
  | .logicSort s => .logicSort s
  | .op o => .op o
  | .terms ts => .terms (ts.map f)
  | .literal l => .literal l
  | .verdict v => .verdict v
  | .arrayModel m => .arrayModel (m.map f)

/-- What is heard of how a request ended: nothing of identifiers and sessions. -/
def heard :
    Except Error (Answer LogicSort Term) → Except (ErrorKind × String) (Answer LogicSort Shape)
  | .ok answer => .ok (answer.map Term.shape)
  | .error e => .error (e.kind, e.message)

theorem answered_term {result : Except Error (Answer LogicSort Term)} {u : Term}
    (same : heard (.ok (.term u)) = heard result) :
    ∃ t, result = .ok (.term t) ∧ t.shape = u.shape := by
  cases result with
  | error e => cases same
  | ok answer =>
    have same : Answer.term u.shape = answer.map Term.shape := Except.ok.inj same
    cases answer with
    | term t => exact ⟨t, rfl, (Answer.term.inj same).symm⟩
    | _ => cases same

/-- Both answers are heard as the same, and hand out terms that stand for each other. -/
structure Answer.Alike (R : Term → Term → Prop) (a a' : Answer LogicSort Term) : Prop where
  shapes : a'.map Term.shape = a.map Term.shape
  given : List.Forall₂ R a.given a'.given

end Answers

/-! The sorts and the operators that a request names; the sorts and operators of its terms are not
among them.
-/

def Command.sorts {T : Type} : Command LogicSort T → List LogicSort
  | .makeArraySort index element => [index, element]
  | .makeFunctionSort domain range => range :: domain
  | .makeValue _ sort | .makeConstArray _ sort | .makeSymbol _ sort => [sort]
  | _ => []

def Command.ops {T : Type} : Command LogicSort T → List Op
  | .makeTerm op _ => [op]
  | _ => []

namespace Request

def sorts : Request → List LogicSort
  | command c => c.sorts
  | makeInt _ sort | parseValue _ sort _ => [sort]
  | _ => []

def ops : Request → List Op
  | command c => c.ops
  | _ => []

/-- The request names only sorts and operators of the vocabulary. -/
structure Within (V : Vocabulary) (q : Request) : Prop where
  sorts : ∀ sort ∈ q.sorts, V.sorts sort
  ops : ∀ op ∈ q.ops, V.ops op

end Request

/-- The commands differ only by the terms that they are about, which are related. -/
inductive Command.Alike (R : Term → Term → Prop) :
    Command LogicSort Term → Command LogicSort Term → Prop
  | plain {c : Command LogicSort Term} (none : c.terms = []) : Alike R c c
  | makeConstArray {fill fill' : Term} (fills : R fill fill') (sort : LogicSort) :
      Alike R (.makeConstArray fill sort) (.makeConstArray fill' sort)
  | makeTerm (op : Op) {args args' : List Term} (pairs : List.Forall₂ R args args') :
      Alike R (.makeTerm op args) (.makeTerm op args')
  | checkSatAssuming {ts ts' : List Term} (pairs : List.Forall₂ R ts ts') :
      Alike R (.checkSatAssuming ts) (.checkSatAssuming ts')
  | sortOf {t t' : Term} (pair : R t t') : Alike R (.sortOf t) (.sortOf t')
  | opOf {t t' : Term} (pair : R t t') : Alike R (.opOf t) (.opOf t')
  | children {t t' : Term} (pair : R t t') : Alike R (.children t) (.children t')
  | literal {t t' : Term} (pair : R t t') : Alike R (.literal t) (.literal t')
  | assertFormula {t t' : Term} (pair : R t t') : Alike R (.assertFormula t) (.assertFormula t')
  | getValue {t t' : Term} (pair : R t t') : Alike R (.getValue t) (.getValue t')
  | getArrayValues {t t' : Term} (pair : R t t') : Alike R (.getArrayValues t) (.getArrayValues t')

/-- The maps have the same entries. They are checked in the order of their hashes, so that also what
the check says, if it refuses them, has to be the same. -/
structure TermMap.Alike (R : Term → Term → Prop) (map map' : TermMap) : Prop where
  forth : ∀ e ∈ map.toList, ∃ e' ∈ map'.toList, R e.1 e'.1 ∧ R e.2 e'.2
  back : ∀ e' ∈ map'.toList, ∃ e ∈ map.toList, R e.1 e'.1 ∧ R e.2 e'.2
  checked : Answers (fun _ _ => True) (Substitution.walker map) (Substitution.walker map')

inductive Request.Alike (R : Term → Term → Prop) : Request → Request → Prop
  | command {c c' : Command LogicSort Term} (alike : c.Alike R c') :
      Alike R (.command c) (.command c')
  | makeBool (b : Bool) : Alike R (.makeBool b) (.makeBool b)
  | makeInt (i : Int64) (sort : LogicSort) : Alike R (.makeInt i sort) (.makeInt i sort)
  | parseValue (repr : String) (sort : LogicSort) (base : Nat) :
      Alike R (.parseValue repr sort base) (.parseValue repr sort base)
  | getSymbol (name : String) : Alike R (.getSymbol name) (.getSymbol name)
  | substitute {t t' : Term} {map map' : TermMap} (pair : R t t')
      (maps : TermMap.Alike R map map') :
      Alike R (.substitute t map) (.substitute t' map')
  | substituteTerms {ts ts' : List Term} {map map' : TermMap} (pairs : List.Forall₂ R ts ts')
      (maps : TermMap.Alike R map map') :
        Alike R (.substituteTerms ts map) (.substituteTerms ts' map')
  | transfer {t t' : Term} (pair : R t t') : Alike R (.transfer t) (.transfer t')

section Weakening

variable {R R' : Term → Term → Prop} (weaker : ∀ t t', R t t' → R' t t')

include weaker

theorem Command.Alike.imp {c c' : Command LogicSort Term} (alike : c.Alike R c') :
    c.Alike R' c' := by
  cases alike with
  | plain none => exact .plain none
  | makeConstArray fills sort => exact .makeConstArray (weaker _ _ fills) sort
  | makeTerm op pairs => exact .makeTerm op (pairs.imp weaker)
  | checkSatAssuming pairs => exact .checkSatAssuming (pairs.imp weaker)
  | sortOf pair => exact .sortOf (weaker _ _ pair)
  | opOf pair => exact .opOf (weaker _ _ pair)
  | children pair => exact .children (weaker _ _ pair)
  | literal pair => exact .literal (weaker _ _ pair)
  | assertFormula pair => exact .assertFormula (weaker _ _ pair)
  | getValue pair => exact .getValue (weaker _ _ pair)
  | getArrayValues pair => exact .getArrayValues (weaker _ _ pair)

theorem TermMap.Alike.imp {map map' : TermMap} (maps : TermMap.Alike R map map') :
    TermMap.Alike R' map map' := by
  refine ⟨fun e member => ?_, fun e' member => ?_, maps.checked⟩
  · obtain ⟨e', member', keys, values⟩ := maps.forth e member
    exact ⟨e', member', weaker _ _ keys, weaker _ _ values⟩
  · obtain ⟨e, member', keys, values⟩ := maps.back e' member
    exact ⟨e, member', weaker _ _ keys, weaker _ _ values⟩

theorem Request.Alike.imp {q q' : Request} (alike : q.Alike R q') : q.Alike R' q' := by
  cases alike with
  | command alike => exact .command (alike.imp weaker)
  | makeBool b => exact .makeBool b
  | makeInt i sort => exact .makeInt i sort
  | parseValue repr sort base => exact .parseValue repr sort base
  | getSymbol name => exact .getSymbol name
  | substitute pair maps => exact .substitute (weaker _ _ pair) (maps.imp weaker)
  | substituteTerms pairs maps => exact .substituteTerms (pairs.imp weaker) (maps.imp weaker)
  | transfer pair => exact .transfer (weaker _ _ pair)

end Weakening

variable {V : Vocabulary} {N N' : Naming}

theorem TermMap.Alike.maps {map map' : TermMap} (maps : TermMap.Alike (V.Pair N) map map') :
    N.Maps (V.Pair N) (map[·]?) (map'[·]?) := by
  have find {map : TermMap} {k v : Term} (member : (k, v) ∈ map.toList) : map[k]? = some v :=
    Std.HashMap.getElem?_eq_some_iff_exists_beq_and_mem_toList.mpr ⟨k, BEq.rfl, member⟩
  constructor
  · intro t v found
    obtain ⟨k, same, member⟩ := Std.HashMap.getElem?_eq_some_iff_exists_beq_and_mem_toList.mp found
    obtain ⟨⟨k', v'⟩, member', keys, values⟩ := maps.forth _ member
    refine ⟨k', v', ?_, find member', values⟩
    exact Term.beq_iff.mp same ▸ keys.renamed.id
  · intro t' v' found'
    obtain ⟨k', same, member'⟩ :=
      Std.HashMap.getElem?_eq_some_iff_exists_beq_and_mem_toList.mp found'
    obtain ⟨⟨k, v⟩, member, keys, values⟩ := maps.back _ member'
    refine ⟨k, v, ?_, find member, values⟩
    exact Term.beq_iff.mp same ▸ keys.renamed.id

namespace Answer.Alike

variable {R : Term → Term → Prop}

theorem refl {a : Answer LogicSort Term} (none : a.given = []) : a.Alike R a :=
  ⟨rfl, by rw [none]; exact .nil⟩

theorem of_pair {t t' : Term} (pair : V.Pair N t t') :
    Answer.Alike (V.Pair N) (.term t) (.term t') :=
  ⟨congrArg Answer.term pair.renamed.shape, .cons pair .nil⟩

theorem shapes_of_pairs {ts ts' : List Term} (pairs : List.Forall₂ (V.Pair N) ts ts') :
    ts'.map Term.shape = ts.map Term.shape := by
  rw [← List.forall₂_eq_eq_eq, List.forall₂_map_left_iff, List.forall₂_map_right_iff]
  exact (pairs.imp fun _ _ pair => pair.renamed.shape.symm).flip.imp fun _ _ same => same.symm

theorem of_pairs {ts ts' : List Term} (pairs : List.Forall₂ (V.Pair N) ts ts') :
    Answer.Alike (V.Pair N) (.terms ts) (.terms ts') :=
  ⟨congrArg Answer.terms (shapes_of_pairs pairs), pairs⟩

theorem arrayModel {m m' : ArrayModel Term} (alike : m.Alike (V.Pair N) m') :
    Answer.Alike (V.Pair N) (.arrayModel m) (.arrayModel m') := by
  obtain ⟨base, cells⟩ := m
  obtain ⟨base', cells'⟩ := m'
  obtain ⟨bases, pairs⟩ := alike
  dsimp only at bases pairs
  constructor
  · rw [Answer.map, Answer.map, ArrayModel.map, ArrayModel.map]
    congr 2
    · cases bases with
      | none => rfl
      | some pair => exact congrArg some pair.renamed.shape
    · rw [← List.forall₂_eq_eq_eq, List.forall₂_map_left_iff, List.forall₂_map_right_iff]
      refine (pairs.imp fun p p' pair => ?_).flip
      exact congrArg₂ Prod.mk pair.1.renamed.shape pair.2.renamed.shape
  · refine List.rel_append ?_ ?_
    · cases bases with
      | none => exact .nil
      | some pair => exact .cons pair .nil
    · induction pairs with
      | nil => exact .nil
      | cons first _ ih => exact .cons first.1 (.cons first.2 ih)

end Answer.Alike

namespace Action.Agree

/-! What was made of a part is wrapped as an answer. -/

variable {σ σ' α : Type} {sound : Naming → σ → σ' → Prop} {s : σ} {s' : σ'}

theorem done {act : Action σ Unit} {act' : Action σ' Unit}
    (agree : Agree sound N Same (act s) (act' s')) :
    Agree sound N (fun N => Answer.Alike (V.Pair N))
      ((act >>= fun _ => Pure.pure .done : Action σ (Answer LogicSort Term)) s)
      ((act' >>= fun _ => Pure.pure .done : Action σ' (Answer LogicSort Term)) s') :=
  agree.bind fun _ _ _ _ _ _ related _ => .pure related (.refl rfl)

theorem plainly {act : Action σ α} {act' : Action σ' α} {wrap : α → Answer LogicSort Term}
    (agree : Agree sound N Same (act s) (act' s')) (none : ∀ a, (wrap a).given = []) :
    Agree sound N (fun N => Answer.Alike (V.Pair N)) ((wrap <$> act) s) ((wrap <$> act') s') := by
  refine agree.map fun _ a a' same => ?_
  cases same
  exact .refl (none a)

theorem term {act : Action σ Term} {act' : Action σ' Term}
    (agree : Agree sound N V.Pair (act s) (act' s')) :
    Agree sound N (fun N => Answer.Alike (V.Pair N)) ((Answer.term <$> act) s)
      ((Answer.term <$> act') s') :=
  agree.map fun _ _ _ pair => .of_pair pair

theorem terms {act : Action σ (List Term)} {act' : Action σ' (List Term)}
    (agree : Agree sound N (fun N => List.Forall₂ (V.Pair N)) (act s) (act' s')) :
    Agree sound N (fun N => Answer.Alike (V.Pair N)) ((Answer.terms <$> act) s)
      ((Answer.terms <$> act') s') :=
  agree.map fun _ _ _ pairs => .of_pairs pairs

end Action.Agree

namespace Solver

variable {σ S T σ' S' T' : Type} [BEq T] [Hashable T] [Engine σ S T] [BEq T']
    [Hashable T'] [Engine σ' S' T']
  {sound : Naming → Solver σ S T → Solver σ' S' T' → Prop} {s : Solver σ S T} {s' : Solver σ' S' T'}
  {t t' : Term} {w w' : Walker}

omit [Engine σ S T] [Engine σ' S' T'] in
theorem walkWith_agree {r : Rewriter (Solver σ S T)} {r' : Rewriter (Solver σ' S' T')}
    (alike : r.Alike V sound r') (walkers : w.Alike V N w') (related : sound N s s')
    (pair : V.Pair N t t') :
    Agree sound N (fun N p p' => p.1.Alike V N p'.1 ∧ V.Pair N p.2 p'.2) (walkWith r w t s)
      (walkWith r' w' t' s') := by
  have visited := Walker.visit_renamed alike walkers related pair
  unfold walkWith
  generalize Walker.visit r t (w, s) = v, Walker.visit r' t' (w', s') = v' at visited
  cases visited with
  | ok extension related pair => exact .ok extension related.2 ⟨related.1, pair⟩
  | error extension related alike => exact .error extension related.2 alike

namespace Likeness

variable (like : Likeness V sound)

include like

theorem identity :
    Rewriter.Alike V sound (.identity Solver.makeTerm : Rewriter (Solver σ S T))
      (.identity Solver.makeTerm : Rewriter (Solver σ' S' T')) where
  ordered := like.ordered
  iterable _ := rfl
  visit related _ _ := .pure related .resume
  rebuild related used pairs := like.makeTerm related used pairs

theorem translator :
    Rewriter.Alike V sound (Solver.translator : Rewriter (Solver σ S T))
      (Solver.translator : Rewriter (Solver σ' S' T')) where
  ordered := like.ordered
  iterable _ := rfl
  visit related pair pairs :=
    (like.translate related pair pairs).map fun _ _ _ pair => .replace pair
  rebuild related used pairs := like.makeTerm related used pairs

variable (related : sound N s s')

include related

theorem substituteAll {ts ts' : List Term} (walkers : w.Alike V N w')
    (pairs : List.Forall₂ (V.Pair N) ts ts') :
    Agree sound N (fun N => List.Forall₂ (V.Pair N)) (Solver.substituteAll w ts s)
      (Solver.substituteAll w' ts' s') := by
  induction ts generalizing N s s' w w' ts' with
  | nil =>
    cases pairs
    exact .pure related .nil
  | cons t ts ih =>
    cases pairs with
    | cons pair rest =>
      refine Agree.bind (walkWith_agree like.identity walkers related pair) ?_
      rintro N₁ ⟨w₁, u⟩ ⟨w₁', u'⟩ s₁ s₁' extension related ⟨walkers, pair⟩
      refine Agree.bind (ih related walkers (Vocabulary.Pair.extend_all rest extension)) ?_
      rintro N₂ us us' s₂ s₂' extension related pairs
      exact .pure related (.cons (pair.extend extension) pairs)

omit like [Engine σ S T] [Engine σ' S' T'] in
theorem substitutionWalker {map map' : TermMap}
    (maps : TermMap.Alike (V.Pair N) map map') {α α' : Type}
    {goal : Naming → α → α' → Prop} {next : Walker → Action (Solver σ S T) α}
    {next' : Walker → Action (Solver σ' S' T') α'}
    (accepted : ∀ w w', w.Alike V N w' → Agree sound N goal (next w s) (next' w' s')) :
    Agree sound N goal ((Action.ofExcept (Substitution.walker map) >>= next) s)
      ((Action.ofExcept (Substitution.walker map') >>= next') s') := by
  have known := maps.maps
  have checked := maps.checked
  unfold Substitution.walker at checked ⊢
  generalize map.toList.find? _ = found, map'.toList.find? _ = found' at checked ⊢
  cases found with
  | none =>
    cases found' with
    | none => exact accepted _ _ ⟨rfl, known⟩
    | some e' => cases checked
  | some e =>
    cases found' with
    | none => cases checked
    | some e' =>
      cases checked with
      | error alike => exact .error (.refl N) related alike

theorem substitute {map map' : TermMap} (pair : V.Pair N t t')
    (maps : TermMap.Alike (V.Pair N) map map') :
    Agree sound N V.Pair (Solver.substitute t map s) (Solver.substitute t' map' s') := by
  refine substitutionWalker related maps fun w w' walkers => ?_
  refine Agree.bind (walkWith_agree like.identity walkers related pair) ?_
  rintro N' ⟨w₁, u⟩ ⟨w₁', u'⟩ s₁ s₁' - related ⟨-, pair⟩
  exact .pure related pair

theorem substituteTerms {ts ts' : List Term} {map map' : TermMap}
    (pairs : List.Forall₂ (V.Pair N) ts ts')
    (maps : TermMap.Alike (V.Pair N) map map') :
    Agree sound N (fun N => List.Forall₂ (V.Pair N)) (Solver.substituteTerms ts map s)
      (Solver.substituteTerms ts' map' s') :=
  substitutionWalker related maps fun _ _ walkers => like.substituteAll related walkers pairs

theorem transfer (pair : V.Pair N t t') :
    Agree sound N V.Pair (Solver.transfer t s) (Solver.transfer t' s') := by
  refine Agree.bind (walkWith_agree like.translator (Walker.alike_fresh true) related pair) ?_
  rintro N' ⟨w₁, u⟩ ⟨w₁', u'⟩ s₁ s₁' - related ⟨-, pair⟩
  exact .pure related pair

theorem getSymbol (name : String) :
    Agree sound N V.Pair (Solver.getSymbol name s) (Solver.getSymbol name s') := by
  have known := like.symbols related name
  refine ask_agree related ?_
  rw [Session.symbol, Session.symbol]
  generalize s.session.symbols[name]? = found, s'.session.symbols[name]? = found' at known
  cases known with
  | some pair => exact .ok pair
  | none => exact .error (.refl _)

theorem command {c c' : Command LogicSort Term} (alike : c.Alike (V.Pair N) c')
    (within : (Request.command c).Within V) :
    Agree sound N (fun N => Answer.Alike (V.Pair N)) (Engine.perform c s)
      (Engine.perform c' s') := by
  obtain ⟨sorts, ops⟩ := within
  dsimp only [Request.sorts, Request.ops] at sorts ops
  cases alike with
  | makeConstArray fills sort =>
    exact .term (like.makeConstArray related fills (sorts sort List.mem_cons_self))
  | makeTerm op pairs => exact .term (like.makeTerm related (ops op List.mem_cons_self) pairs)
  | checkSatAssuming pairs => exact .plainly (like.checkSatAssuming related pairs) fun _ => rfl
  | sortOf pair => exact .ok (.refl N) related (pair.renamed.sort ▸ .refl rfl)
  | opOf pair => exact .ok (.refl N) related (pair.renamed.op ▸ .refl rfl)
  | children pair => exact .ok (.refl N) related (.of_pairs pair.children)
  | literal pair =>
    refine .ok (.refl N) related ?_
    dsimp only [Engine.literal]
    rw [Term.literal?, Term.literal?, pair.renamed.kind]
    exact .refl rfl
  | assertFormula pair => exact .done (like.assertFormula related pair)
  | getValue pair => exact .term (like.getValue related pair)
  | getArrayValues pair =>
    exact (like.getArrayValues related pair).map fun _ _ _ alike => .arrayModel alike
  | plain none =>
    cases c with
    | name => exact .ok (.refl N) related (like.name related ▸ .refl rfl)
    | capabilities => exact .ok (.refl N) related (like.capabilities related ▸ .refl rfl)
    | setOption option value => exact .done (like.setOption option value related)
    | setLogic logic => exact .done (like.setLogic logic related)
    | makeSort kind => exact .plainly (like.makeSort kind related) fun _ => rfl
    | makeBitVecSort width => exact .plainly (like.makeBitVecSort width related) fun _ => rfl
    | makeArraySort index element =>
      have uses := sorts index List.mem_cons_self
      have uses' := sorts element (List.mem_cons_of_mem _ List.mem_cons_self)
      exact .plainly (like.makeArraySort related uses uses') fun _ => rfl
    | makeFunctionSort domain range =>
      have uses := fun sort member => sorts sort (List.mem_cons_of_mem _ member)
      exact .plainly (like.makeFunctionSort related uses (sorts range List.mem_cons_self))
        fun _ => rfl
    | makeUninterpretedSort name arity =>
      exact .plainly (like.makeUninterpretedSort name arity related) fun _ => rfl
    | makeDatatypeSort decl => exact .plainly (like.makeDatatypeSort decl related) fun _ => rfl
    | makeValue l sort => exact .term (like.makeValue l related (sorts sort List.mem_cons_self))
    | makeSymbol name sort =>
      exact .term (like.makeSymbol name related (sorts sort List.mem_cons_self))
    | makeTerm op args =>
      cases none
      exact .term (like.makeTerm related (ops op List.mem_cons_self) .nil)
    | checkSat => exact .plainly (like.checkSat related) fun _ => rfl
    | checkSatAssuming assumptions =>
      cases none
      exact .plainly (like.checkSatAssuming related .nil) fun _ => rfl
    | checkSatInterruptible token =>
      exact .plainly (like.checkSatInterruptible token related) fun _ => rfl
    | getUnsatCore => exact .terms (like.getUnsatCore related)
    | push levels => exact .done (like.push levels related)
    | pop levels => exact .done (like.pop levels related)
    | reset => exact .done (like.reset related)
    | resetAssertions => exact .done (like.resetAssertions related)
    | makeConstArray | sortOf | opOf | children
    | literal | assertFormula | getValue | getArrayValues =>
      cases none

/-- Solvers that are alike serve requests alike. -/
theorem perform {q q' : Request} (alike : q.Alike (V.Pair N) q') (within : q.Within V) :
    Agree sound N (fun N => Answer.Alike (V.Pair N)) (q.perform s) (q'.perform s') := by
  cases alike with
  | command alike => exact like.command related alike within
  | makeBool b => exact .term (like.makeValue _ related like.bool)
  | makeInt i sort => exact .term (like.makeInt related i (within.sorts sort List.mem_cons_self))
  | parseValue repr sort base =>
    exact .term (like.parseValue related repr base (within.sorts sort List.mem_cons_self))
  | getSymbol name => exact .term (like.getSymbol related name)
  | substitute pair maps => exact .term (like.substitute related pair maps)
  | substituteTerms pairs maps => exact .terms (like.substituteTerms related pairs maps)
  | transfer pair => exact .term (like.transfer related pair)

end Likeness

end Solver

end FormulaGraph
