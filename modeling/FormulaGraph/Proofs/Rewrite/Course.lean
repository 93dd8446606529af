import FormulaGraph.Proofs.Rewrite.Walk
import FormulaGraph.Proofs.Term.Symbols

/-!
The course of a walk: the loop that works off the stack, turn by turn. It ends after at most two
turns for each place of the tree. A node that was entered lies on the stack below what it waits for,
and everything above it belongs to its children, so when it is met again, they are known. Each node
is asked about at most once; in a walk that is completed it is asked about exactly if a path without
known nodes leads to it from the root.
-/

namespace FormulaGraph

namespace Rewriter

variable {σ : Type} {r : Rewriter σ}

/-- A walk as it stands between two turns. -/
structure Loop (σ : Type) where
  entered : Std.HashSet Term
  cache : TermMap
  state : σ
  stack : List Term

/-- Everything that is known in the first cache is known likewise in the second. -/
def Keeps (known cache : TermMap) : Prop :=
  ∀ a u : Term, known[a]? = some u → cache[a]? = some u

theorem Keeps.refl (cache : TermMap) : Keeps cache cache := fun _ _ found => found

theorem Keeps.trans {known cache cache' : TermMap} (first : Keeps known cache)
    (second : Keeps cache cache') : Keeps known cache' :=
  fun a u found => second a u (first a u found)

theorem Keeps.contains {known cache : TermMap} (keeps : Keeps known cache) {a : Term}
    (found : known.contains a = true) : cache.contains a = true := by
  rw [Std.HashMap.contains_eq_isSome_getElem?, Option.isSome_iff_exists] at found ⊢
  obtain ⟨u, found⟩ := found
  exact ⟨u, keeps a u found⟩

theorem Keeps.unknown {known cache : TermMap} (keeps : Keeps known cache) {a : Term}
    (unknown : cache.contains a = false) : known.contains a = false := by
  cases found : known.contains a with
  | false => rfl
  | true => exact absurd (unknown.symm.trans (keeps.contains found)) Bool.false_ne_true

theorem keeps_insert {cache : TermMap} {t : Term} (unknown : cache.contains t = false) (u : Term) :
    Keeps cache (cache.insert t u) := by
  intro a v found
  have other : (t == a) = false := by
    cases same : t == a with
    | false => rfl
    | true =>
      rw [Std.HashMap.contains_congr same,
        Std.HashMap.contains_eq_isSome_getElem?, found] at unknown
      cases unknown
  rw [Std.HashMap.getElem?_insert, other]
  exact found

/-- There is a path from the root to the node on which nothing is known. -/
inductive Reached (known : TermMap) (root : Term) : Term → Prop
  | root (unknown : known.contains root = false) : Reached known root root
  | child {t c : Term} (upper : Reached known root t) (child : c ∈ t.children)
      (unknown : known.contains c = false) : Reached known root c

theorem Reached.occursIn {known : TermMap} {root t : Term} (reached : Reached known root t) :
    t.OccursIn root := by
  induction reached with
  | root => exact .here
  | child _ child _ ih => exact ih.child child

theorem Reached.unknown {known : TermMap} {root t : Term} (reached : Reached known root t) :
    known.contains t = false := by
  cases reached with
  | root unknown => exact unknown
  | child _ _ unknown => exact unknown

/-- The node that a call of the rewriter asks about. -/
def Call.asked? : Call → Option Term
  | visit t _ => some t
  | rebuild _ _ => none

namespace Loop

/-- One turn: what it leaves, or, if it is the last one, how the walk ends. -/
def turn (r : Rewriter σ) (l : Loop σ) : Except (Ending × TermMap × σ) (Loop σ) :=
  match l.stack with
  | [] => .error (.completed, l.cache, l.state)
  | t :: rest =>
    if l.cache.contains t then .ok { l with stack := rest }
    else if l.entered.contains t then
      match resolved l.cache t t.children with
      | .error e => .error (.failed e, l.cache, l.state)
      | .ok children =>
        match r.settle t children l.state with
        | (.error ending, s) => .error (ending, l.cache, s)
        | (.ok u, s) => .ok { l with cache := l.cache.insert t u, state := s, stack := rest }
    else .ok { l with entered := l.entered.insert t, stack := enter t rest }

/-- The node that is met again, about which the rewriter is to be asked in this turn. -/
def asked (l : Loop σ) : Option Term :=
  match l.stack with
  | [] => none
  | t :: _ => if !l.cache.contains t && l.entered.contains t then some t else none

/-- The loops from here to the end, and how the last one ended. -/
inductive Course (r : Rewriter σ) : Loop σ → List (Loop σ) → Ending × TermMap × σ → Prop
  | ends {l : Loop σ} {out : Ending × TermMap × σ} (last : l.turn r = .error out) :
      Course r l [l] out
  | goes {l l' : Loop σ} {more : List (Loop σ)} {out : Ending × TermMap × σ}
      (turns : l.turn r = .ok l')
      (rest : Course r l' more out) : Course r l (l :: more) out

section Turns

variable {l l' : Loop σ} {t : Term} {out : Ending × TermMap × σ} {course : List (Loop σ)}

theorem asked_eq_some_iff : l.asked = some t ↔
    ∃ rest, l.stack = t :: rest ∧ l.cache.contains t = false ∧ l.entered.contains t = true := by
  obtain ⟨entered, cache, s, stack⟩ := l
  cases stack with
  | nil => simp [asked]
  | cons u rest =>
    simp only [asked, Option.ite_none_right_eq_some, Option.some.injEq, Bool.and_eq_true,
      Bool.not_eq_true', List.cons.injEq]
    constructor
    · rintro ⟨⟨unknown, known⟩, rfl⟩
      exact ⟨rest, ⟨rfl, rfl⟩, unknown, known⟩
    · rintro ⟨_, ⟨rfl, rfl⟩, unknown, known⟩
      exact ⟨⟨unknown, known⟩, rfl⟩

/-- What a turn can do: it drops a node that is known, enters one, or settles one that it asks
about. -/
theorem turn_cases (turns : l.turn r = .ok l') :
    (∃ t rest, l.stack = t :: rest ∧ l.cache.contains t = true ∧ l.asked = none ∧
      l' = { l with stack := rest }) ∨
    (∃ t rest, l.stack = t :: rest ∧ l.cache.contains t = false ∧ l.entered.contains t = false ∧
      l.asked = none ∧ l' = { l with entered := l.entered.insert t, stack := enter t rest }) ∨
    ∃ t rest u s, l.stack = t :: rest ∧ l.cache.contains t = false ∧ l.asked = some t ∧
      l' = { l with cache := l.cache.insert t u, state := s, stack := rest } := by
  obtain ⟨entered, cache, s, stack⟩ := l
  cases stack with
  | nil => cases turns
  | cons t rest =>
    simp only [turn] at turns
    by_cases known : cache.contains t = true
    · rw [if_pos known] at turns
      cases turns
      exact .inl ⟨t, rest, rfl, known, by simp [asked, known], rfl⟩
    · rw [if_neg known] at turns
      have unknown : cache.contains t = false := by simpa using known
      by_cases met : entered.contains t = true
      · rw [if_pos met] at turns
        have asks : asked ⟨entered, cache, s, t :: rest⟩ = some t :=
          asked_eq_some_iff.mpr ⟨rest, rfl, unknown, met⟩
        split at turns
        · cases turns
        · split at turns
          · cases turns
          · cases turns
            exact .inr (.inr ⟨t, rest, _, _, rfl, unknown, asks, rfl⟩)
      · rw [if_neg met] at turns
        cases turns
        have fresh : entered.contains t = false := by simpa using met
        exact .inr (.inl ⟨t, rest, rfl, unknown, fresh, by simp [asked, fresh], rfl⟩)

theorem walk_eq_turn (r : Rewriter σ) (l : Loop σ) : r.walk l.entered l.cache l.state l.stack =
    match l.turn r with
    | .error out => out
    | .ok l' => r.walk l'.entered l'.cache l'.state l'.stack := by
  obtain ⟨entered, cache, s, stack⟩ := l
  cases stack with
  | nil => rw [walk, turn]
  | cons t rest =>
    rw [walk, turn]
    dsimp only
    by_cases known : cache.contains t = true
    · rw [if_pos known, if_pos known]
    · rw [if_neg known, if_neg known]
      by_cases met : entered.contains t = true
      · rw [if_pos met, if_pos met]
        cases resolved cache t t.children with
        | error e => rfl
        | ok children =>
          dsimp only
          obtain ⟨result, s'⟩ := r.settle t children s
          cases result <;> rfl
      · rw [if_neg met, if_neg met]

theorem weights_turn (turns : l.turn r = .ok l') :
    weights l'.entered l'.stack < weights l.entered l.stack := by
  obtain ⟨t, rest, stack, -, -, rfl⟩ | ⟨t, rest, stack, -, fresh, -, rfl⟩ |
    ⟨t, rest, u, s, stack, -, -, rfl⟩ := turn_cases turns
  · have := weight_pos l.entered t
    simp only [stack, weights]
    omega
  · rw [stack]
    exact weights_enter rest (by simp [fresh])
  · have := weight_pos l.entered t
    simp only [stack, weights]
    omega

/-- Every walk has a course, which is no longer than its stack is heavy. -/
theorem exists_course (r : Rewriter σ) (l : Loop σ) :
    ∃ course, Course r l course (r.walk l.entered l.cache l.state l.stack) ∧
      course.length ≤ weights l.entered l.stack + 1 := by
  rw [walk_eq_turn]
  cases turns : l.turn r with
  | error out => exact ⟨[l], .ends turns, by simp⟩
  | ok l' =>
    have lighter := weights_turn turns
    obtain ⟨course, rest, short⟩ := exists_course r l'
    exact ⟨l :: course, .goes turns rest, by simp only [List.length_cons]; omega⟩
termination_by weights l.entered l.stack

theorem keeps_turn (turns : l.turn r = .ok l') : Keeps l.cache l'.cache := by
  obtain ⟨t, rest, -, -, -, rfl⟩ | ⟨t, rest, -, -, -, -, rfl⟩ | ⟨t, rest, u, s,
      -, unknown, -, rfl⟩ :=
    turn_cases turns
  · exact .refl _
  · exact .refl _
  · exact keeps_insert unknown u

theorem cache_of_last (last : l.turn r = .error out) : out.2.1 = l.cache := by
  obtain ⟨entered, cache, s, stack⟩ := l
  cases stack with
  | nil => cases last; rfl
  | cons t rest =>
    simp only [turn] at last
    split at last
    · cases last
    · split at last
      · split at last
        · cases last; rfl
        · split at last
          · cases last; rfl
          · cases last
      · cases last

theorem stack_of_completed {s : σ} {cache : TermMap}
    (last : l.turn r = .error (.completed, cache, s)) :
    l.stack = [] := by
  obtain ⟨entered, cache', s', stack⟩ := l
  cases stack with
  | nil => rfl
  | cons t rest =>
    simp only [turn] at last
    split at last
    · cases last
    · split at last
      · split at last
        · cases last
        · rename_i children _
          have going := settle_ne_completed r t children s'
          split at last
          · rename_i ending s'' settled
            cases last
            exact absurd (congrArg Prod.fst settled) going
          · cases last
      · cases last

/-- The loop that is left knows the node that was asked about, and of new nodes that one only. -/
theorem contains_turn (turns : l.turn r = .ok l') (a : Term) :
    l'.cache.contains a = true ↔ l.cache.contains a = true ∨
      ∃ t, l.asked = some t ∧ t.id = a.id := by
  obtain ⟨t, rest, -, -, none, rfl⟩ | ⟨t, rest, -, -, -, none, rfl⟩ | ⟨t, rest, u,
      s, -, -, some, rfl⟩ :=
    turn_cases turns
  · simp [none]
  · simp [none]
  · simp only [some, Std.HashMap.contains_insert, Bool.or_eq_true, Term.beq_iff, Option.some.injEq,
      exists_eq_left']
    exact Or.comm

end Turns

namespace Course

variable {l l' : Loop σ} {t : Term} {out : Ending × TermMap × σ} {course : List (Loop σ)}

theorem keeps (goes : Course r l course out) : Keeps l.cache out.2.1 := by
  induction goes with
  | ends last => rw [cache_of_last last]; exact .refl _
  | goes turns _ ih => exact (keeps_turn turns).trans ih

theorem forall_mem {P : Loop σ → Prop} (goes : Course r l course out)
    (step : ∀ l l', P l → l.turn r = .ok l' → P l') (holds : P l) : ∀ l' ∈ course, P l' := by
  induction goes with
  | ends => exact fun l' hl' => List.mem_singleton.mp hl' ▸ holds
  | @goes l l' more out turns _ ih =>
    have others := ih (step l l' holds turns)
    exact fun l'' hl'' => (List.mem_cons.mp hl'').elim (fun same => same ▸ holds) (others l'')

theorem mem_keeps (goes : Course r l course out) : ∀ l' ∈ course, Keeps l'.cache out.2.1 := by
  induction goes with
  | ends last =>
    intro l' hl'
    rw [List.mem_singleton.mp hl', cache_of_last last]
    exact .refl _
  | goes turns rest ih =>
    intro l' hl'
    cases List.mem_cons.mp hl' with
    | inl same => rw [same]; exact (keeps_turn turns).trans rest.keeps
    | inr hl' => exact ih l' hl'

/-- A node is asked about only as long as it is unknown, and known from then on. -/
theorem once (goes : Course r l course out) :
    (course.filterMap asked).Pairwise fun a b => a.id ≠ b.id := by
  induction goes with
  | @ends l _ _ => cases h : l.asked <;> simp [h]
  | @goes l l' more out turns rest ih =>
    cases h : l.asked with
    | none => simpa [h] using ih
    | some t =>
      rw [List.filterMap_cons_some h, List.pairwise_cons]
      refine ⟨fun b hb same => ?_, ih⟩
      obtain ⟨l'', hl'', asks⟩ := List.mem_filterMap.mp hb
      have known : l'.cache.contains b = true := (contains_turn turns b).mpr (.inr ⟨t, h, same⟩)
      have still := rest.forall_mem (P := fun l => l.cache.contains b = true)
        (fun _ _ known turns => (keeps_turn turns).contains known) known l'' hl''
      obtain ⟨-, -, unknown, -⟩ := asked_eq_some_iff.mp asks
      exact absurd (unknown.symm.trans still) Bool.false_ne_true

theorem known_or_asked (goes : Course r l course out) {a : Term}
    (known : out.2.1.contains a = true) :
    l.cache.contains a = true ∨ ∃ t ∈ course.filterMap asked, t.id = a.id := by
  induction goes with
  | ends last => rw [cache_of_last last] at known; exact .inl known
  | @goes l l' more out turns _ ih =>
    have later : ∀ t ∈ more.filterMap asked, t ∈ (l :: more).filterMap asked := fun t ht => by
      obtain ⟨l'', hl'', asks⟩ := List.mem_filterMap.mp ht
      exact List.mem_filterMap.mpr ⟨l'', List.mem_cons_of_mem _ hl'', asks⟩
    obtain found | ⟨t, ht, same⟩ := ih known
    · obtain before | ⟨t, asks, same⟩ := (contains_turn turns a).mp found
      · exact .inl before
      · exact .inr ⟨t, List.mem_filterMap.mpr ⟨l, List.mem_cons_self, asks⟩, same⟩
    · exact .inr ⟨t, later t ht, same⟩

/-- A walk that is completed has come to know all that was on the stack. -/
theorem knows_stack (goes : Course r l course out) (completed : out.1 = .completed) :
    ∀ t ∈ l.stack, out.2.1.contains t = true := by
  induction goes with
  | @ends l out last =>
    obtain ⟨ending, cache, s⟩ := out
    cases completed
    rw [stack_of_completed last]
    exact fun t ht => absurd ht List.not_mem_nil
  | goes turns rest ih =>
    have others := ih completed
    obtain ⟨u, below, stack, known, -, rfl⟩ | ⟨u, below, stack, -, -, -, rfl⟩ |
      ⟨u, below, v, s, stack, -, -, rfl⟩ := turn_cases turns
    · rw [stack]
      exact List.forall_mem_cons.mpr ⟨rest.keeps.contains known, others⟩
    · rw [stack]
      exact fun t ht => others t (List.mem_append_right _ ht)
    · rw [stack]
      exact List.forall_mem_cons.mpr ⟨rest.keeps.contains (by simp), others⟩

end Course

section Waiting

variable {P : Term → Prop} {cache cache' known : TermMap} {stack rest : List Term} {t u root : Term}
  {l l' : Loop σ}

/-- The node lies on the stack, above it only nodes below it in the graph, among them all of its
children that are not known. -/
def Waits (cache : TermMap) (stack : List Term) (t : Term) : Prop :=
  ∃ above below, stack = above ++ t :: below ∧ (∀ a ∈ above, ∃ c ∈ t.children, a.OccursIn c) ∧
    ∀ c ∈ t.children, cache.contains c = true ∨ c ∈ above

theorem Waits.pop (waits : Waits cache (u :: rest) t) (other : t ≠ u) (keeps : Keeps cache cache')
    (known : cache'.contains u = true) : Waits cache' rest t := by
  obtain ⟨above, below, split, lower, children⟩ := waits
  cases above with
  | nil => exact absurd (List.cons.inj split).1.symm other
  | cons a above =>
    obtain ⟨rfl, rfl⟩ := List.cons.inj split
    refine ⟨above, below, rfl, fun a ha => lower a (List.mem_cons_of_mem _ ha), fun c hc => ?_⟩
    obtain found | found := children c hc
    · exact .inl (keeps.contains found)
    · obtain rfl | found := List.mem_cons.mp found
      · exact .inl known
      · exact .inr found

/-- What is on top is entered: its children belong to whatever waited for it. -/
theorem Waits.push (waits : Waits cache (u :: rest) t) (other : t ≠ u) :
    Waits cache (enter u rest) t := by
  obtain ⟨above, below, split, lower, children⟩ := waits
  cases above with
  | nil => exact absurd (List.cons.inj split).1.symm other
  | cons a above =>
    obtain ⟨rfl, rfl⟩ := List.cons.inj split
    refine ⟨u.children.reverse ++ u :: above,
      below, by simp [enter], fun b hb => ?_, fun c hc => ?_⟩
    · obtain child | hb := List.mem_append.mp hb
      · obtain ⟨c, hc, occurs⟩ := lower u List.mem_cons_self
        exact ⟨c, hc, occurs.child (List.mem_reverse.mp child)⟩
      · exact lower b hb
    · exact (children c hc).imp_right (List.mem_append_right _)

theorem waits_enter (cache : TermMap) (t : Term) (rest : List Term) :
    Waits cache (enter t rest) t :=
  ⟨t.children.reverse, rest, rfl, fun a ha => ⟨a, List.mem_reverse.mp ha, .here⟩,
    fun _ hc => .inr (List.mem_reverse.mpr hc)⟩

theorem Waits.ready (waits : Waits cache (t :: rest) t) (acyclic : t.Acyclic) :
    ∀ c ∈ t.children, cache.contains c = true := by
  obtain ⟨above, below, split, lower, children⟩ := waits
  cases above with
  | nil => exact fun c hc => (children c hc).resolve_right List.not_mem_nil
  | cons a above =>
    obtain ⟨rfl, -⟩ := List.cons.inj split
    obtain ⟨c, hc, occurs⟩ := lower t List.mem_cons_self
    exact absurd rfl (acyclic t .here c hc t occurs)

/-- A walk from the root, which started with what is known. -/
structure Standing (P : Term → Prop) (known : TermMap) (root : Term) (l : Loop σ) : Prop where
  keeps : Keeps known l.cache
  nodes : ∀ t ∈ l.stack, P t
  reached : ∀ t ∈ l.stack, known.contains t = true ∨ Reached known root t
  waits : ∀ t : Term, P t → l.entered.contains t = true → l.cache.contains t = false →
    Waits l.cache l.stack t

theorem standing_start (known : TermMap) {root : Term} (node : P root) (s : σ) :
    Standing P known root ⟨{}, known, s, [root]⟩ where
  keeps := .refl known
  nodes t ht := List.mem_singleton.mp ht ▸ node
  reached t ht := by
    rw [List.mem_singleton.mp ht]
    cases found : known.contains root with
    | true => exact .inl rfl
    | false => exact .inr (.root found)
  waits t _ entered := by simp at entered

theorem Standing.turn (standing : Standing P known root l) (identified : Term.Identified P)
    (turns : l.turn r = .ok l') : Standing P known root l' := by
  have keeps := standing.keeps.trans (keeps_turn turns)
  obtain ⟨nodes, reached, waits⟩ := (⟨standing.nodes, standing.reached, standing.waits⟩ : _ ∧ _ ∧ _)
  obtain ⟨u, rest, stack, found, -, rfl⟩ | ⟨u, rest, stack, unknown, fresh, -, rfl⟩ |
    ⟨u, rest, v, s, stack, unknown, -, rfl⟩ := turn_cases turns
  all_goals rw [stack] at nodes reached
  all_goals simp only [stack] at waits
  · -- dropped
    refine ⟨keeps, fun t ht => nodes t (List.mem_cons_of_mem _ ht),
      fun t ht => reached t (List.mem_cons_of_mem _ ht), fun t ht met unknown => ?_⟩
    have other : t ≠ u := fun same => by
      rw [same] at unknown
      exact Bool.false_ne_true (unknown.symm.trans found)
    exact (waits t ht met unknown).pop other (.refl _) found
  · -- entered
    have top := nodes u List.mem_cons_self
    refine ⟨keeps, fun t ht => ?_, fun t ht => ?_, fun t ht met unknown' => ?_⟩
    · obtain child | ht := List.mem_append.mp ht
      · exact identified.children u top t (List.mem_reverse.mp child)
      · exact nodes t ht
    · obtain child | ht := List.mem_append.mp ht
      · have path : Reached known root u :=
          (reached u List.mem_cons_self).resolve_left (by simp [standing.keeps.unknown unknown])
        cases found : known.contains t with
        | true => exact .inl rfl
        | false => exact .inr (path.child (List.mem_reverse.mp child) found)
      · exact reached t ht
    · by_cases same : u.id = t.id
      · rw [identified.eq u t top ht same]
        exact waits_enter _ t rest
      · have before : l.entered.contains t = true := by
          simpa [Std.HashSet.contains_insert, Term.beq_iff, same] using met
        exact (waits t ht before unknown').push fun eq => same (congrArg Term.id eq.symm)
  · -- settled
    refine ⟨keeps, fun t ht => nodes t (List.mem_cons_of_mem _ ht),
      fun t ht => reached t (List.mem_cons_of_mem _ ht), fun t ht met unknown' => ?_⟩
    rw [Std.HashMap.contains_insert, Bool.or_eq_false_iff] at unknown'
    have other : t ≠ u := fun same => by
      rw [same] at unknown'
      simp at unknown'
    exact (waits t ht met unknown'.2).pop other (keeps_insert unknown v) (by simp)

/-- The children of the node that is asked about are known. -/
theorem Standing.prepared (standing : Standing P known root l) (identified : Term.Identified P)
    (asks : l.asked = some t) : ∀ c ∈ t.children, l.cache.contains c = true := by
  obtain ⟨rest, stack, unknown, met⟩ := asked_eq_some_iff.mp asks
  have ht := standing.nodes t (stack ▸ List.mem_cons_self)
  have waits := standing.waits t ht met unknown
  rw [stack] at waits
  exact waits.ready (identified.acyclic ht)

theorem Standing.asked_reached (standing : Standing P known root l) (asks : l.asked = some t) :
    Reached known root t := by
  obtain ⟨rest, stack, unknown, -⟩ := asked_eq_some_iff.mp asks
  exact (standing.reached t (stack ▸ List.mem_cons_self)).resolve_left
    (by simp [standing.keeps.unknown unknown])

end Waiting

section Calls

variable {l l' : Loop σ} {out : Ending × TermMap × σ} {course : List (Loop σ)}

/-- The loop of the rewriter that keeps a record of its calls. -/
def recording (calls : List Call) (l : Loop σ) : Loop (σ × List Call) :=
  { l with state := (l.state, calls) }

theorem settle_asks (r : Rewriter σ) (t : Term) (news : List Term) (s : σ) (calls : List Call) :
    ∃ more, more.filterMap Call.asked? = [t] ∧ r.traced.settle t news (s, calls) =
      ((r.settle t news s).1, (r.settle t news s).2, calls ++ more) := by
  unfold settle
  simp only [traced]
  cases r.visit t news s with
  | error e s' => exact ⟨[.visit t news], rfl, rfl⟩
  | ok step s' =>
    cases step with
    | abort | keep | replace u => exact ⟨[.visit t news], rfl, rfl⟩
    | resume =>
      dsimp only
      split
      · exact ⟨[.visit t news], rfl, rfl⟩
      · refine ⟨[.visit t news, .rebuild t.op news], rfl, ?_⟩
        cases r.rebuild t.op news s' <;> simp [List.append_assoc]

/-- In a turn the rewriter is asked about the node that is met again, once, and about no other. -/
theorem turn_asks (prepared : ∀ t, l.asked = some t → ∀ c ∈ t.children, l.cache.contains c = true)
    (calls : List Call) : ∃ more, more.filterMap Call.asked? = l.asked.toList ∧
      (l.recording calls).turn r.traced =
        match l.turn r with
        | .error (ending, cache, s) => .error (ending, cache, s, calls ++ more)
        | .ok l' => .ok (l'.recording (calls ++ more)) := by
  obtain ⟨entered, cache, s, stack⟩ := l
  cases stack with
  | nil => exact ⟨[], rfl, by simp [turn, recording]⟩
  | cons t rest =>
    have recorded : recording calls ⟨entered, cache, s, t :: rest⟩ =
      ⟨entered, cache, (s, calls), t :: rest⟩ := rfl
    rw [recorded]
    simp only [turn]
    by_cases known : cache.contains t = true
    · refine ⟨[], by simp [asked, known], ?_⟩
      rw [if_pos known, if_pos known]
      simp [recording]
    · rw [if_neg known, if_neg known]
      by_cases met : entered.contains t = true
      · have asks : asked ⟨entered, cache, s, t :: rest⟩ = some t :=
          asked_eq_some_iff.mpr ⟨rest, rfl, by simpa using known, met⟩
        obtain ⟨more, only, settled⟩ :=
          settle_asks r t (t.children.map fun c => cache.getD c c) s calls
        refine ⟨more, by rw [asks]; exact only, ?_⟩
        rw [if_pos met, if_pos met, resolved_of_known (prepared t asks)]
        dsimp only
        rw [settled]
        obtain ⟨result, s'⟩ := r.settle t (t.children.map fun c => cache.getD c c) s
        cases result <;> rfl
      · refine ⟨[], by simp [asked, met], ?_⟩
        rw [if_neg met, if_neg met]
        simp [recording]

theorem Course.asks (goes : Course r l course out)
    (prepared : ∀ l' ∈ course, ∀ t, l'.asked = some t → ∀ c ∈ t.children,
      l'.cache.contains c = true)
    (calls : List Call) : ∃ more, more.filterMap Call.asked? = course.filterMap asked ∧
      r.traced.walk l.entered l.cache (l.state, calls) l.stack =
        (out.1, out.2.1, out.2.2, calls ++ more) := by
  induction goes generalizing calls with
  | @ends l out last =>
    obtain ⟨more, only, turned⟩ := turn_asks (r := r) (prepared l List.mem_cons_self) calls
    refine ⟨more, ?_, ?_⟩
    · rw [only]
      cases h : l.asked <;> simp [h]
    · have walked := walk_eq_turn r.traced (l.recording calls)
      rw [turned, last] at walked
      exact walked
  | @goes l l' course out turns rest ih =>
    obtain ⟨more, only, turned⟩ := turn_asks (r := r) (prepared l List.mem_cons_self) calls
    obtain ⟨more', only', walked'⟩ :=
      ih (fun l' hl' => prepared l' (List.mem_cons_of_mem _ hl')) (calls ++ more)
    refine ⟨more ++ more', ?_, ?_⟩
    · rw [List.filterMap_append, only, only']
      cases h : l.asked <;> simp [h]
    · have walked := walk_eq_turn r.traced (l.recording calls)
      rw [turned, turns] at walked
      rw [← List.append_assoc]
      exact walked.trans walked'

end Calls

/-- What is true of a walk from a root: about which nodes, and when, the rewriter is asked, and what
stays known. -/
structure Orderly (known : TermMap) (root : Term) (course : List (Loop σ)) : Prop where
  once : (course.filterMap asked).Pairwise fun a b => a.id ≠ b.id
  reached : ∀ t ∈ course.filterMap asked, Reached known root t
  prepared : ∀ l ∈ course, ∀ t, l.asked = some t → ∀ c ∈ t.children, l.cache.contains c = true
  keeps : ∀ l ∈ course, Keeps known l.cache

theorem orderly_nil {known : TermMap} {root : Term} : Orderly (σ := σ) known root [] where
  once := .nil
  reached _ none := absurd none List.not_mem_nil
  prepared _ none := absurd none List.not_mem_nil
  keeps _ none := absurd none List.not_mem_nil

section Walks

variable {P : Term → Prop} {known : TermMap} {root : Term} {s : σ} {out : Ending × TermMap × σ}
  {course : List (Loop σ)}

theorem Course.orderly (goes : Course r ⟨{}, known, s, [root]⟩ course out)
    (identified : Term.Identified P) (node : P root) : Orderly known root course := by
  have standing :=
    goes.forall_mem (fun _ _ standing turns => Standing.turn standing identified turns)
      (standing_start known node s)
  refine ⟨goes.once, fun t ht => ?_, fun l hl t asks => (standing l hl).prepared identified asks,
    fun l hl => (standing l hl).keeps⟩
  obtain ⟨l, hl, asks⟩ := List.mem_filterMap.mp ht
  exact (standing l hl).asked_reached asks

/-- A walk that is completed has asked about all nodes that are reached. -/
theorem Course.complete (goes : Course r ⟨{}, known, s, [root]⟩ course out)
    (identified : Term.Identified P) (node : P root) (completed : out.1 = .completed) {t : Term}
    (reached : Reached known root t) : t ∈ course.filterMap asked := by
  have orderly := goes.orderly identified node
  have asked_of_known : ∀ t, Reached known root t → out.2.1.contains t = true →
      t ∈ course.filterMap asked := by
    intro t reached found
    obtain before | ⟨u, hu, same⟩ := goes.known_or_asked found
    · exact absurd (reached.unknown.symm.trans before) Bool.false_ne_true
    · have eq := identified.eq u t (identified.below node (orderly.reached u hu).occursIn)
        (identified.below node reached.occursIn) same
      exact eq ▸ hu
  induction reached with
  | root unknown =>
    exact asked_of_known root (.root unknown) (goes.knows_stack completed root List.mem_cons_self)
  | child upper child unknown ih =>
    obtain ⟨l, hl, asks⟩ := List.mem_filterMap.mp ih
    exact asked_of_known _ (.child upper child unknown)
      ((goes.mem_keeps l hl).contains (orderly.prepared l hl _ asks _ child))

end Walks

end Loop

end Rewriter

namespace Walker

open Rewriter Loop

variable {σ : Type}

/-- What is known when a walk starts. -/
def initial (w : Walker) : TermMap := if w.clears then {} else w.cache

/-- A walk as it starts. -/
def begin (w : Walker) (root : Term) (s : σ) : Loop σ := ⟨{}, w.initial, s, [root]⟩

theorem keeps_initial (w : Walker) : Keeps w.initial w.cache := by
  intro a u found
  unfold initial at found
  split at found
  · simp at found
  · exact found

theorem visit_cache (r : Rewriter σ) (root : Term) (w : Walker) {s : σ}
    (iterable : r.iterable s = true) :
    (Action.finalState (visit r root) (w, s)).1.cache = (r.walk {} w.initial s [root]).2.1 := by
  rw [Action.finalState, visit_iterable r root w iterable, initial]
  obtain ⟨ending, cache, s'⟩ := r.walk {} (if w.clears then {} else w.cache) s [root]
  cases ending with
  | failed e | stopped => rfl
  | completed =>
    dsimp only
    cases cache[root]? <;> rfl

theorem visit_completed (r : Rewriter σ) (root : Term) (w : Walker) {s : σ}
    (iterable : r.iterable s = true) {u : Term} {w' : Walker} {s' : σ}
    (done : visit r root (w, s) = .ok u (w', s')) (whole : w'.aborted = false) :
    (r.walk {} w.initial s [root]).1 = .completed ∧ w'.cache[root]? = some u ∧
    w'.clears = w.clears := by
  rw [visit_iterable r root w iterable, ← initial] at done
  generalize r.walk {} w.initial s [root] = ended at done ⊢
  obtain ⟨ending, cache, s''⟩ := ended
  cases ending with
  | failed e => cases done
  | stopped => cases done; cases whole
  | completed =>
    dsimp only at done
    split at done
    · rename_i found
      cases done
      exact ⟨rfl, found, rfl⟩
    · cases done

theorem visit_known (r : Rewriter σ) {root u : Term} {w : Walker} {s : σ}
    (iterable : r.iterable s = true)
    (keeps : w.clears = false) (whole : w.aborted = false) (found : w.cache[root]? = some u) :
    visit r root (w, s) = .ok u (w, s) := by
  obtain ⟨cache, clears, aborted⟩ := w
  cases keeps
  cases whole
  have known : cache.contains root = true := by
    rw [Std.HashMap.contains_eq_isSome_getElem?, found]
    rfl
  rw [visit_iterable r root _ iterable, if_neg Bool.false_ne_true, walk_known r known, walk]
  dsimp only
  rw [found]

/-- A visit ends, after at most two turns for each place of the tree and one more. The rewriter is
asked at most once about each node, only about nodes that are reached from the root by a path on
which nothing was known at the start, and only when the children of the node are known; what was
known at the start is known likewise all along. If the visit is neither stopped nor fails, it has
asked about every node that is reached, and to visit the root again with the cache that is kept is
no work for any rewriter and gives the same term. Where terms do not show their children, the visit
is refused before its first turn. -/
theorem visit_asks_once {P : Term → Prop} (identified : Term.Identified P)
    (r : Rewriter σ) (root : Term) (node : P root) (w : Walker) (s : σ) :
    ∃ course : List (Loop σ),
      (r.iterable s = true → Course r (w.begin root s) course (r.walk {} w.initial s [root])) ∧
      course.length ≤ 2 * root.size + 1 ∧
      (∃ calls, visit r.traced root (w, s, []) = recorded calls (visit r root (w, s)) ∧
        calls.filterMap Call.asked? = course.filterMap asked) ∧
      Orderly w.initial root course ∧
      Keeps w.initial ((visit r root).finalState (w, s)).1.cache ∧
      ∀ u w' s', visit r root (w, s) = .ok u (w', s') → w'.aborted = false →
        (∀ t, Reached w.initial root t → t ∈ course.filterMap asked) ∧
        (w.clears = false → ∀ (τ : Type) (again : Rewriter τ) (s'' : τ), again.iterable s'' = true →
          visit again root (w', s'') = .ok u (w', s'')) := by
  cases iterable : r.iterable s with
  | false =>
    have refused := visit_refused r root w iterable
    have refused' := visit_refused r.traced root w (s := (s, [])) iterable
    refine ⟨[], fun shown => absurd shown Bool.false_ne_true, Nat.zero_le _,
      ⟨[], by rw [refused, refused', recorded], rfl⟩, orderly_nil, ?_, ?_⟩
    · rw [Action.finalState_error refused]
      exact keeps_initial w
    · intro u w' s' done
      cases refused.symm.trans done
  | true =>
    obtain ⟨course, goes, short⟩ := exists_course r (w.begin root s)
    have orderly := goes.orderly identified node
    refine ⟨course, fun _ => goes, Nat.le_trans short ?_, ?_, orderly, ?_, ?_⟩
    · have light : weights {} [root] ≤ 2 * Term.sizes [root] := weights_le_sizes {} [root]
      simp only [Term.sizes, Nat.add_zero] at light
      exact Nat.add_le_add_right light 1
    · obtain ⟨calls, only, walked⟩ := goes.asks orderly.prepared []
      exact ⟨calls, visit_recorded r root w iterable rfl walked, only⟩
    · rw [visit_cache r root w iterable]
      exact goes.keeps
    · intro u w' s' done whole
      obtain ⟨completed, found, clears⟩ := visit_completed r root w iterable done whole
      exact ⟨fun t reached => goes.complete identified node completed reached,
        fun keeps τ again s'' iterable' =>
          visit_known again iterable' (clears.trans keeps) whole found⟩

/-- A conjunction in which a negation and the symbol below it occur more than once. -/
theorem visit_asks_once_shared :
    let x : Term := ⟨1, 1, .null, .bool, .symbol "x", []⟩
    let y : Term := ⟨2, 1, .null, .bool, .symbol "y", []⟩
    let n : Term := ⟨3, 1, PrimOp.not, .bool, .application, [x]⟩
    let root : Term := ⟨4, 1, PrimOp.and, .bool, .application, [n, x, n]⟩
    let r : Rewriter Nat :=
      { iterable := fun _ => true
        visit := fun t _ => return if t.isSymbol then .replace y else .resume
        rebuild := fun op news s => .ok ⟨s, 1, op, .bool, .application, news⟩ (s + 1) }
    Term.Identified (· ∈ [x, n, root]) ∧ root ∈ [x, n, root] ∧
      ∃ calls, visit r.traced root ({}, 5, []) = recorded calls (visit r root ({}, 5)) ∧
        ((calls.filterMap Call.asked?).Pairwise fun a b => a.id ≠ b.id) ∧
        ∀ t ∈ calls.filterMap Call.asked?, Reached {} root t := by
  intro x y n root r
  have identified : Term.Identified (· ∈ [x, n, root]) := by
    constructor
    · intro t u ht hu same
      simp only [List.mem_cons, List.not_mem_nil, or_false] at ht hu
      obtain rfl | rfl | rfl := ht <;> obtain rfl | rfl | rfl := hu <;> first | rfl | cases same
    · intro t ht c hc
      simp only [List.mem_cons, List.not_mem_nil, or_false] at ht ⊢
      obtain rfl | rfl | rfl := ht
      · cases hc
      · exact .inl (List.mem_singleton.mp hc)
      · simp only [root, List.mem_cons, List.not_mem_nil, or_false] at hc
        obtain rfl | rfl | rfl := hc
        · exact .inr (.inl rfl)
        · exact .inl rfl
        · exact .inr (.inl rfl)
  have node : root ∈ [x, n, root] := by simp
  obtain ⟨course, -, -, ⟨calls, recorded, only⟩, orderly, -⟩ :=
    visit_asks_once identified r root node {} 5
  exact ⟨identified, node, calls, recorded, only ▸ orderly.once, only ▸ orderly.reached⟩

end Walker

end FormulaGraph
