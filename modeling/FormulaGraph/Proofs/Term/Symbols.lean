import FormulaGraph.Proofs.Term.Occurrence
import FormulaGraph.Term.Symbols

/-!
The symbols of a term: what is gathered is every node that occurs and passes the test, and each
once. The gathering tells nodes apart by their identifiers, so it needs a graph in which these do
so.

Rewriting does not look below a constant array. A node may occur below one and elsewhere too, so
there are two notions: it is exposed if it is reached without passing a constant array, and
sheltered if it is reached through one.
-/

namespace FormulaGraph.Term

/-- The first term is reached from the second without passing a value. -/
inductive Exposed (a : Term) : Term → Prop
  | here : Exposed a a
  | inChild {t c : Term} (node : t.isValue = false) (child : c ∈ t.children)
      (exposed : Exposed a c) :
    Exposed a t

/-- The first term occurs below a constant array of the second. -/
def Sheltered (a t : Term) : Prop := ∃ b : Term, b.OccursIn t ∧ b.kind = .constArray ∧ a.OccursIn b

theorem Exposed.occursIn {a t : Term} (exposed : a.Exposed t) : a.OccursIn t := by
  induction exposed with
  | here => exact .here
  | inChild _ child _ ih => exact .inChild child ih

theorem Sheltered.occursIn {a t : Term} (sheltered : a.Sheltered t) : a.OccursIn t := by
  obtain ⟨b, upper, -, lower⟩ := sheltered
  exact lower.trans upper

theorem Sheltered.inChild {a c t : Term} (child : c ∈ t.children) (sheltered : a.Sheltered c) :
    a.Sheltered t := by
  obtain ⟨b, upper, kind, lower⟩ := sheltered
  exact ⟨b, .inChild child upper, kind, lower⟩

theorem exposed_of_value {a t : Term} (value : t.isValue = true) : a.Exposed t ↔ a = t := by
  constructor
  · intro exposed
    cases exposed with
    | here => rfl
    | inChild node =>
      rw [value] at node
      cases node
  · rintro rfl
    exact .here

theorem exposed_of_node {a t : Term} (node : t.isValue = false) :
    a.Exposed t ↔ a = t ∨ ∃ c ∈ t.children, a.Exposed c := by
  constructor
  · intro exposed
    cases exposed with
    | here => exact .inl rfl
    | inChild _ child exposed => exact .inr ⟨_, child, exposed⟩
  · rintro (rfl | ⟨c, child, exposed⟩)
    · exact .here
    · exact .inChild node child exposed

theorem sheltered_of_node {a t : Term} (node : t.isValue = false) :
    a.Sheltered t ↔ ∃ c ∈ t.children, a.Sheltered c := by
  constructor
  · rintro ⟨b, upper, kind, lower⟩
    obtain rfl | ⟨c, child, upper⟩ := occursIn_iff.mp upper
    · rw [isValue, kind] at node
      cases node
    · exact ⟨c, child, b, upper, kind, lower⟩
  · rintro ⟨c, child, sheltered⟩
    exact sheltered.inChild child

/-- A set of terms with all their nodes, in which identifiers tell terms apart. -/
structure Identified (P : Term → Prop) : Prop where
  eq : ∀ t u : Term, P t → P u → t.id = u.id → t = u
  children : ∀ t : Term, P t → ∀ c ∈ t.children, P c

variable {P : Term → Prop} {keep : Term → Bool} {a t x : Term}

theorem Identified.below (identified : Identified P) (ht : P t) (occurs : a.OccursIn t) : P a := by
  induction occurs with
  | here => exact ht
  | inChild child _ ih => exact ih (identified.children _ ht _ child)

/-- A node does not occur below itself, so no node below it has its identifier. -/
theorem Identified.acyclic (identified : Identified P) (ht : P t) : t.Acyclic := by
  intro a ha c hc b hb same
  have node := identified.below ht ha
  have eq := identified.eq b a (identified.below node (.inChild hc hb)) node same
  have lower := hb.size_le
  have upper := size_le_sizes hc
  have := a.size_eq
  rw [eq] at lower
  omega

/-- What a gathering has done so far: the nodes that it found are those that it has seen and that
pass the test, and what is below a node that it has seen, it has seen as well or has still on its
stack. -/
structure Gathered (P : Term → Prop) (keep : Term → Bool) (seen : Std.HashSet Term)
    (found stack : List Term) : Prop where
  stacked : ∀ t ∈ stack, P t
  listed : ∀ x, x ∈ found ↔ (P x ∧ seen.contains x = true) ∧ keep x = true
  single : found.Nodup
  below : ∀ t, P t → seen.contains t = true → ∀ c ∈ t.children, seen.contains c = true ∨ c ∈ stack

namespace Gathered

variable {seen : Std.HashSet Term} {found rest : List Term}

theorem occurs (gathered : Gathered P keep seen found rest) (identified : Identified P)
    (ht : P t) (known : seen.contains t = true) (occurs : x.OccursIn t) :
    (P x ∧ seen.contains x = true) ∨ ∃ r ∈ rest, x.OccursIn r := by
  induction occurs with
  | here => exact .inl ⟨ht, known⟩
  | @inChild t c child below ih =>
    cases gathered.below t ht known c child with
    | inl known => exact ih (identified.children t ht c child) known
    | inr waiting => exact .inr ⟨c, waiting, below⟩

theorem skip (gathered : Gathered P keep seen found (t :: rest)) (known : seen.contains t = true) :
    Gathered P keep seen found rest := by
  refine ⟨fun u hu => gathered.stacked u (List.mem_cons_of_mem _ hu), gathered.listed,
    gathered.single, ?_⟩
  intro u hu seen' c hc
  cases gathered.below u hu seen' c hc with
  | inl seen' => exact .inl seen'
  | inr waiting =>
    obtain rfl | waiting := List.mem_cons.mp waiting
    · exact .inl known
    · exact .inr waiting

theorem contains_insert (identified : Identified P) (ht : P t) (hx : P x) :
    (seen.insert t).contains x = true ↔ x = t ∨ seen.contains x = true := by
  rw [Std.HashSet.contains_insert, Bool.or_eq_true, beq_iff]
  refine or_congr_left ⟨fun same => identified.eq x t hx ht same.symm, ?_⟩
  rintro rfl
  rfl

theorem enter (gathered : Gathered P keep seen found (t :: rest)) (identified : Identified P)
    (fresh : ¬ seen.contains t = true) :
    Gathered P keep (seen.insert t) (if keep t then t :: found else found)
      (t.children ++ rest) := by
  have ht := gathered.stacked t List.mem_cons_self
  have unseen : t ∉ found := fun member => fresh ((gathered.listed t).mp member).1.2
  refine ⟨?_, ?_, ?_, ?_⟩
  · intro u hu
    cases List.mem_append.mp hu with
    | inl child => exact identified.children t ht u child
    | inr waiting => exact gathered.stacked u (List.mem_cons_of_mem _ waiting)
  · intro x
    have member : x ∈ (if keep t then t :: found else found) ↔
        (x = t ∧ keep t = true) ∨ x ∈ found := by
      split <;> simp_all
    rw [member, gathered.listed]
    constructor
    · rintro (⟨rfl, passes⟩ | ⟨⟨hx, known⟩, passes⟩)
      · exact ⟨⟨ht, (contains_insert identified ht ht).mpr (.inl rfl)⟩, passes⟩
      · exact ⟨⟨hx, (contains_insert identified ht hx).mpr (.inr known)⟩, passes⟩
    · rintro ⟨⟨hx, known⟩, passes⟩
      obtain rfl | known := (contains_insert identified ht hx).mp known
      · exact .inl ⟨rfl, passes⟩
      · exact .inr ⟨⟨hx, known⟩, passes⟩
  · split
    · exact List.nodup_cons.mpr ⟨unseen, gathered.single⟩
    · exact gathered.single
  · intro u hu known c hc
    have child := identified.children u hu c hc
    obtain rfl | known := (contains_insert identified ht hu).mp known
    · exact .inr (List.mem_append_left _ hc)
    · cases gathered.below u hu known c hc with
      | inl known => exact .inl ((contains_insert identified ht child).mpr (.inr known))
      | inr waiting =>
        obtain rfl | waiting := List.mem_cons.mp waiting
        · exact .inl ((contains_insert identified ht child).mpr (.inl rfl))
        · exact .inr (List.mem_append_right _ waiting)

end Gathered

theorem gather_spec (identified : Identified P) (seen : Std.HashSet Term) (found stack : List Term)
    (gathered : Gathered P keep seen found stack) :
    (gather keep seen found stack).Nodup ∧ ∀ x, x ∈ gather keep seen found stack ↔
      ((P x ∧ seen.contains x = true) ∨ ∃ t ∈ stack, x.OccursIn t) ∧ keep x = true := by
  induction seen, found, stack using gather.induct keep with
  | case1 seen found =>
    rw [gather]
    refine ⟨(List.reverse_perm found).nodup_iff.mpr gathered.single, fun x => ?_⟩
    rw [List.mem_reverse, gathered.listed]
    simp
  | case2 seen found t rest known ih =>
    have ht := gathered.stacked t List.mem_cons_self
    have skipped := gathered.skip known
    obtain ⟨single, spec⟩ := ih skipped
    rw [gather, if_pos known]
    refine ⟨single, fun x => ?_⟩
    rw [spec]
    refine and_congr_left fun _ => ⟨?_, ?_⟩
    · rintro (seen' | ⟨r, hr, below⟩)
      · exact .inl seen'
      · exact .inr ⟨r, List.mem_cons_of_mem _ hr, below⟩
    · rintro (seen' | ⟨r, hr, below⟩)
      · exact .inl seen'
      · obtain rfl | hr := List.mem_cons.mp hr
        · exact skipped.occurs identified ht known below
        · exact .inr ⟨r, hr, below⟩
  | case3 seen found t rest fresh ih =>
    have ht := gathered.stacked t List.mem_cons_self
    have entered := gathered.enter identified fresh
    rw [dite_eq_ite] at ih
    obtain ⟨single, spec⟩ := ih entered
    rw [gather, if_neg fresh]
    refine ⟨single, fun x => ?_⟩
    rw [spec]
    refine and_congr_left fun _ => ⟨?_, ?_⟩
    · rintro (⟨hx, known⟩ | ⟨r, hr, below⟩)
      · obtain rfl | known := (Gathered.contains_insert identified ht hx).mp known
        · exact .inr ⟨x, List.mem_cons_self, .here⟩
        · exact .inl ⟨hx, known⟩
      · cases List.mem_append.mp hr with
        | inl child => exact .inr ⟨t, List.mem_cons_self, .inChild child below⟩
        | inr hr => exact .inr ⟨r, List.mem_cons_of_mem _ hr, below⟩
    · rintro (⟨hx, known⟩ | ⟨r, hr, below⟩)
      · exact .inl ⟨hx, (Gathered.contains_insert identified ht hx).mpr (.inr known)⟩
      · obtain rfl | hr := List.mem_cons.mp hr
        · obtain rfl | ⟨c, child, below⟩ := occursIn_iff.mp below
          · exact .inl ⟨ht, (Gathered.contains_insert identified ht ht).mpr (.inl rfl)⟩
          · exact .inr ⟨c, List.mem_append_left _ child, below⟩
        · exact .inr ⟨r, List.mem_append_right _ hr, below⟩

/-- The gathering, for at most so many rounds. -/
def gatherWithin (keep : Term → Bool) :
    Nat → Std.HashSet Term → List Term → List Term → Option (List Term)
  | 0, _, _, _ => none
  | _ + 1, _, found, [] => some found.reverse
  | rounds + 1, seen, found, t :: rest =>
    if seen.contains t then gatherWithin keep rounds seen found rest
    else gatherWithin keep rounds (seen.insert t) (if keep t then t :: found else found)
      (t.children ++ rest)

/-- A gathering comes to an end: what is on the stack has fewer and fewer nodes. -/
theorem gatherWithin_eq {rounds : Nat} (seen : Std.HashSet Term) (found stack : List Term)
    (enough : sizes stack < rounds) :
    gatherWithin keep rounds seen found stack = some (gather keep seen found stack) := by
  induction rounds generalizing seen found stack with
  | zero => exact absurd enough (Nat.not_lt_zero _)
  | succ rounds ih =>
    cases stack with
    | nil => rw [gatherWithin, gather]
    | cons t rest =>
      have node := t.size_eq
      rw [sizes] at enough
      rw [gatherWithin, gather]
      split
      · exact ih seen found rest (by omega)
      · exact ih _ _ _ (by rw [sizes_append]; omega)

theorem freeSymbols_spec (identified : Identified P) (ht : P t) :
    t.freeSymbols.Nodup ∧ ∀ x, x ∈ t.freeSymbols ↔ x.OccursIn t ∧ x.isSymbol = true := by
  have start : Gathered P isSymbol {} [] [t] :=
    ⟨fun u hu => List.mem_singleton.mp hu ▸ ht,
      fun x => by simp, List.nodup_nil, fun u _ known => by
      simp at known⟩
  obtain ⟨single, spec⟩ := gather_spec identified {} [] [t] start
  exact ⟨single, fun x => by rw [freeSymbols, spec]; simp⟩

end FormulaGraph.Term
