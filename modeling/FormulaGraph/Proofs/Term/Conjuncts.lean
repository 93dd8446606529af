import FormulaGraph.Proofs.Term.Symbols
import FormulaGraph.Term.Conjuncts
import Mathlib.Logic.Basic

/-!
The conjuncts of a term are the leaves of its tree of nested conjunctions, from left to right and
each at the first of its places. Splitting opens a shared conjunction once only. Where it meets the
node again it passes it by, and misses nothing: all the leaves below the node have been found by
then, since what is on the stack above the place is worked off first.
-/

namespace FormulaGraph.Term

/-- The node conjoins its children: as truth values or, if that is asked for, as vectors of one
bit. -/
def Conjoins (bitwise : Bool) (t : Term) : Prop :=
  t.op.prim = .and ∨ bitwise = true ∧ t.op.prim = .bvAnd ∧ t.sort = .bitVec 1

instance (bitwise : Bool) (t : Term) : Decidable (t.Conjoins bitwise) :=
  inferInstanceAs (Decidable (_ ∨ _))

mutual
/-- The leaves of the tree of nested conjunctions, from left to right. A leaf is listed at each of
its places. -/
def leaves (bitwise : Bool) : Term → List Term
  | ⟨id, session, op, sort, kind, children⟩ =>
    if Conjoins bitwise ⟨id, session, op, sort, kind, children⟩ then leavesAll bitwise children
    else [⟨id, session, op, sort, kind, children⟩]
def leavesAll (bitwise : Bool) : List Term → List Term
  | [] => []
  | t :: ts => t.leaves bitwise ++ leavesAll bitwise ts
end

variable {P : Term → Prop} {bitwise : Bool} {t x : Term}

theorem leavesAll_eq_flatMap (ts : List Term) :
    leavesAll bitwise ts = ts.flatMap (leaves bitwise) := by
  induction ts with
  | nil => rfl
  | cons t ts ih => rw [leavesAll, ih, List.flatMap_cons]

theorem leaves_of_conjoins (conjoins : t.Conjoins bitwise) :
    t.leaves bitwise = t.children.flatMap (leaves bitwise) := by
  cases t
  rw [leaves, if_pos conjoins, leavesAll_eq_flatMap]

theorem leaves_of_not_conjoins (other : ¬ t.Conjoins bitwise) : t.leaves bitwise = [t] := by
  cases t
  rw [leaves, if_neg other]

theorem isConjunction_iff : t.isConjunction bitwise = true ↔ t.Conjoins bitwise := by
  unfold isConjunction Conjoins
  split <;> simp_all

theorem occursIn_of_mem_leaves (member : x ∈ t.leaves bitwise) : x.OccursIn t := by
  induction t with
  | node t ih =>
    by_cases conjoins : t.Conjoins bitwise
    · rw [leaves_of_conjoins conjoins] at member
      obtain ⟨c, child, member⟩ := List.mem_flatMap.mp member
      exact .inChild child (ih c child member)
    · rw [leaves_of_not_conjoins conjoins] at member
      exact List.mem_singleton.mp member ▸ .here

/-- What the node waits for: all its leaves that are not found yet are leaves of what lies on top of
the stack, and that occurs below the node. -/
def Due (bitwise : Bool) (found stack : List Term) (x : Term) : Prop :=
  ∃ above rest, stack = above ++ rest ∧ (∀ y ∈ above, ∃ c ∈ x.children, y.OccursIn c) ∧
    ∀ l ∈ x.leaves bitwise, l ∈ found ∨ l ∈ above.flatMap (leaves bitwise)

/-- The node on top of the stack gives way to nodes that occur in it, and its leaves stay accounted
for. -/
theorem Due.advance {found found' above rest : List Term} (due : Due bitwise found (t :: rest) x)
    (within : ∀ y ∈ above, y.OccursIn t) (grows : found ⊆ found')
    (accounts : ∀ l ∈ t.leaves bitwise, l ∈ found' ∨ l ∈ above.flatMap (leaves bitwise)) :
    Due bitwise found' (above ++ rest) x := by
  obtain ⟨upper, lower, stack, below, listed⟩ := due
  cases upper with
  | nil =>
    refine ⟨[], above ++ rest, rfl, below, fun l hl => ?_⟩
    exact (listed l hl).imp_left fun member => grows member
  | cons y upper =>
    obtain ⟨rfl, rfl⟩ := List.cons.inj stack
    refine ⟨above ++ upper, lower, (List.append_assoc ..).symm, fun y hy => ?_, fun l hl => ?_⟩
    · cases List.mem_append.mp hy with
      | inl hy =>
        obtain ⟨c, child, occurs⟩ := below t List.mem_cons_self
        exact ⟨c, child, (within y hy).trans occurs⟩
      | inr hy => exact below y (List.mem_cons_of_mem _ hy)
    · rw [List.flatMap_append, List.mem_append]
      cases listed l hl with
      | inl member => exact .inl (grows member)
      | inr member =>
        rw [List.flatMap_cons, List.mem_append] at member
        obtain member | member := member
        · exact (accounts l member).imp_right .inl
        · exact .inr (.inr member)

/-- What splitting has done so far: only nodes that it has seen are found, and each node that it has
seen waits for nothing but the top of the stack. -/
structure Parted (P : Term → Prop) (bitwise : Bool) (seen : Std.HashSet Term)
    (found stack : List Term) : Prop where
  stacked : ∀ t ∈ stack, P t
  listed : ∀ x ∈ found, seen.contains x = true
  due : ∀ x, P x → seen.contains x = true → Due bitwise found stack x

namespace Parted

variable {seen : Std.HashSet Term} {found rest : List Term}

/-- When a node is met again all its leaves have been found: it does not occur below itself, so
nothing that it waits for is left on the stack. -/
theorem found_of_seen (parted : Parted P bitwise seen found (t :: rest)) (identified : Identified P)
    (known : seen.contains t = true) : ∀ l ∈ t.leaves bitwise, l ∈ found := by
  have ht := parted.stacked t List.mem_cons_self
  obtain ⟨above, lower, stack, below, listed⟩ := parted.due t ht known
  cases above with
  | nil => simpa using listed
  | cons y above =>
    obtain ⟨rfl, -⟩ := List.cons.inj stack
    obtain ⟨c, child, occurs⟩ := below t List.mem_cons_self
    exact absurd rfl (identified.acyclic ht t .here c child t occurs)

theorem nothing_new (parted : Parted P bitwise seen found (t :: rest)) (identified : Identified P)
    (known : seen.contains t = true) :
    ((t.leaves bitwise).filter fun l => !found.contains l) = [] := by
  refine List.filter_eq_nil_iff.mpr fun l hl => ?_
  have member := parted.found_of_seen identified known l hl
  rw [List.contains_iff_exists_mem_beq.mpr ⟨l, member, beq_self_eq_true l⟩]
  decide

theorem unfound {stack : List Term} (parted : Parted P bitwise seen found stack)
    (fresh : ¬ seen.contains x = true) : found.contains x = false := by
  rw [Bool.eq_false_iff]
  intro contained
  obtain ⟨u, hu, same⟩ := List.contains_iff_exists_mem_beq.mp contained
  exact fresh ((Std.HashSet.contains_congr same).trans (parted.listed u hu))

theorem skip (parted : Parted P bitwise seen found (t :: rest)) (identified : Identified P)
    (known : seen.contains t = true) : Parted P bitwise seen found rest where
  stacked u hu := parted.stacked u (List.mem_cons_of_mem _ hu)
  listed := parted.listed
  due x hx known' := by
    have nothing : ∀ y ∈ ([] : List Term), y.OccursIn t := fun _ hy => absurd hy List.not_mem_nil
    exact (parted.due x hx known').advance nothing (List.Subset.refl found) fun l hl =>
      .inl (parted.found_of_seen identified known l hl)

theorem enter {found' above : List Term} (parted : Parted P bitwise seen found (t :: rest))
    (identified : Identified P) (within : ∀ y ∈ above, ∃ c ∈ t.children, y.OccursIn c)
    (grows : found ⊆ found') (only : ∀ x ∈ found', x ∈ found ∨ x = t)
    (accounts : ∀ l ∈ t.leaves bitwise, l ∈ found' ∨ l ∈ above.flatMap (leaves bitwise)) :
    Parted P bitwise (seen.insert t) found' (above ++ rest) := by
  have ht := parted.stacked t List.mem_cons_self
  have occurs : ∀ y ∈ above, y.OccursIn t := by
    intro y hy
    obtain ⟨c, child, below⟩ := within y hy
    exact .inChild child below
  refine ⟨fun u hu => ?_, fun x hx => ?_, fun x hx known => ?_⟩
  · cases List.mem_append.mp hu with
    | inl hu => exact identified.below ht (occurs u hu)
    | inr hu => exact parted.stacked u (List.mem_cons_of_mem _ hu)
  · obtain hx | rfl := only x hx
    · simp [parted.listed x hx]
    · simp
  · obtain rfl | known := (Gathered.contains_insert identified ht hx).mp known
    · exact ⟨above, rest, rfl, within, accounts⟩
    · exact (parted.due x hx known).advance occurs grows accounts

end Parted

/-- Splitting adds the leaves of what is on the stack, from the top, each once and without those
found before. -/
theorem split_eq (identified : Identified P) (seen : Std.HashSet Term)
    (found : Array Term) (stack : List Term) (parted : Parted P bitwise seen found.toList stack) :
    (split bitwise seen found stack).toList = found.toList ++
      ((stack.flatMap (leaves bitwise)).filter fun l => !found.toList.contains l).eraseDups := by
  induction seen, found, stack using split.induct bitwise with
  | case1 seen found => simp [split]
  | case2 seen found t rest known ih =>
    rw [split, if_pos known, ih (parted.skip identified known),
      List.flatMap_cons, List.filter_append, parted.nothing_new identified known, List.nil_append]
  | case3 seen found t rest fresh conjunction ih =>
    have leaves := leaves_of_conjoins (isConjunction_iff.mp conjunction)
    have entered := parted.enter identified (fun y child => ⟨y, child, .here⟩) (List.Subset.refl _)
      (fun x hx => .inl hx) fun l hl => .inr (leaves ▸ hl)
    rw [split, if_neg fresh, if_pos conjunction, ih entered, List.flatMap_append,
      List.flatMap_cons, leaves]
  | case4 seen found t rest fresh other ih =>
    have leaf := leaves_of_not_conjoins (mt isConjunction_iff.mpr other)
    have entered : Parted P bitwise (seen.insert t) (found.push t).toList ([] ++ rest) := by
      refine parted.enter identified (fun _ hy => absurd hy List.not_mem_nil) ?_ ?_ ?_
      · simp
      · simp
      · simp [leaf]
    have new : (!found.toList.contains t) = true := by
      rw [parted.unfound fresh]
      rfl
    have later :
      (rest.flatMap (leaves bitwise)).filter (fun l => !(found.push t).toList.contains l) =
        ((rest.flatMap (leaves bitwise)).filter fun l => !found.toList.contains l).filter
          (!· == t) := by
      rw [List.filter_filter]
      exact List.filter_congr fun l _ => by simp [Bool.and_comm]
    rw [split, if_neg fresh, if_neg other, ih entered, List.flatMap_cons, leaf,
      List.singleton_append,
      List.filter_cons_of_pos (p := fun l => !found.toList.contains l) new,
        List.eraseDups_cons, later, Array.toList_push, List.append_assoc, List.singleton_append]

/-- The conjuncts are the leaves of the nested conjunctions, each at the first of its places. -/
theorem conjuncts_eq (identified : Identified P) (ht : P t) (bitwise : Bool) :
    t.conjuncts bitwise = (t.leaves bitwise).eraseDups := by
  have start : Parted P bitwise {} #[].toList [t] :=
    ⟨fun u hu => List.mem_singleton.mp hu ▸ ht, by simp, by simp⟩
  rw [conjuncts, split_eq identified {} #[] [t] start, List.flatMap_singleton]
  exact congrArg List.eraseDups (List.filter_eq_self.mpr fun _ _ => rfl)

/-- The identifiers tell the nodes of the term apart. -/
def Discernible (t : Term) : Prop :=
  ∀ a b : Term, a.OccursIn t → b.OccursIn t → a.id = b.id → a = b

theorem Discernible.identified (discernible : t.Discernible) : Identified (·.OccursIn t) :=
  ⟨discernible, fun _ occurs _ child => occurs.child child⟩

theorem Identified.discernible (identified : Identified P) (ht : P t) : t.Discernible :=
  fun a b ha hb => identified.eq a b (identified.below ht ha) (identified.below ht hb)

/-- Where identifiers tell terms apart, none is lost by keeping the first of each. -/
theorem mem_eraseDups_iff {ts : List Term} (apart : ∀ a ∈ ts, ∀ b ∈ ts, a.id = b.id → a = b) :
    x ∈ ts.eraseDups ↔ x ∈ ts := by
  match ts with
  | [] => simp
  | t :: ts =>
    have apart' : ∀ a ∈ ts.filter (!· == t), ∀ b ∈ ts.filter (!· == t), a.id = b.id → a = b :=
      fun a ha b hb => apart a (List.mem_cons_of_mem _ (List.mem_filter.mp ha).1) b
        (List.mem_cons_of_mem _ (List.mem_filter.mp hb).1)
    rw [List.eraseDups_cons, List.mem_cons, List.mem_cons,
      mem_eraseDups_iff apart', List.mem_filter]
    refine or_congr_right' fun other => and_iff_left_of_imp fun hx => ?_
    rw [Bool.not_eq_true', Bool.eq_false_iff]
    exact fun same =>
      other (apart x (List.mem_cons_of_mem _ hx) t List.mem_cons_self (beq_iff.mp same))
termination_by ts.length
decreasing_by
  exact Nat.lt_succ_of_le (List.length_filter_le _ _)

theorem mem_conjuncts (discernible : t.Discernible) :
    x ∈ t.conjuncts bitwise ↔ x ∈ t.leaves bitwise := by
  rw [conjuncts_eq discernible.identified .here]
  exact mem_eraseDups_iff fun a ha b hb =>
    discernible a b (occursIn_of_mem_leaves ha) (occursIn_of_mem_leaves hb)

end FormulaGraph.Term
