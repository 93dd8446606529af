import FormulaGraph.Proofs.Enumeration.Decoding
import FormulaGraph.Proofs.Enumeration.Search
import FormulaGraph.Proofs.Enumeration.Symbols

/-!
The search is right and complete. Its counter reaches every combination of elements for the symbols
of the query, so if none of the assignments that it tries is a model, there is no model at all. It
comes to an end if the symbols take few enough bits and the formulas have truth values.
-/

namespace FormulaGraph

variable {store : NodeStore} {slots : List Slot} {formulas : List Handle} {env : Assignment}
  {token : CancelToken} {limit counter offset : Nat}

theorem NodeStore.eval_symbol {t : Handle} {name : String} {sort : LogicSort} {bits : Nat}
    (admits : store.Admits env) (found : store.find? t = some (.symbol name, sort))
    (counted : sort.searchBits = .ok bits) (narrow : bits ≤ 128) :
    ∃ x, store.eval env t = .ok x ∧ sort.Holds x := by
  rw [eval_of_find? found, evalNode]
  cases given : env t with
  | some x =>
    obtain ⟨node, sort', found', holds⟩ := admits t x given
    cases found.symm.trans found'
    exact ⟨x, rfl, holds⟩
  | none =>
    obtain ⟨x, decoded⟩ := sort.exists_decode_eq counted narrow 0
    exact ⟨x, decoded, sort.holds_decode decoded⟩

namespace Slot

theorem layout_cons {t : Handle} {ts : List Handle}
    (h : layout store offset (t :: ts) = .ok slots) :
    ∃ node sort bits rest, store.find? t = some (node, sort) ∧ sort.searchBits = .ok bits ∧
      layout store (offset + bits) ts = .ok rest ∧ slots = ⟨t, sort, offset, bits⟩ :: rest := by
  rw [layout] at h
  obtain ⟨⟨node, sort⟩, found, h⟩ := ok_of_bind h
  obtain ⟨bits, counted, h⟩ := ok_of_bind h
  obtain ⟨rest, laid, h⟩ := ok_of_bind h
  cases h
  exact ⟨node, sort, bits, rest, NodeStore.find_ok found, counted, laid, rfl⟩

theorem symbols_of_layout {ts : List Handle} (h : layout store offset ts = .ok slots) :
    slots.map symbol = ts ∧ ∀ slot ∈ slots, slot.sort.searchBits = .ok slot.bits := by
  induction ts generalizing offset slots with
  | nil =>
    cases h
    exact ⟨rfl, fun slot hs => absurd hs List.not_mem_nil⟩
  | cons t ts ih =>
    obtain ⟨node, sort, bits, rest, -, counted, laid, rfl⟩ := layout_cons h
    obtain ⟨symbols, each⟩ := ih laid
    refine ⟨by rw [List.map_cons, symbols], fun slot hs => ?_⟩
    cases List.mem_cons.mp hs with
    | inl same => exact same ▸ counted
    | inr hs => exact each slot hs

/-- Slots do not overlap: whatever is asked of the share of each of them, if some number of its bits
meets it, then one counter meets all of it. What lies below the offset does not matter. -/
theorem exists_counter {α : Type} {ts : List Handle} {as : List α} {Meets : Slot → α → Nat → Prop}
    (h : layout store offset ts = .ok slots)
    (each : List.Forall₂ (fun slot a => ∃ d < 2 ^ slot.bits, Meets slot a d) slots as) :
    ∃ n < 2 ^ total slots, ∀ m < 2 ^ offset,
      List.Forall₂ (fun slot a => Meets slot a (slot.share (m + 2 ^ offset * n))) slots as := by
  induction ts generalizing offset slots as with
  | nil =>
    cases h
    cases each
    exact ⟨0, by simp [total], fun _ _ => .nil⟩
  | cons t ts ih =>
    obtain ⟨node, sort, bits, rest, -, -, laid, rfl⟩ := layout_cons h
    cases each with
    | cons first each =>
      obtain ⟨d, small, meets⟩ := first
      obtain ⟨n, below, shares⟩ := ih laid each
      refine ⟨d + 2 ^ bits * n, ?_, fun m hm => .cons ?_ ?_⟩
      · rw [total, Nat.pow_add]
        exact add_mul_lt small below
      · have own : share ⟨t, sort, offset, bits⟩ (m + 2 ^ offset * (d + 2 ^ bits * n)) = d := by
          rw [share, Nat.shiftRight_eq_div_pow, Nat.one_shiftLeft,
            Nat.add_mul_div_left _ _ (Nat.two_pow_pos offset), Nat.div_eq_of_lt hm, Nat.zero_add,
            Nat.add_mul_mod_self_left, Nat.mod_eq_of_lt small]
        exact own.symm ▸ meets
      · have shifted : m + 2 ^ offset * (d + 2 ^ bits * n) =
            m + 2 ^ offset * d + 2 ^ (offset + bits) * n := by
          rw [Nat.pow_add, Nat.mul_add, Nat.add_assoc, Nat.mul_assoc]
        rw [shifted]
        refine shares _ ?_
        rw [Nat.pow_add]
        exact add_mul_lt hm small

/-- The same, for what is asked of each slot by itself. -/
theorem exists_counter_of_forall {ts : List Handle} {Meets : Slot → Nat → Prop}
    (h : layout store 0 ts = .ok slots) (each : ∀ slot ∈ slots, ∃ d < 2 ^ slot.bits, Meets slot d) :
    ∃ n < 2 ^ total slots, ∀ slot ∈ slots, Meets slot (slot.share n) := by
  have paired :
      List.Forall₂ (fun slot (_ : Slot) => ∃ d < 2 ^ slot.bits, Meets slot d) slots slots :=
    List.forall₂_same.mpr each
  obtain ⟨n, below, shares⟩ := exists_counter h paired
  refine ⟨n, below, fun slot hs => ?_⟩
  simpa using List.forall₂_same.mp (shares 0 Nat.one_pos) slot hs

theorem assign_succeeds (value : Handle → Datum)
    (each : ∀ slot ∈ slots, slot.sort.decode (slot.share counter) = .ok (value slot.symbol)) :
    ∃ env, assign slots counter = .ok env ∧
      ∀ slot ∈ slots, env slot.symbol = some (value slot.symbol) := by
  have values : slots.mapM (·.value counter) =
      .ok (slots.map fun slot => (slot.symbol, value slot.symbol)) := by
    refine mapM_of_forall₂
      (List.forall₂_map_right_iff.mpr (List.forall₂_same.mpr fun slot hs => ?_))
    rw [Slot.value, each slot hs]
    rfl
  refine ⟨_, by rw [assign, values]; rfl, fun slot hs => ?_⟩
  dsimp only
  cases first : List.find? _ (slots.map fun slot => (slot.symbol, value slot.symbol)) with
  | none =>
    have absent := List.find?_eq_none.mp first _ (List.mem_map_of_mem hs)
    simp at absent
  | some pair =>
    obtain ⟨other, -, rfl⟩ := List.mem_map.mp (List.mem_of_find?_eq_some first)
    have matched : other.symbol = slot.symbol := by simpa using List.find?_some first
    show some (value other.symbol) = _
    rw [matched]

end Slot

/-- How many bits the search takes for a symbol. -/
def NodeStore.bitsOf (store : NodeStore) (t : Handle) : Nat :=
  match store.find? t with
  | some (_, sort) => sort.searchBits.toOption.getD 0
  | none => 0

namespace Slot

theorem layout_succeeds {ts : List Handle} (countable : ∀ t ∈ ts, ∃ node sort bits,
      store.find? t = some (node, sort) ∧ sort.searchBits = .ok bits) (offset : Nat) :
    ∃ slots, layout store offset ts = .ok slots ∧ total slots = (ts.map store.bitsOf).sum := by
  induction ts generalizing offset with
  | nil => exact ⟨[], rfl, rfl⟩
  | cons t ts ih =>
    obtain ⟨⟨node, sort, bits, found, counted⟩, countable⟩ := List.forall_mem_cons.mp countable
    obtain ⟨slots, laid, same⟩ := ih countable (offset + bits)
    refine ⟨⟨t, sort, offset, bits⟩ :: slots, ?_, ?_⟩
    · have looked : store.find t = .ok (node, sort) := by rw [NodeStore.find, found]
      rw [layout, bind_of_ok looked]
      dsimp only
      rw [bind_of_ok counted, bind_of_ok laid]
      rfl
    · simp [total, same, NodeStore.bitsOf, found, counted, Except.toOption]

theorem bits_le_total {slot : Slot} (hs : slot ∈ slots) : slot.bits ≤ total slots := by
  induction slots with
  | nil => cases hs
  | cons first slots ih =>
    rw [total]
    cases List.mem_cons.mp hs with
    | inl same => exact same ▸ Nat.le_add_right _ _
    | inr hs => exact (ih hs).trans (Nat.le_add_left _ _)

theorem values_succeed (counted : ∀ slot ∈ slots, slot.sort.searchBits = .ok slot.bits)
    (narrow : total slots ≤ 128) (counter : Nat) :
    ∃ values, slots.mapM (·.value counter) = .ok values := by
  refine mapM_succeeds fun slot hs => ?_
  obtain ⟨x, decoded⟩ := slot.sort.exists_decode_eq (counted slot hs)
    ((bits_le_total hs).trans narrow) (slot.share counter)
  exact ⟨_, by rw [value, decoded]; rfl⟩

theorem assign_answers (counted : ∀ slot ∈ slots, slot.sort.searchBits = .ok slot.bits)
    (narrow : total slots ≤ 128) (counter : Nat) : ∃ env, assign slots counter = .ok env := by
  obtain ⟨values, assigned⟩ := values_succeed counted narrow counter
  exact ⟨_, by rw [assign, assigned]; rfl⟩

end Slot

theorem Datum.asBool_ok {x : Datum} {b : Bool} (h : x.asBool = .ok b) : x = .bool b := by
  cases x with
  | bool c =>
    cases h
    rfl
  | bitVec | array => cases h

namespace Search

theorem narrow_of_few {bits : Nat} (few : bits ≤ maxBits) : bits ≤ 128 := few.trans (by decide)

theorem within_of_few {bits : Nat} (few : bits ≤ maxBits) : within UInt64.size bits = .ok bits :=
  within_of_lt (few.trans_lt (by decide))

theorem allHold_cons {t : Handle} {ts : List Handle} {b : Bool}
    (h : allHold store env (t :: ts) = .ok b) :
    store.eval env t = .ok (.bool true) ∧ allHold store env ts = .ok b ∨
      store.eval env t = .ok (.bool false) ∧ b = false := by
  rw [allHold] at h
  obtain ⟨x, valued, h⟩ := ok_of_bind h
  obtain ⟨first, truth, h⟩ := ok_of_bind h
  obtain rfl := Datum.asBool_ok truth
  cases first with
  | true => exact .inl ⟨valued, h⟩
  | false =>
    cases h
    exact .inr ⟨valued, rfl⟩

theorem holds_of_allHold (h : allHold store env formulas = .ok true) :
    ∀ t ∈ formulas, store.eval env t = .ok (.bool true) := by
  induction formulas with
  | nil => exact fun t ht => absurd ht List.not_mem_nil
  | cons t ts ih =>
    obtain ⟨first, rest⟩ | ⟨_, other⟩ := allHold_cons h
    · exact List.forall_mem_cons.mpr ⟨first, ih rest⟩
    · cases other

theorem fails_of_allHold (h : allHold store env formulas = .ok false) :
    ∃ t ∈ formulas, store.eval env t = .ok (.bool false) := by
  induction formulas with
  | nil => cases h
  | cons t ts ih =>
    obtain ⟨_, rest⟩ | ⟨first, _⟩ := allHold_cons h
    · obtain ⟨u, hu, fails⟩ := ih rest
      exact ⟨u, List.mem_cons_of_mem _ hu, fails⟩
    · exact ⟨t, List.mem_cons_self, first⟩

/-- A search that ends without a model has tried every assignment up to the limit. -/
theorem fails_of_tryFrom (h : tryFrom store formulas slots token limit counter = .ok .noModel) :
    ∀ n, counter ≤ n → n < limit →
      ∃ env, Slot.assign slots n = .ok env ∧ allHold store env formulas = .ok false := by
  induction counter using tryFrom.induct token limit with
  | case1 counter below raised =>
    rw [tryFrom, if_pos below, if_pos raised] at h
    cases h
  | case2 counter below idle ih =>
    rw [tryFrom, if_pos below, if_neg idle] at h
    obtain ⟨env, assigned, h⟩ := ok_of_bind h
    obtain ⟨holds, tested, h⟩ := ok_of_bind h
    cases holds with
    | true => cases h
    | false =>
      intro n from_ upto
      cases Nat.eq_or_lt_of_le from_ with
      | inl same => exact ⟨env, same ▸ assigned, tested⟩
      | inr later => exact ih h n later upto
  | case3 counter done => exact fun n from_ upto => absurd (Nat.lt_of_le_of_lt from_ upto) done

/-- A search is only cut short by its token. -/
theorem idle_ne_cutShort :
    tryFrom store formulas slots .idle limit counter ≠ .ok .cutShort := by
  intro h
  induction counter using tryFrom.induct .idle limit with
  | case1 counter below raised => simp [CancelToken.idle] at raised
  | case2 counter below idle ih =>
    rw [tryFrom, if_pos below, if_neg idle] at h
    obtain ⟨env, _, h⟩ := ok_of_bind h
    obtain ⟨holds, _, h⟩ := ok_of_bind h
    cases holds with
    | true => cases h
    | false => exact ih h
  | case3 counter done =>
    rw [tryFrom, if_neg done] at h
    cases h

theorem run_ok {finding : Finding} (h : run store formulas token = .ok finding) :
    ∃ ts slots, store.symbolsOf formulas = .ok ts ∧ Slot.layout store 0 ts = .ok slots ∧
      Slot.total slots ≤ maxBits ∧
      tryFrom store formulas slots token (2 ^ Slot.total slots) 0 = .ok finding := by
  obtain ⟨ts, listed, h⟩ := ok_of_bind h
  obtain ⟨slots, laid, h⟩ := ok_of_bind h
  obtain ⟨bits, summed, h⟩ := ok_of_bind h
  obtain ⟨rfl, -⟩ := within_ok summed
  dsimp only at h
  split at h
  · cases h
  · exact ⟨ts, slots, listed, laid, Nat.not_lt.mp ‹_›, Nat.one_shiftLeft _ ▸ h⟩

theorem run_of_few {ts : List Handle} (listed : store.symbolsOf formulas = .ok ts)
    (laid : Slot.layout store 0 ts = .ok slots) (few : Slot.total slots ≤ maxBits) :
    run store formulas token =
      tryFrom store formulas slots token (2 ^ Slot.total slots) 0 := by
  rw [run, bind_of_ok listed, bind_of_ok laid, bind_of_ok (within_of_few few)]
  dsimp only
  rw [if_neg (Nat.not_lt.mpr few), Nat.one_shiftLeft]

/-- Under the model that a search finds, every formula holds. -/
theorem holds_of_run (h : run store formulas token = .ok (.model env)) :
    ∀ t ∈ formulas, store.eval env t = .ok (.bool true) := by
  obtain ⟨ts, slots, -, -, -, searched⟩ := run_ok h
  obtain ⟨n, -, tested⟩ := assign_of_tryFrom searched
  exact holds_of_allHold tested

/-- Some counter below the limit gives the symbols of the query the values that they have. -/
theorem exists_assign {ts : List Handle} (laid : Slot.layout store 0 ts = .ok slots)
    (few : Slot.total slots ≤ maxBits) (symbols : ∀ t ∈ ts, store.IsSymbol t)
    (admits : store.Admits env) :
    ∃ n < 2 ^ Slot.total slots, ∃ env', Slot.assign slots n = .ok env' ∧
      ∀ t ∈ ts, store.eval env t = store.eval env' t := by
  obtain ⟨names, counted⟩ := Slot.symbols_of_layout laid
  have narrow : ∀ slot ∈ slots, slot.bits ≤ 128 := fun slot hs =>
    narrow_of_few ((Slot.bits_le_total hs).trans few)
  have told : ∀ slot ∈ slots, ∃ x, store.eval env slot.symbol = .ok x ∧
      ∃ n < 2 ^ slot.bits, slot.sort.decode n = .ok x := by
    intro slot hs
    obtain ⟨node, found⟩ := Slot.sort_of_layout laid hs
    obtain ⟨name, sort, found'⟩ := symbols slot.symbol (names ▸ List.mem_map_of_mem hs)
    cases found.symm.trans found'
    obtain ⟨x, valued, holds⟩ :=
      NodeStore.eval_symbol admits found (counted slot hs) (narrow slot hs)
    exact ⟨x, valued, LogicSort.exists_number slot.sort (counted slot hs) (narrow slot hs) holds⟩
  have valued : ∀ t ∈ ts, ∃ x, store.eval env t = .ok x := by
    rw [← names]
    exact List.forall_mem_map.mpr fun slot hs => ⟨_, (told slot hs).choose_spec.1⟩
  choose! value eval_eq using valued
  have numbered : ∀ slot ∈ slots, ∃ n < 2 ^ slot.bits,
      slot.sort.decode n = .ok (value slot.symbol) := by
    intro slot hs
    obtain ⟨x, valued, number⟩ := told slot hs
    cases valued.symm.trans (eval_eq _ (names ▸ List.mem_map_of_mem hs))
    exact number
  obtain ⟨n, below, shares⟩ := Slot.exists_counter_of_forall laid numbered
  obtain ⟨env', assigned, given⟩ := Slot.assign_succeeds value shares
  refine ⟨n, below, env', assigned, fun t ht => ?_⟩
  obtain ⟨slot, hs, rfl⟩ := List.mem_map.mp (names ▸ ht : t ∈ slots.map Slot.symbol)
  obtain ⟨name, sort, found⟩ := symbols _ ht
  rw [eval_eq _ ht, NodeStore.eval_of_find? found, NodeStore.evalNode, given slot hs]

/-- If a search ends without a model, some formula fails under any values of the symbols. -/
theorem fails_of_run (h : run store formulas token = .ok .noModel) (admits : store.Admits env) :
    ∃ t ∈ formulas, store.eval env t = .ok (.bool false) := by
  obtain ⟨ts, slots, listed, laid, few, searched⟩ := run_ok h
  obtain ⟨below, -⟩ := NodeStore.symbolsOf_ok listed
  obtain ⟨n, small, env', assigned, agree⟩ :=
    exists_assign laid few (fun t ht => ((below t).mp ht).2) admits
  obtain ⟨env'', assigned', tested⟩ := fails_of_tryFrom searched n (Nat.zero_le n) small
  cases assigned.symm.trans assigned'
  obtain ⟨t, ht, fails⟩ := fails_of_allHold tested
  refine ⟨t, ht, ?_⟩
  rw [← fails]
  exact NodeStore.eval_congr fun u hu symbol => agree u ((below u).mpr ⟨⟨t, ht, hu⟩, symbol⟩)

theorem allHold_succeeds (truth : ∀ t ∈ formulas, ∃ b, store.eval env t = .ok (.bool b)) :
    ∃ b, allHold store env formulas = .ok b := by
  induction formulas with
  | nil => exact ⟨true, rfl⟩
  | cons t ts ih =>
    obtain ⟨⟨b, first⟩, truth⟩ := List.forall_mem_cons.mp truth
    rw [allHold, first]
    cases b with
    | true => exact ih truth
    | false => exact ⟨false, rfl⟩

theorem tryFrom_succeeds (each : ∀ n, ∃ env b, Slot.assign slots n = .ok env ∧
      allHold store env formulas = .ok b) :
    ∃ finding, tryFrom store formulas slots token limit counter = .ok finding := by
  induction counter using tryFrom.induct token limit with
  | case1 counter below raised => exact ⟨.cutShort, by rw [tryFrom, if_pos below, if_pos raised]⟩
  | case2 counter below idle ih =>
    obtain ⟨env, b, assigned, tested⟩ := each counter
    rw [tryFrom, if_pos below, if_neg idle, bind_of_ok assigned, bind_of_ok tested]
    cases b with
    | true => exact ⟨.model env, rfl⟩
    | false => exact ih
  | case3 counter done => exact ⟨.noModel, by rw [tryFrom, if_neg done]⟩

theorem run_succeeds (known : ∀ t ∈ formulas, t.index < store.size)
    (countable : ∀ u name sort, (∃ t ∈ formulas, store.Below u t) →
      store.find? u = some (.symbol name, sort) → ∃ bits, sort.searchBits = .ok bits)
    (few : ∀ ts, store.symbolsOf formulas = .ok ts → (ts.map store.bitsOf).sum ≤ maxBits)
    (truth : ∀ env, store.Admits env → ∀ t ∈ formulas, ∃ b, store.eval env t = .ok (.bool b)) :
    ∃ finding, run store formulas token = .ok finding := by
  obtain ⟨ts, listed⟩ : ∃ ts, store.symbolsOf formulas = .ok ts := by
    have none : (formulas.reverse.find? fun t => store.size ≤ t.index) = none := by
      simpa using known
    exact ⟨_, by rw [NodeStore.symbolsOf, none]⟩
  have counted : ∀ t ∈ ts, ∃ node sort bits,
      store.find? t = some (node, sort) ∧ sort.searchBits = .ok bits := by
    intro t ht
    obtain ⟨below, name, sort, found⟩ := ((NodeStore.symbolsOf_ok listed).1 t).mp ht
    obtain ⟨bits, counted⟩ := countable t name sort below found
    exact ⟨_, sort, bits, found, counted⟩
  obtain ⟨slots, laid, total⟩ := Slot.layout_succeeds counted 0
  have few : Slot.total slots ≤ maxBits := total ▸ few ts listed
  rw [run_of_few listed laid few]
  refine tryFrom_succeeds fun n => ?_
  obtain ⟨env, assigned⟩ :=
    Slot.assign_answers (Slot.symbols_of_layout laid).2 (narrow_of_few few) n
  have admits := Slot.admits_of_assign (fun slot hs => Slot.sort_of_layout laid hs) assigned
  obtain ⟨b, tested⟩ := allHold_succeeds (truth env admits)
  exact ⟨env, b, assigned, tested⟩

end Search

end FormulaGraph
