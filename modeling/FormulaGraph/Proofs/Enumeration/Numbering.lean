import FormulaGraph.Proofs.Enumeration.Completeness
import FormulaGraph.Proofs.Enumeration.Words
import Mathlib.Data.List.Nodup
import Mathlib.Data.Set.Function
import Mathlib.Order.Interval.Set.Defs

/-!
The enumeration is a numbering. The numbers of as many bits as a sort needs tell its inhabitants,
each just once, and the counter of a search gives the symbols of a query every combination of values
of their sorts, each just once.
-/

namespace FormulaGraph

/-- The inhabitants of a sort: a truth value, bits below the power of two of the width, and for an
array as many cells as its index has values, each an inhabitant of the sort of the elements. -/
inductive LogicSort.Inhabits : LogicSort → Datum → Prop
  | bool (b : Bool) : Inhabits .bool (.bool b)
  | bitVec {w : UInt64} {bits : Word} (below : bits.toNat < 2 ^ w.toNat) :
      Inhabits (.bitVec w) (.bitVec w bits)
  | array {w : UInt64} {element : LogicSort} {cells : List Datum}
      (length : cells.length = 2 ^ w.toNat)
      (each : ∀ x ∈ cells, Inhabits element x) :
        Inhabits (.array (.bitVec w) element) (.array cells)

theorem masked_iff_toNat_lt (w : UInt64) (bits : Word) :
    bits &&& mask w = bits ↔ bits.toNat < 2 ^ w.toNat := by
  by_cases narrow : w ≤ 128
  · exact and_mask_eq_self_iff bits narrow
  · have wide : 128 < w.toNat := UInt64.lt_iff_toNat_lt.mp (UInt64.not_le.mp narrow)
    have below : bits.toNat < 2 ^ w.toNat :=
      bits.isLt.trans_le (Nat.pow_le_pow_right Nat.two_pos wide.le)
    exact iff_of_true (and_mask_of_le bits (UInt64.le_iff_toNat_le.mpr wide.le)) below

theorem eq_of_digits {base count m n : Nat} (hm : m < base ^ count) (hn : n < base ^ count)
    (same : ∀ i < count, m / base ^ i % base = n / base ^ i % base) : m = n := by
  induction count generalizing m n with
  | zero =>
    rw [Nat.pow_zero, Nat.lt_one_iff] at hm hn
    rw [hm, hn]
  | succ count ih =>
    rw [Nat.pow_succ'] at hm hn
    have lowest : m % base = n % base := by simpa using same 0 (Nat.succ_pos count)
    have others : m / base = n / base := by
      refine ih (Nat.div_lt_of_lt_mul hm) (Nat.div_lt_of_lt_mul hn) fun i hi => ?_
      rw [Nat.div_div_eq_div_mul, Nat.div_div_eq_div_mul, ← Nat.pow_succ']
      exact same (i + 1) (Nat.succ_lt_succ hi)
    rw [← Nat.div_add_mod m base, ← Nat.div_add_mod n base, others, lowest]

theorem eq_of_mapM {α β : Type} {f g : α → Except Error β} {as : List α} {bs : List β}
    (hf : as.mapM f = .ok bs) (hg : as.mapM g = .ok bs) : ∀ a ∈ as, f a = g a := by
  have same : List.Forall₂ (fun a a' => f a = g a') as as :=
    forall₂_join (forall₂_of_mapM hf).flip (forall₂_of_mapM hg).flip fun _ _ _ _ here there =>
      here.trans there.symm
  exact List.forall₂_same.mp same

namespace LogicSort

variable {sort : LogicSort} {bits : Nat}

theorem inhabits_of_holds (sort : LogicSort) {x : Datum} (holds : sort.Holds x) :
    sort.Inhabits x := by
  match sort with
  | .bool =>
    obtain ⟨b, rfl⟩ := Datum.eq_bool_of_holds holds
    exact .bool b
  | .bitVec w =>
    obtain ⟨bits, rfl, masked⟩ := Datum.eq_bitVec_of_holds holds
    exact .bitVec ((masked_iff_toNat_lt w bits).mp masked)
  | .array index element =>
    obtain ⟨w, cells, rfl, rfl, length, cellsHold⟩ := eq_array_of_holds holds
    exact .array (length.trans (Nat.one_shiftLeft _)) fun y hy =>
      inhabits_of_holds element (cellsHold y hy)
  | .int | .real | .function _ _ | .uninterpreted _ _ | .datatype _ | .param _ | .unresolved _ =>
    cases x <;> cases holds

theorem Inhabits.holds {x : Datum} (inhabits : sort.Inhabits x) : sort.Holds x := by
  induction inhabits with
  | bool b => exact holds_bool b
  | @bitVec w bits below => exact ⟨rfl, (masked_iff_toNat_lt w bits).mpr below⟩
  | array length _ ih => exact holds_array (length.trans (Nat.one_shiftLeft _).symm) ih

theorem decode_inj (sort : LogicSort) {bits m n : Nat} (counted : sort.searchBits = .ok bits)
    (narrow : bits ≤ 128) (hm : m < 2 ^ bits) (hn : n < 2 ^ bits)
    (same : sort.decode m = sort.decode n) :
    m = n := by
  match sort with
  | .bool =>
    cases counted
    have parity : m.testBit 0 = n.testBit 0 := Datum.bool.inj (Except.ok.inj same)
    rw [Nat.testBit_zero, Nat.testBit_zero, decide_eq_decide] at parity
    omega
  | .bitVec w =>
    cases counted
    have narrow : w ≤ 128 := UInt64.le_iff_toNat_le.mpr narrow
    have read : ∀ k < 2 ^ w.toNat, (BitVec.ofNat 128 k &&& mask w).toNat = k := by
      intro k hk
      have fits : k < 2 ^ 128 :=
        hk.trans_le (Nat.pow_le_pow_right Nat.two_pos (toNat_le_of_narrow narrow))
      rw [toNat_and_mask _ narrow, BitVec.toNat_ofNat, Nat.one_shiftLeft, Nat.mod_eq_of_lt fits,
        Nat.mod_eq_of_lt hk]
    have words : BitVec.ofNat 128 m &&& mask w = BitVec.ofNat 128 n &&& mask w := by
      simpa [decode, Datum.ofBits] using same
    rw [← read m hm, ← read n hn, words]
  | .array index element =>
    obtain ⟨w, step, rfl, small, stepCounted, rfl⟩ := searchBits_array counted
    obtain ⟨x, told⟩ := exists_decode_eq (.array (.bitVec w) element) counted narrow m
    have told' := same ▸ told
    rw [decode_array small stepCounted narrow] at told told'
    rw [Nat.one_shiftLeft] at hm hn
    obtain ⟨cells, cellsTold, rfl⟩ := ok_of_map told
    obtain ⟨_, cellsTold', equal⟩ := ok_of_map told'
    cases equal
    have cell := eq_of_mapM cellsTold cellsTold'
    rw [Nat.mul_comm, Nat.pow_mul] at hm hn
    refine eq_of_digits hm hn fun i hi => ?_
    have digit : element.decode (m / (2 ^ step) ^ i % 2 ^ step) =
        element.decode (n / (2 ^ step) ^ i % 2 ^ step) := by
      rw [decode_mod element stepCounted (step_le narrow),
        decode_mod element stepCounted (step_le narrow)]
      exact cell i (List.mem_range.mpr (by rwa [Nat.one_shiftLeft]))
    exact decode_inj element stepCounted (step_le narrow) (Nat.mod_lt _ (Nat.two_pow_pos step))
      (Nat.mod_lt _ (Nat.two_pow_pos step)) digit
  | .int | .real | .function _ _ | .uninterpreted _ _ | .datatype _ | .param _ | .unresolved _ =>
    cases counted

/-- The numbers of the bits of a sort tell its inhabitants, each just once. -/
theorem decode_bijOn (counted : sort.searchBits = .ok bits) (narrow : bits ≤ 128) :
    Set.BijOn sort.decode (Set.Iio (2 ^ bits)) (Except.ok '' {x | sort.Inhabits x}) := by
  refine ⟨fun n _ => ?_, fun m hm n hn same => ?_, ?_⟩
  · obtain ⟨x, told⟩ := sort.exists_decode_eq counted narrow n
    exact ⟨x, inhabits_of_holds sort (sort.holds_decode told), told.symm⟩
  · exact decode_inj sort counted narrow hm hn same
  · rintro _ ⟨x, inhabits, rfl⟩
    obtain ⟨n, below, told⟩ := sort.exists_number counted narrow inhabits.holds
    exact ⟨n, below, told⟩

end LogicSort

namespace NodeStore

/-- The pair gives the symbol a value of its sort. -/
def Gives (store : NodeStore) (t : Handle) (given : Handle × Datum) : Prop :=
  given.1 = t ∧ ∃ node sort, store.find? t = some (node, sort) ∧ sort.Inhabits given.2

/-- The assignment gives each of these symbols a value of its sort, and no other symbol a value. -/
structure Assigns (store : NodeStore) (ts : List Handle) (env : Assignment) : Prop where
  within : ∀ t ∈ ts, ∃ node sort x, store.find? t = some (node, sort) ∧
    env t = some x ∧ sort.Inhabits x
  outside : ∀ t ∉ ts, env t = none

end NodeStore

theorem find?_of_nodup {pairs : List (Handle × Datum)} (nodup : (pairs.map Prod.fst).Nodup)
    {pair : Handle × Datum} (h : pair ∈ pairs) :
    pairs.find? (fun other => other.1 = pair.1) = some pair := by
  cases first : pairs.find? fun other => other.1 = pair.1 with
  | none => simpa using List.find?_eq_none.mp first pair h
  | some other =>
    have matched : other.1 = pair.1 := by simpa using List.find?_some first
    rw [List.inj_on_of_nodup_map nodup (List.mem_of_find?_eq_some first) h matched]

namespace Slot

variable {store : NodeStore} {slots : List Slot} {ts : List Handle}
    {offset m n : Nat} {env : Assignment}

theorem share_lt (slot : Slot) (n : Nat) : slot.share n < 2 ^ slot.bits := by
  rw [share, Nat.one_shiftLeft]
  exact Nat.mod_lt _ (Nat.two_pow_pos _)

/-- Slots leave no gaps: the shares of a counter determine it, but for what lies below the offset
and above the last slot. -/
theorem eq_of_shares (laid : layout store offset ts = .ok slots)
    (same : ∀ slot ∈ slots, slot.share m = slot.share n) :
    m / 2 ^ offset % 2 ^ total slots = n / 2 ^ offset % 2 ^ total slots := by
  induction ts generalizing offset slots with
  | nil =>
    cases laid
    rw [total, Nat.pow_zero, Nat.mod_one, Nat.mod_one]
  | cons t ts ih =>
    obtain ⟨node, sort, bits, rest, -, -, followed, rfl⟩ := layout_cons laid
    obtain ⟨first, same⟩ := List.forall_mem_cons.mp same
    have others := ih followed same
    rw [share, share, Nat.shiftRight_eq_div_pow, Nat.shiftRight_eq_div_pow,
      Nat.one_shiftLeft] at first
    rw [Nat.pow_add, ← Nat.div_div_eq_div_mul, ← Nat.div_div_eq_div_mul] at others
    rw [total, Nat.pow_add, Nat.mod_mul, Nat.mod_mul, first, others]

theorem counter_inj (laid : layout store 0 ts = .ok slots) (narrow : total slots ≤ 128)
    (hm : m < 2 ^ total slots) (hn : n < 2 ^ total slots)
    (same : ∀ slot ∈ slots, slot.sort.decode (slot.share m) = slot.sort.decode (slot.share n)) :
    m = n := by
  have shares : ∀ slot ∈ slots, slot.share m = slot.share n := fun slot hs =>
    slot.sort.decode_inj ((symbols_of_layout laid).2 slot hs)
      ((bits_le_total hs).trans narrow) (slot.share_lt m)
      (slot.share_lt n) (same slot hs)
  have whole := eq_of_shares laid shares
  rwa [Nat.pow_zero, Nat.div_one, Nat.div_one, Nat.mod_eq_of_lt hm, Nat.mod_eq_of_lt hn] at whole

theorem value_ok {slot : Slot} {pair : Handle × Datum} :
    slot.value n = .ok pair ↔ slot.symbol = pair.1 ∧
      slot.sort.decode (slot.share n) = .ok pair.2 := by
  constructor
  · intro h
    obtain ⟨x, told, h⟩ := ok_of_bind h
    cases h
    exact ⟨rfl, told⟩
  · rintro ⟨same, told⟩
    rw [value, bind_of_ok told, same]
    rfl

theorem forall₂_of_layout (laid : layout store offset ts = .ok slots) :
    List.Forall₂ (fun slot t => slot.symbol = t ∧ slot.sort.searchBits = .ok slot.bits ∧
      ∃ node, store.find? t = some (node, slot.sort)) slots ts := by
  induction ts generalizing offset slots with
  | nil =>
    cases laid
    exact .nil
  | cons t ts ih =>
    obtain ⟨node, sort, bits, rest, found, counted, followed, rfl⟩ := layout_cons laid
    exact .cons ⟨rfl, counted, node, found⟩ (ih followed)

/-- The counter numbers the ways to give the symbols values of their sorts, in the order of the
symbols. -/
theorem values_bijOn (laid : layout store 0 ts = .ok slots) (narrow : total slots ≤ 128) :
    Set.BijOn (fun n => slots.mapM (·.value n)) (Set.Iio (2 ^ total slots))
      (Except.ok '' {values | List.Forall₂ store.Gives ts values}) := by
  have placed := forall₂_of_layout laid
  have succeed := values_succeed (symbols_of_layout laid).2 narrow
  refine ⟨fun n _ => ?_, fun m hm n hn same => ?_, ?_⟩
  · obtain ⟨values, assigned⟩ := succeed n
    refine ⟨values, forall₂_join placed (forall₂_of_mapM assigned) ?_, assigned.symm⟩
    rintro slot hs t pair ⟨symbol, -, node, found⟩ valued
    obtain ⟨key, told⟩ := value_ok.mp valued
    exact ⟨key.symm.trans symbol, node, slot.sort, found,
      slot.sort.inhabits_of_holds (slot.sort.holds_decode told)⟩
  · obtain ⟨values, assigned⟩ := succeed n
    refine counter_inj laid narrow hm hn fun slot hs => ?_
    have each : slot.value m = slot.value n := eq_of_mapM (same.trans assigned) assigned slot hs
    obtain ⟨pair, -, valued⟩ := exists_of_forall₂ (forall₂_of_mapM assigned).flip hs
    exact (value_ok.mp (each.trans valued)).2.trans (value_ok.mp valued).2.symm
  · rintro _ ⟨values, gives, rfl⟩
    have each : List.Forall₂ (fun slot pair => ∃ d < 2 ^ slot.bits, slot.symbol = pair.1 ∧
        slot.sort.decode d = .ok pair.2) slots values := by
      have within := (List.forall₂_and_left _ _).mpr
        ⟨fun slot hs => (bits_le_total hs).trans narrow, placed⟩
      refine forall₂_join within.flip gives ?_
      rintro t ht slot pair ⟨narrow, symbol, counted, node, found⟩
        ⟨key, node', sort, found', inhabits⟩
      cases found.symm.trans found'
      obtain ⟨d, small, told⟩ := slot.sort.exists_number counted narrow inhabits.holds
      exact ⟨d, small, symbol.trans key.symm, told⟩
    obtain ⟨n, below, shares⟩ := exists_counter laid each
    refine ⟨n, below, mapM_of_forall₂
      ((shares 0 Nat.one_pos).imp fun slot pair given => value_ok.mpr ?_)⟩
    simpa using given

theorem of_assign (nodup : (slots.map symbol).Nodup) (assigned : assign slots n = .ok env) :
    (∀ slot ∈ slots, ∃ x, slot.sort.decode (slot.share n) = .ok x ∧ env slot.symbol = some x) ∧
      ∀ t ∉ slots.map symbol, env t = none := by
  obtain ⟨values, valued, assigned⟩ := ok_of_bind assigned
  cases assigned
  have valued := forall₂_of_mapM valued
  have keys : slots.map symbol = values.map Prod.fst := by
    rw [← List.forall₂_eq_eq_eq, List.forall₂_map_left_iff, List.forall₂_map_right_iff]
    exact valued.imp fun slot pair h => (value_ok.mp h).1
  refine ⟨fun slot hs => ?_, fun t absent => ?_⟩
  · obtain ⟨pair, hp, h⟩ := exists_of_forall₂ valued.flip hs
    obtain ⟨key, told⟩ := value_ok.mp h
    have found := find?_of_nodup (keys ▸ nodup) hp
    rw [← key] at found
    exact ⟨pair.2, told, congrArg (Option.map Prod.snd) found⟩
  · have none : values.find? (fun pair => pair.1 = t) = none := by
      refine List.find?_eq_none.mpr fun pair hp => ?_
      have other : pair.1 ≠ t := fun same => absent (keys ▸ same ▸ List.mem_map_of_mem hp)
      simpa using other
    exact congrArg (Option.map Prod.snd) none

/-- The counter numbers the assignments of values to the symbols, if no symbol is named twice. -/
theorem assign_bijOn (laid : layout store 0 ts = .ok slots) (nodup : ts.Nodup)
    (narrow : total slots ≤ 128) :
    Set.BijOn (assign slots) (Set.Iio (2 ^ total slots))
      (Except.ok '' {env | store.Assigns ts env}) := by
  obtain ⟨names, counted⟩ := symbols_of_layout laid
  have answers := assign_answers counted narrow
  have nodup : (slots.map symbol).Nodup := names ▸ nodup
  refine ⟨fun n _ => ?_, fun m hm n hn same => ?_, ?_⟩
  · obtain ⟨env, assigned⟩ := answers n
    obtain ⟨given, others⟩ := of_assign nodup assigned
    refine ⟨env, ⟨?_, names ▸ others⟩, assigned.symm⟩
    rw [← names]
    refine List.forall_mem_map.mpr fun slot hs => ?_
    obtain ⟨node, found⟩ := sort_of_layout laid hs
    obtain ⟨x, told, value⟩ := given slot hs
    exact ⟨node, slot.sort, x, found, value,
      slot.sort.inhabits_of_holds (slot.sort.holds_decode told)⟩
  · obtain ⟨env, assigned⟩ := answers n
    refine counter_inj laid narrow hm hn fun slot hs => ?_
    obtain ⟨x, told, value⟩ := (of_assign nodup (same.trans assigned)).1 slot hs
    obtain ⟨y, told', value'⟩ := (of_assign nodup assigned).1 slot hs
    cases value.symm.trans value'
    exact told.trans told'.symm
  · rintro _ ⟨env, assigns, rfl⟩
    have each : ∀ slot ∈ slots, ∃ d < 2 ^ slot.bits, ∃ x, slot.sort.decode d = .ok x ∧
        env slot.symbol = some x := by
      intro slot hs
      obtain ⟨node, found⟩ := sort_of_layout laid hs
      obtain ⟨node', sort, x, found', value, inhabits⟩ :=
        assigns.within slot.symbol (names ▸ List.mem_map_of_mem hs)
      cases found.symm.trans found'
      obtain ⟨d, small, told⟩ :=
        slot.sort.exists_number (counted slot hs) ((bits_le_total hs).trans narrow) inhabits.holds
      exact ⟨d, small, x, told, value⟩
    obtain ⟨n, below, shares⟩ := exists_counter_of_forall laid each
    obtain ⟨env', assigned⟩ := answers n
    obtain ⟨given, others⟩ := of_assign nodup assigned
    have same : env' = env := by
      funext t
      by_cases ht : t ∈ slots.map symbol
      · obtain ⟨slot, hs, rfl⟩ := List.mem_map.mp ht
        obtain ⟨x, told, value⟩ := shares slot hs
        obtain ⟨y, told', value'⟩ := given slot hs
        cases told.symm.trans told'
        exact value'.trans value.symm
      · exact (others t ht).trans (assigns.outside t (names ▸ ht)).symm
    exact ⟨n, below, same ▸ assigned⟩

end Slot

namespace Search

/-- The enumeration is a bijection. The numbers of the bits of a sort tell its inhabitants, each
just once. The counters of as many bits as a list of symbols takes give, place by place, all lists
of values of their sorts, each just once; and if the symbols are different, as those of a query are,
all assignments of such values. -/
theorem enumeration_bijective :
    (∀ (sort : LogicSort) (bits : Nat), sort.searchBits = .ok bits → bits ≤ maxBits →
      Set.BijOn sort.decode (Set.Iio (2 ^ bits)) (Except.ok '' {x | sort.Inhabits x})) ∧
    (∀ (store : NodeStore) (ts : List Handle),
      (∀ t ∈ ts, ∃ node sort bits, store.find? t = some (node, sort) ∧ sort.searchBits = .ok bits) →
      (ts.map store.bitsOf).sum ≤ maxBits →
      ∃ slots, Slot.layout store 0 ts = .ok slots ∧ Slot.total slots = (ts.map store.bitsOf).sum ∧
        Set.BijOn (fun n => slots.mapM (·.value n)) (Set.Iio (2 ^ Slot.total slots))
          (Except.ok '' {values | List.Forall₂ store.Gives ts values}) ∧
        (ts.Nodup → Set.BijOn (Slot.assign slots) (Set.Iio (2 ^ Slot.total slots))
          (Except.ok '' {env | store.Assigns ts env}))) ∧
    ∀ (store : NodeStore) (roots ts : List Handle), store.symbolsOf roots = .ok ts → ts.Nodup := by
  have word : maxBits ≤ 128 := by decide
  refine ⟨fun sort bits counted few => LogicSort.decode_bijOn counted (few.trans word), ?_,
    fun store roots ts listed => NodeStore.nodup_symbolsOf listed⟩
  intro store ts countable few
  obtain ⟨slots, laid, same⟩ := Slot.layout_succeeds countable 0
  have narrow : Slot.total slots ≤ 128 := same ▸ few.trans word
  exact ⟨slots, laid, same, Slot.values_bijOn laid narrow, fun nodup =>
    Slot.assign_bijOn laid nodup narrow⟩

/-- A truth value, and an array of two arrays of two truth values each. -/
def nestedStore : NodeStore :=
  ⟨#[(.symbol "p", .bool), (.symbol "a", .array (.bitVec 1) (.array (.bitVec 1) .bool))], by decide⟩

/-- The sixteen nested arrays, and with a truth value before them the thirty-two assignments. -/
theorem enumeration_bijective_nested : ∃ slots,
    Set.BijOn (LogicSort.array (.bitVec 1) (.array (.bitVec 1) .bool)).decode (Set.Iio (2 ^ 4))
      (Except.ok '' {x | (LogicSort.array (.bitVec 1) (.array (.bitVec 1) .bool)).Inhabits x}) ∧
    nestedStore.symbolsOf [⟨1⟩, ⟨0⟩, ⟨1⟩] = .ok [⟨0⟩, ⟨1⟩] ∧
      Slot.layout nestedStore 0 [⟨0⟩, ⟨1⟩] = .ok slots ∧
    Set.BijOn (Slot.assign slots) (Set.Iio (2 ^ 5))
      (Except.ok '' {env | nestedStore.Assigns [⟨0⟩, ⟨1⟩] env}) := by
  obtain ⟨sorts, assignments, different⟩ := enumeration_bijective
  have listed : nestedStore.symbolsOf [⟨1⟩, ⟨0⟩, ⟨1⟩] = .ok [⟨0⟩, ⟨1⟩] := by
    simp [NodeStore.symbolsOf, NodeStore.sweep, NodeStore.find?, NodeStore.size, nestedStore]
  have counted : (LogicSort.array (.bitVec 1) (.array (.bitVec 1) .bool)).searchBits = .ok 4 := rfl
  have countable : ∀ t ∈ [(⟨0⟩ : Handle), ⟨1⟩], ∃ node sort bits,
      nestedStore.find? t = some (node, sort) ∧ sort.searchBits = .ok bits :=
    List.forall_mem_cons.mpr
      ⟨⟨_, _, 1, rfl, rfl⟩, List.forall_mem_singleton.mpr ⟨_, _, 4, rfl, counted⟩⟩
  obtain ⟨slots, laid, total, -, numbered⟩ :=
    assignments nestedStore [⟨0⟩, ⟨1⟩] countable (by decide)
  have five : Slot.total slots = 5 := total
  exact ⟨slots, sorts _ 4 counted (by decide), listed, laid,
    five ▸ numbered (different _ _ _ listed)⟩

end Search

end FormulaGraph
