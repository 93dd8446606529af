import FormulaGraph.Proofs.Enumeration.Datum
import Mathlib.Data.Nat.ModEq

/-!
Counting reaches every element of a sort: the numbers below two to the power of the search bits tell
all its elements, and what lies above those bits is dropped. The bits have to fit into a word.
-/

namespace FormulaGraph

theorem add_mul_lt {base d n bound : Nat} (digit : d < base) (below : n < bound) :
    d + base * n < base * bound :=
  calc
    d + base * n < base * (n + 1) := by rw [Nat.mul_succ]; omega
    _ ≤ base * bound := Nat.mul_le_mul_left base below

theorem exists_digits (base : Nat) (digits : List Nat) (small : ∀ d ∈ digits, d < base) :
    ∃ n < base ^ digits.length, ∀ (i : Nat) (h : i < digits.length),
      n / base ^ i % base = digits[i] := by
  induction digits with
  | nil => exact ⟨0, by simp, nofun⟩
  | cons d digits ih =>
    obtain ⟨n, below, read⟩ := ih fun d hd => small d (List.mem_cons_of_mem _ hd)
    have first := small d List.mem_cons_self
    refine ⟨d + base * n, ?_, fun i h => ?_⟩
    · rw [List.length_cons, Nat.pow_succ']
      exact add_mul_lt first below
    · cases i with
      | zero => simp [Nat.mod_eq_of_lt first]
      | succ i =>
        have shifted : (d + base * n) / base = n := by
          rw [Nat.add_mul_div_left _ _ (by omega), Nat.div_eq_of_lt first, Nat.zero_add]
        rw [Nat.pow_succ', ← Nat.div_div_eq_div_mul, shifted]
        exact read i (by simpa using h)

namespace LogicSort

variable {sort index element : LogicSort} {bits n : Nat} {x : Datum} {w : UInt64}

theorem searchBits_array (h : (array index element).searchBits = .ok bits) :
    ∃ w step, index = .bitVec w ∧ w.toNat ≤ 8 ∧ element.searchBits = .ok step ∧
      bits = 1 <<< w.toNat * step := by
  rw [searchBits] at h
  obtain ⟨w, width, h⟩ := ok_of_bind h
  dsimp only at h
  split at h
  · cases h
  · rename_i few
    obtain ⟨step, counted, h⟩ := ok_of_bind h
    have small : w ≤ 8 := UInt64.not_lt.mp few
    exact ⟨w, step, expectBitVec_ok width, UInt64.le_iff_toNat_le.mp small,
      counted, (within_ok h).1⟩

theorem step_le {step limit : Nat} (narrow : 1 <<< w.toNat * step ≤ limit) : step ≤ limit :=
  (Nat.le_mul_of_pos_left step (Nat.one_shiftLeft _ ▸ Nat.two_pow_pos _)).trans narrow

theorem start_lt {step i : Nat} (narrow : 1 <<< w.toNat * step ≤ 128) (h : i < 1 <<< w.toNat) :
    i * step < 128 := by
  cases step with
  | zero => omega
  | succ step => exact (Nat.mul_lt_mul_of_pos_right h step.succ_pos).trans_le narrow

/-- The cells of an array are told by the digits of the number, one cell by each. -/
theorem decode_array {step : Nat} (small : w.toNat ≤ 8) (counted : element.searchBits = .ok step)
    (narrow : 1 <<< w.toNat * step ≤ 128) (n : Nat) :
    (array (.bitVec w) element).decode n =
      .array <$> (List.range (1 <<< w.toNat)).mapM fun i =>
        element.decode (n / (2 ^ step) ^ i) := by
  have each : ∀ i ∈ List.range (1 <<< w.toNat),
      (within 128 (i * step) >>= fun shift => element.decode (n >>> shift)) =
        element.decode (n / (2 ^ step) ^ i) := by
    intro i hi
    rw [within_of_lt (start_lt narrow (List.mem_range.mp hi)), bind_of_ok rfl,
      Nat.shiftRight_eq_div_pow, Nat.mul_comm i, Nat.pow_mul]
  rw [decode, bind_of_ok (positions_of_lt (by omega)), bind_of_ok counted, mapM_congr each]
  rfl

theorem ofBits_mod (w : UInt64) (n : Nat) :
    Datum.ofBits w (BitVec.ofNat 128 (n % 2 ^ w.toNat)) = Datum.ofBits w (BitVec.ofNat 128 n) := by
  unfold Datum.ofBits
  congr 1
  by_cases wide : 128 ≤ w
  · rw [and_mask_of_le _ wide, and_mask_of_le _ wide]
    apply BitVec.eq_of_toNat_eq
    have divides : 2 ^ 128 ∣ 2 ^ w.toNat := Nat.pow_dvd_pow 2 (UInt64.le_iff_toNat_le.mp wide)
    rw [BitVec.toNat_ofNat, BitVec.toNat_ofNat, Nat.mod_mod_of_dvd _ divides]
  · have narrow : w ≤ 128 := UInt64.le_of_lt (UInt64.not_le.mp wide)
    have divides : 2 ^ w.toNat ∣ 2 ^ 128 := Nat.pow_dvd_pow 2 (UInt64.le_iff_toNat_le.mp narrow)
    apply BitVec.eq_of_toNat_eq
    rw [toNat_and_mask _ narrow, toNat_and_mask _ narrow, BitVec.toNat_ofNat, BitVec.toNat_ofNat,
      Nat.one_shiftLeft, Nat.mod_mod_of_dvd _ divides, Nat.mod_mod_of_dvd _ divides, Nat.mod_mod]

theorem exists_decode_eq (sort : LogicSort) {bits : Nat} (counted : sort.searchBits = .ok bits)
    (narrow : bits ≤ 128) (n : Nat) : ∃ x, sort.decode n = .ok x := by
  match sort with
  | .bool | .bitVec _ => exact ⟨_, rfl⟩
  | .array index element =>
    obtain ⟨w, step, rfl, small, stepCounted, rfl⟩ := searchBits_array counted
    have each : ∀ i ∈ List.range (1 <<< w.toNat), ∃ x,
        element.decode (n / (2 ^ step) ^ i) = .ok x :=
      fun i _ => exists_decode_eq element stepCounted (step_le narrow) _
    obtain ⟨cells, decoded⟩ := mapM_succeeds each
    rw [decode_array small stepCounted narrow, decoded]
    exact ⟨.array cells, rfl⟩
  | .int | .real | .function _ _ | .uninterpreted _ _ | .datatype _ | .param _ | .unresolved _ =>
    cases counted

theorem digit_mod (base n : Nat) {i count : Nat} (h : i < count) :
    n % base ^ count / base ^ i % base = n / base ^ i % base := by
  obtain ⟨rest, rfl⟩ : ∃ rest, count = i + (rest + 1) := ⟨count - i - 1, by omega⟩
  rw [Nat.pow_add, Nat.mod_mul_right_div_self,
    Nat.mod_mod_of_dvd _ (dvd_pow_self base rest.succ_ne_zero)]

/-- What lies above the bits of the sort is dropped. -/
theorem decode_mod (sort : LogicSort) {bits : Nat} (counted : sort.searchBits = .ok bits)
    (narrow : bits ≤ 128) (n : Nat) : sort.decode (n % 2 ^ bits) = sort.decode n := by
  match sort with
  | .bool =>
    cases counted
    simp [decode, Nat.testBit_zero]
  | .bitVec w =>
    cases counted
    simp only [decode, ofBits_mod]
  | .array index element =>
    obtain ⟨w, step, rfl, small, stepCounted, rfl⟩ := searchBits_array counted
    have lowest := decode_mod element stepCounted (step_le narrow)
    rw [decode_array small stepCounted narrow, decode_array small stepCounted narrow, Nat.mul_comm,
      Nat.pow_mul]
    congr 1
    refine mapM_congr fun i hi => ?_
    rw [← lowest, digit_mod _ _ (List.mem_range.mp hi), lowest]
  | .int | .real | .function _ _ | .uninterpreted _ _ | .datatype _ | .param _ | .unresolved _ =>
    cases counted

theorem exists_number_bitVec {v : UInt64} {word : Word}
    (holds : (bitVec w).Holds (.bitVec v word)) :
    ∃ n, (bitVec w).decode n = .ok (.bitVec v word) := by
  obtain ⟨rfl, masked⟩ := holds
  refine ⟨word.toNat, ?_⟩
  rw [decode, Datum.ofBits, BitVec.ofNat_toNat, BitVec.setWidth_eq, masked]

theorem exists_number_cells {step : Nat} (counted : element.searchBits = .ok step)
    (narrow : step ≤ 128) {cells : List Datum}
    (each : ∀ y ∈ cells, ∃ d < 2 ^ step, element.decode d = .ok y) :
    ∃ n, (List.range cells.length).mapM (fun i => element.decode (n / (2 ^ step) ^ i)) =
      .ok cells := by
  choose! digit below told using each
  obtain ⟨n, -, digits⟩ := exists_digits (2 ^ step) (cells.map digit) (by simpa using below)
  refine ⟨n, mapM_of_forall₂ (List.forall₂_iff_get.mpr ⟨List.length_range, fun i h h' => ?_⟩)⟩
  have read := digits i (by simpa using h')
  rw [← decode_mod element counted narrow, List.get_eq_getElem, List.getElem_range,
    read, List.getElem_map, List.get_eq_getElem]
  exact told _ (List.getElem_mem h')

/-- Every element of a sort is told by a number of its bits. -/
theorem exists_number (sort : LogicSort) {bits : Nat} (counted : sort.searchBits = .ok bits)
    (narrow : bits ≤ 128) {x : Datum} (holds : sort.Holds x) :
    ∃ n < 2 ^ bits, sort.decode n = .ok x := by
  suffices told : ∃ n, sort.decode n = .ok x by
    obtain ⟨n, decoded⟩ := told
    refine ⟨n % 2 ^ bits, Nat.mod_lt _ (Nat.two_pow_pos bits), ?_⟩
    rw [decode_mod sort counted narrow, decoded]
  match sort with
  | .bool =>
    cases x with
    | bool b => exact ⟨b.toNat, by cases b <;> rfl⟩
    | bitVec | array => cases holds
  | .bitVec w =>
    cases x with
    | bitVec v word => exact exists_number_bitVec holds
    | bool | array => cases holds
  | .array index element =>
    obtain ⟨w, step, rfl, small, stepCounted, rfl⟩ := searchBits_array counted
    obtain ⟨_, cells, same, rfl, length, cellsHold⟩ := eq_array_of_holds holds
    cases same
    have each : ∀ y ∈ cells, ∃ d < 2 ^ step, element.decode d = .ok y :=
      fun y hy => exists_number element stepCounted (step_le narrow) (cellsHold y hy)
    obtain ⟨n, decoded⟩ := exists_number_cells stepCounted (step_le narrow) each
    rw [length] at decoded
    exact ⟨n, by rw [decode_array small stepCounted narrow, decoded]; rfl⟩
  | .int | .real | .function _ _ | .uninterpreted _ _ | .datatype _ | .param _ | .unresolved _ =>
    cases counted

end LogicSort

end FormulaGraph
