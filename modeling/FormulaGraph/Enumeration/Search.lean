import FormulaGraph.Engine
import FormulaGraph.Enumeration.Eval

/-!
Search for a model by trying every assignment.

The symbols of a query are numbered through by one counter: each symbol owns as many bits of it as
its sort needs, the first symbol the lowest. The first assignment under which all formulas hold is
the model.
-/

namespace FormulaGraph

/-- A symbol of a query with its sort and the bits of the counter that it owns. -/
structure Slot where
  symbol : Handle
  sort : LogicSort
  offset : Nat
  bits : Nat

namespace Slot

/-- The slots of symbols from an offset on. -/
def layout (store : NodeStore) : Nat → List Handle → Except Error (List Slot)
  | _, [] => .ok []
  | offset, t :: ts => do
    let (_, sort) ← store.find t
    let bits ← sort.searchBits
    return ⟨t, sort, offset, bits⟩ :: (← layout store (offset + bits) ts)

/-- How many bits the slots need together. -/
def total : List Slot → Nat
  | [] => 0
  | slot :: slots => slot.bits + total slots

/-- The part of the counter that belongs to the slot. -/
def share (slot : Slot) (counter : Nat) : Nat := (counter >>> slot.offset) % 1 <<< slot.bits

/-- The value that the counter gives to the symbol. -/
def value (slot : Slot) (counter : Nat) : Except Error (Handle × Datum) := do
  return (slot.symbol, ← slot.sort.decode (slot.share counter))

/-- The values that the counter gives to the symbols. -/
def assign (slots : List Slot) (counter : Nat) : Except Error Assignment := do
  let values ← slots.mapM (·.value counter)
  return fun t => (values.find? fun (symbol, _) => symbol = t).map Prod.snd

end Slot

namespace Search

/-- A query may use this many bits. -/
def maxBits : Nat := 20

/-- The token is looked at once in this many assignments. -/
def pollInterval : Nat := 256

/-- Whether every formula holds; those after the first that does not are left alone. -/
def allHold (store : NodeStore) (env : Assignment) : List Handle → Except Error Bool
  | [] => .ok true
  | t :: ts => do
    if ← (← store.eval env t).asBool then allHold store env ts else return false

/-- What a search comes to. -/
inductive Finding where
  | model (env : Assignment)
  | noModel
  /-- The token put an end to the search. -/
  | cutShort

/-- Tries the counters from one up to a limit. -/
def tryFrom (store : NodeStore) (formulas : List Handle) (slots : List Slot) (token : CancelToken)
    (limit counter : Nat) : Except Error Finding :=
  if counter < limit then
    if counter % pollInterval = 0 && token.atPoll (counter / pollInterval) then .ok .cutShort
    else do
      let env ← Slot.assign slots counter
      if ← allHold store env formulas then return .model env
      else tryFrom store formulas slots token limit (counter + 1)
  else .ok .noModel
termination_by limit - counter

/-- Searches for a model of the formulas. -/
def run (store : NodeStore) (formulas : List Handle) (token : CancelToken) :
    Except Error Finding := do
  let slots ← Slot.layout store 0 (← store.symbolsOf formulas)
  let bits ← within UInt64.size (Slot.total slots)
  if bits > maxBits then throw (.unsupported (.tooManyBits bits))
  tryFrom store formulas slots token (1 <<< bits) 0

/-- Drops assumptions, one after the other, as long as the rest is unsatisfiable. The first list
holds those that have to stay. -/
def shrink (unsat : List Handle → Except Error Bool) (kept : List Handle) :
    List Handle → Except Error (List Handle)
  | [] => .ok kept
  | t :: rest => do
    if ← unsat (kept ++ rest) then shrink unsat kept rest
    else shrink unsat (kept ++ [t]) rest

end Search

end FormulaGraph
