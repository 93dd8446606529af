import FormulaGraph.Enumeration.Store

/-!
Assertions in nested scopes. There is always an innermost scope; leaving a scope forgets what was
asserted in it.
-/

namespace FormulaGraph

structure Scopes where
  /-- The assertions of the innermost scope, in order. -/
  current : List Handle := []
  /-- Those of the scopes around it, from the inside out. -/
  enclosing : List (List Handle) := []
  deriving Inhabited

namespace Scopes

/-- How many scopes can be left. -/
def depth (s : Scopes) : Nat := s.enclosing.length

/-- All assertions, from the outermost scope to the innermost. -/
def active (s : Scopes) : List Handle := s.enclosing.reverse.flatten ++ s.current

def assert (t : Handle) (s : Scopes) : Scopes := { s with current := s.current ++ [t] }

def enter (s : Scopes) : Scopes := ⟨[], s.current :: s.enclosing⟩

def leave (s : Scopes) : Scopes :=
  match s.enclosing with
  | [] => s
  | outer :: rest => ⟨outer, rest⟩

/-- Enters some number of scopes. -/
def push (levels : Nat) (s : Scopes) : Scopes := Nat.repeat enter levels s

/-- Leaves some number of scopes, if there are as many. -/
def pop? (levels : Nat) (s : Scopes) : Option Scopes :=
  if levels ≤ s.depth then some (Nat.repeat leave levels s) else none

theorem depth_enter (s : Scopes) : s.enter.depth = s.depth + 1 := rfl

theorem active_assert (t : Handle) (s : Scopes) : (s.assert t).active = s.active ++ [t] := by
  simp [assert, active]

theorem active_enter (s : Scopes) : s.enter.active = s.active := by
  simp [enter, active]

theorem depth_push (n : Nat) (s : Scopes) : (s.push n).depth = n + s.depth := by
  induction n with
  | zero => simp [push, Nat.repeat]
  | succ n ih =>
    rw [show s.push (n + 1) = (s.push n).enter from rfl, depth_enter, ih]
    omega

theorem active_push (n : Nat) (s : Scopes) : (s.push n).active = s.active := by
  induction n with
  | zero => rfl
  | succ n ih => rw [show s.push (n + 1) = (s.push n).enter from rfl, active_enter, ih]

theorem leave_levels_enter (n : Nat) (s : Scopes) :
    Nat.repeat leave (n + 1) s.enter = Nat.repeat leave n s := by
  induction n with
  | zero => rfl
  | succ n ih => exact congrArg leave ih

theorem pop?_push (n : Nat) (s : Scopes) : (s.push n).pop? n = some s := by
  have restored : Nat.repeat leave n (s.push n) = s := by
    induction n with
    | zero => rfl
    | succ n ih =>
      rw [show s.push (n + 1) = (s.push n).enter from rfl, leave_levels_enter, ih]
  rw [pop?, if_pos (by rw [depth_push]; omega), restored]

end Scopes

end FormulaGraph
