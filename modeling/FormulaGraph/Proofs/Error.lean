import FormulaGraph.Error
import Mathlib.Data.List.Forall2

/-!
What a computation that succeeds has gone through, and which failures find fault with a term: that
it is foreign, or that the engine should have it and does not. Only a solver looks up the engine's
terms, so no computation below it fails like that; such a computation is called plain here.
-/

namespace FormulaGraph

section Success

variable {α β : Type}

theorem ok_of_bind {r : Except Error α} {f : α → Except Error β} {b : β}
    (h : r >>= f = .ok b) : ∃ a, r = .ok a ∧ f a = .ok b := by
  cases r with
  | ok a => exact ⟨a, rfl, h⟩
  | error e => cases h

theorem bind_of_ok {r : Except Error α} {f : α → Except Error β} {a : α} (h : r = .ok a) :
    r >>= f = f a := by
  rw [h]
  rfl

theorem ok_of_map {r : Except Error α} {f : α → β} {b : β} (h : f <$> r = .ok b) :
    ∃ a, r = .ok a ∧ f a = b := by
  cases r with
  | ok a =>
    cases h
    exact ⟨a, rfl, rfl⟩
  | error e => cases h

theorem forall₂_of_mapM {f : α → Except Error β} {as : List α} {bs : List β}
    (h : as.mapM f = .ok bs) : List.Forall₂ (fun a b => f a = .ok b) as bs := by
  induction as generalizing bs with
  | nil =>
    cases h
    exact .nil
  | cons a as ih =>
    rw [List.mapM_cons] at h
    obtain ⟨b, first, h⟩ := ok_of_bind h
    obtain ⟨bs', rest, h⟩ := ok_of_bind h
    cases h
    exact .cons first (ih rest)

theorem mapM_of_forall₂ {f : α → Except Error β} {as : List α} {bs : List β}
    (each : List.Forall₂ (fun a b => f a = .ok b) as bs) : as.mapM f = .ok bs := by
  induction each with
  | nil => rfl
  | cons first _ ih =>
    rw [List.mapM_cons, first, ih]
    rfl

theorem mapM_of_forall_eq {f : α → Except Error β} {as : List α} {b : β}
    (each : ∀ a ∈ as, f a = .ok b) :
    as.mapM f = .ok (as.map fun _ => b) :=
  mapM_of_forall₂ (List.forall₂_map_right_iff.mpr (List.forall₂_same.mpr each))

theorem mapM_succeeds {f : α → Except Error β} {as : List α}
    (each : ∀ a ∈ as, ∃ b, f a = .ok b) : ∃ bs, as.mapM f = .ok bs := by
  induction as with
  | nil => exact ⟨[], rfl⟩
  | cons a as ih =>
    obtain ⟨b, first⟩ := each a List.mem_cons_self
    obtain ⟨bs, rest⟩ := ih fun a ha => each a (List.mem_cons_of_mem _ ha)
    exact ⟨b :: bs, by rw [List.mapM_cons, first, rest]; rfl⟩

theorem mapM_congr {f g : α → Except Error β} {as : List α} (same : ∀ a ∈ as, f a = g a) :
    as.mapM f = as.mapM g := by
  induction as with
  | nil => rfl
  | cons a as ih =>
    rw [List.mapM_cons, List.mapM_cons, same a List.mem_cons_self,
      ih fun a ha => same a (List.mem_cons_of_mem _ ha)]

theorem ok_of_forM {f : α → Except Error Unit} {as : List α} (h : as.forM f = .ok ()) :
    ∀ a ∈ as, f a = .ok () := by
  induction as with
  | nil => exact fun a ha => absurd ha List.not_mem_nil
  | cons a as ih =>
    obtain ⟨⟨⟩, first, rest⟩ := ok_of_bind h
    exact List.forall_mem_cons.mpr ⟨first, ih rest⟩

theorem mapM_congr₂ {γ : Type} {f : α → Except Error γ} {g : β → Except Error γ} {as : List α}
    {bs : List β} (same : List.Forall₂ (fun a b => f a = g b) as bs) : as.mapM f = bs.mapM g := by
  induction same with
  | nil => rfl
  | cons first _ ih => rw [List.mapM_cons, List.mapM_cons, first, ih]

theorem exists_of_forall₂ {R : α → β → Prop} {as : List α} {bs : List β}
    (related : List.Forall₂ R as bs) {b : β} (hb : b ∈ bs) : ∃ a ∈ as, R a b := by
  induction related with
  | nil => exact absurd hb List.not_mem_nil
  | cons first _ ih =>
    cases List.mem_cons.mp hb with
    | inl same => exact ⟨_, List.mem_cons_self, same ▸ first⟩
    | inr hb =>
      obtain ⟨a, ha, related⟩ := ih hb
      exact ⟨a, List.mem_cons_of_mem _ ha, related⟩

theorem forall₂_join {γ : Type} {R : α → β → Prop} {S : α → γ → Prop} {Q : β → γ → Prop}
    {as : List α} {bs : List β} {cs : List γ} (left : List.Forall₂ R as bs)
    (right : List.Forall₂ S as cs) (both : ∀ a ∈ as, ∀ b c, R a b → S a c → Q b c) :
    List.Forall₂ Q bs cs := by
  induction left generalizing cs with
  | nil =>
    cases right with
    | nil => exact .nil
  | cons first _ ih =>
    cases right with
    | cons first' rest' =>
      refine .cons (both _ List.mem_cons_self _ _ first first') (ih rest' ?_)
      exact fun a ha => both a (List.mem_cons_of_mem _ ha)

end Success

/-- If the computation fails, its error is one of these. -/
def FailsOnly {α : Type} (F : Error → Prop) (r : Except Error α) : Prop := ∀ e, r = .error e → F e

namespace FailsOnly

variable {α β : Type} {F : Error → Prop}

theorem ok (a : α) : FailsOnly F (.ok a) := fun _ h => by cases h

theorem pure (a : α) : FailsOnly F (Pure.pure a) := ok a

theorem error {e : Error} (allowed : F e) : FailsOnly F (.error e : Except Error α) :=
  fun _ h => by cases h; exact allowed

theorem bind_ok {r : Except Error α} {f : α → Except Error β} (first : FailsOnly F r)
    (rest : ∀ a, r = .ok a → FailsOnly F (f a)) : FailsOnly F (r >>= f) := by
  cases r with
  | ok a => exact rest a rfl
  | error e => exact error (first e rfl)

theorem bind {r : Except Error α} {f : α → Except Error β} (first : FailsOnly F r)
    (rest : ∀ a, FailsOnly F (f a)) : FailsOnly F (r >>= f) :=
  bind_ok first fun a _ => rest a

theorem mono {F' : Error → Prop} {r : Except Error α} (fails : FailsOnly F r)
    (weaker : ∀ e, F e → F' e) : FailsOnly F' r :=
  fun e broken => weaker e (fails e broken)

theorem map {r : Except Error α} (first : FailsOnly F r) (f : α → β) : FailsOnly F (f <$> r) := by
  cases r with
  | ok a => exact ok (f a)
  | error e => exact error (first e rfl)

theorem ite {c : Prop} [Decidable c] {r r' : Except Error α} (yes : FailsOnly F r)
    (no : FailsOnly F r') : FailsOnly F (if c then r else r') := by
  split
  · exact yes
  · exact no

theorem forM {f : α → Except Error Unit} (each : ∀ a, FailsOnly F (f a)) (as : List α) :
    FailsOnly F (as.forM f) := by
  induction as with
  | nil => exact pure ()
  | cons a as ih => exact bind (each a) fun _ => ih

theorem foldlM {f : β → α → Except Error β} (each : ∀ b a, FailsOnly F (f b a))
    (as : List α) (b : β) :
    FailsOnly F (as.foldlM f b) := by
  induction as generalizing b with
  | nil => exact pure b
  | cons a as ih => exact bind (each b a) ih

theorem mapM {f : α → Except Error β} {as : List α} (each : ∀ a ∈ as, FailsOnly F (f a)) :
    FailsOnly F (as.mapM f) := by
  induction as with
  | nil => exact pure []
  | cons a as ih =>
    rw [List.mapM_cons]
    refine bind (each a List.mem_cons_self) fun _ => bind (ih ?_) fun _ => pure _
    intro a' ha'
    exact each a' (List.mem_cons_of_mem _ ha')

end FailsOnly

/-- The error is not about a lost term. -/
def Error.Plain : Error → Prop
  | .internal (.noEngineTerm _) => False
  | _ => True

/-- The error finds fault with no term: none is lost, and none is foreign. -/
def Error.Fair : Error → Prop
  | .internal (.noEngineTerm _) | .usage (.foreignTerm _) => False
  | _ => True

theorem Error.Fair.plain {e : Error} (fair : e.Fair) : e.Plain := by
  unfold Error.Plain
  split
  · exact fair
  · trivial

/-- If the computation fails, its error finds fault with no term. -/
def Plainly {α : Type} (r : Except Error α) : Prop := ∀ e, r = .error e → e.Fair

namespace Plainly

variable {α β : Type}

theorem ok (a : α) : Plainly (.ok a) := FailsOnly.ok a

theorem pure (a : α) : Plainly (Pure.pure a) := ok a

theorem error {e : Error} (fair : e.Fair) : Plainly (.error e : Except Error α) :=
    FailsOnly.error fair

theorem bind {r : Except Error α} {f : α → Except Error β} (first : Plainly r)
    (rest : ∀ a, Plainly (f a)) : Plainly (r >>= f) := FailsOnly.bind first rest

theorem map {r : Except Error α} (first : Plainly r) (f : α → β) : Plainly (f <$> r) :=
  FailsOnly.map first f

theorem discard {r : Except Error α} (first : Plainly r) : Plainly (discard r) := map first _

theorem ite {c : Prop} [Decidable c] {r r' : Except Error α} (yes : Plainly r)
    (no : Plainly r') : Plainly (if c then r else r') := FailsOnly.ite yes no

theorem guard {c : Prop} [Decidable c] {e : Error} {rest : PUnit → Except Error α} (fair : e.Fair)
    (passed : Plainly (rest ⟨⟩)) : Plainly (if c then throw e >>= rest else rest ⟨⟩) :=
  ite (bind (error fair) fun _ => passed) passed

theorem forM {f : α → Except Error Unit} (each : ∀ a, Plainly (f a)) (as : List α) :
    Plainly (as.forM f) := FailsOnly.forM each as

theorem foldlM {f : β → α → Except Error β} (each : ∀ b a, Plainly (f b a)) (as : List α) (b : β) :
    Plainly (as.foldlM f b) := FailsOnly.foldlM each as b

theorem mapM {f : α → Except Error β} {as : List α} (each : ∀ a ∈ as, Plainly (f a)) :
    Plainly (as.mapM f) := FailsOnly.mapM each

end Plainly

end FormulaGraph
