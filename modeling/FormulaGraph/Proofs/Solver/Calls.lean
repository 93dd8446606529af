import FormulaGraph.Proofs.Op.ResultSort
import FormulaGraph.Proofs.Solver.Coherent
import FormulaGraph.Solver.Build

/-!
The steps that a solver's operations are made of: calls of the engine, lookups of its terms and
sorts, the choice of a sort, and interning. Each keeps a coherent solver coherent.
-/

namespace FormulaGraph.Solver

open FormulaGraph.Action

variable {σ S T α : Type} [BEq T] [Hashable T] [Engine σ S T] {K : Contract σ S T}
  {start : σ → Prop} {s s' : Solver σ S T} {t u : Term} {n m : T}

theorem Mirrored.grow (honoured : K.Honoured start) {e e' : σ} {session : Session S T}
    (mirrored : Mirrored K ⟨e, session⟩) (steps : K.Steps e e') : Mirrored K ⟨e', session⟩ where
  valid := steps.1
  aliases := honoured.aliases e e' _ steps.2 mirrored.aliases
  sorts := mirrored.sorts
  names t n ht found := by
    obtain ⟨ns, renders, named⟩ := mirrored.names t n ht found
    exact ⟨ns, renders, honoured.names e e' n _ steps.2 named⟩
  apart := mirrored.apart

theorem withEngine_eq (e : σ) (session : Session S T) :
    ∃ notices, withEngine e session = ⟨(Engine.takeNotices e).2, { session with notices }⟩ := by
  unfold withEngine
  split
  rename_i ns e' taken
  rw [taken]
  split
  · exact ⟨session.notices, rfl⟩
  · exact ⟨session.notices ++ ns, rfl⟩

theorem onEngine_of_ok {act : Action σ α} {a : α} {e : σ} (called : act s.engine = .ok a e) :
    ∃ notices, onEngine act s = .ok a ⟨(Engine.takeNotices e).2, { s.session with notices }⟩ := by
  obtain ⟨notices, reported⟩ := withEngine_eq (S := S) (T := T) e s.session
  refine ⟨notices, ?_⟩
  rw [onEngine, called]
  exact congrArg _ reported

theorem onEngine_of_error {act : Action σ α} {x : Error} {e : σ}
    (called : act s.engine = .error x e) :
    ∃ notices, onEngine act s = .error x
      ⟨(Engine.takeNotices e).2, { s.session with notices }⟩ := by
  obtain ⟨notices, reported⟩ := withEngine_eq (S := S) (T := T) e s.session
  refine ⟨notices, ?_⟩
  rw [onEngine, called]
  exact congrArg _ reported

theorem of_onEngine_ok {act : Action σ α} {a : α} (done : onEngine act s = .ok a s') :
    ∃ e notices, act s.engine = .ok a e ∧
      s' = ⟨(Engine.takeNotices e).2, { s.session with notices }⟩ := by
  cases called : act s.engine with
  | ok b e =>
    obtain ⟨notices, run⟩ := onEngine_of_ok called
    cases run.symm.trans done
    exact ⟨e, notices, rfl, rfl⟩
  | error x e =>
    obtain ⟨notices, run⟩ := onEngine_of_error called
    cases run.symm.trans done

theorem of_onEngine_error {act : Action σ α} {x : Error} (failed : onEngine act s = .error x s') :
    ∃ e notices, act s.engine = .error x e ∧
      s' = ⟨(Engine.takeNotices e).2, { s.session with notices }⟩ := by
  cases called : act s.engine with
  | ok b e =>
    obtain ⟨notices, run⟩ := onEngine_of_ok called
    cases run.symm.trans failed
  | error y e =>
    obtain ⟨notices, run⟩ := onEngine_of_error called
    cases run.symm.trans failed
    exact ⟨e, notices, rfl, rfl⟩

theorem exists_finalState_onEngine (act : Action σ α) (s : Solver σ S T) :
    ∃ notices, (onEngine act).finalState s =
      ⟨(Engine.takeNotices (act.finalState s.engine)).2, { s.session with notices }⟩ := by
  cases called : act s.engine with
  | ok a e =>
    obtain ⟨notices, run⟩ := onEngine_of_ok called
    exact ⟨notices, by rw [finalState_ok run, finalState_ok called]⟩
  | error x e =>
    obtain ⟨notices, run⟩ := onEngine_of_error called
    exact ⟨notices, by rw [finalState_error run, finalState_error called]⟩

theorem declare_new {name : String}
    (new : s.session.declared.contains name = false) (sort : LogicSort) (make : Action σ S) :
    declare name sort make s = (do
      let made ← onEngine make
      record fun s => { s with
        declared := s.declared.insert name
        sorts := s.sorts.insert sort made }
      return sort : Action (Solver σ S T) LogicSort) s := by
  show (if s.session.declared.contains name then _ else _ : Action (Solver σ S T) LogicSort) s = _
  rw [new, if_neg Bool.false_ne_true]

theorem declare_taken {name : String}
    (taken : s.session.declared.contains name = true) (sort : LogicSort)
    (make : Action σ S) : declare name sort make s = .error (.duplicate .sort name) s := by
  show (if s.session.declared.contains name then _ else _ : Action (Solver σ S T) LogicSort) s = _
  rw [taken, if_pos rfl]
  rfl

theorem kept_withEngine (honoured : K.Honoured start) {e e' : σ} {session : Session S T}
    (coherent : Coherent K ⟨e, session⟩) (steps : K.Steps e e') :
    Kept K ⟨e, session⟩ (withEngine e' session) ∧
      SameTerms ⟨e, session⟩ (withEngine e' session) ∧
      K.Grows e' (withEngine e' session).engine := by
  obtain ⟨notices, reported⟩ := withEngine_eq (S := S) (T := T) e' session
  have later := honoured.takeNotices e' steps.1
  have grows := honoured.trans _ _ _ steps.2 later.2
  have mirrored := coherent.mirrored.grow honoured ⟨later.1, grows⟩
  rw [reported]
  refine ⟨⟨⟨?_, ?_⟩, ?_, grows, .refl _⟩, ⟨rfl, rfl, rfl⟩, later.2⟩
  · exact coherent.canonical.congr rfl rfl rfl rfl rfl (Nat.le_refl _) (Nat.le_refl _)
      coherent.canonical.memo
  · exact mirrored.congr rfl rfl rfl rfl mirrored.sorts
  · exact .congr rfl rfl rfl rfl rfl

theorem keeps_onEngine (honoured : K.Honoured start) (coherent : s.Coherent K)
    {act : Action σ α} {made : α → σ → Prop} (call : K.Calls act s.engine made) :
    Keeps K (onEngine act) s fun a s' =>
      (∃ e', made a e' ∧ K.Grows e' s'.engine) ∧ SameTerms s s' := by
  obtain ⟨engine, session⟩ := s
  have led := call coherent.mirrored.valid
  cases h : act engine with
  | ok a e' =>
    obtain ⟨steps, holds⟩ := (leads_ok h).mp led
    obtain ⟨kept, terms, grows⟩ := kept_withEngine honoured coherent steps
    have called : onEngine act ⟨engine, session⟩ = .ok a (withEngine (T := T) e' session) := by
      rw [onEngine, h]
    exact (leads_ok called).mpr ⟨kept, ⟨e', holds, grows⟩, terms⟩
  | error x e' =>
    obtain ⟨steps, may⟩ := (leads_error h).mp led
    obtain ⟨kept, -, -⟩ := kept_withEngine honoured coherent steps
    have called : onEngine act ⟨engine, session⟩ = .error x (withEngine (T := T) e' session) := by
      rw [onEngine, h]
    exact (leads_error called).mpr ⟨kept, may⟩

theorem keeps_aside (honoured : K.Honoured start) (coherent : s.Coherent K) {act : Action σ α}
    (aside : K.Aside act) :
    Keeps K (onEngine act) s fun _ s' => SameTerms s s' :=
  (keeps_onEngine honoured coherent (aside s.engine)).mono fun _ _ _ h => h.2

omit [Engine σ S T] in
theorem Coherent.unrecorded (coherent : s.Coherent K) (fresh : K.Fresh s.engine n) :
    s.Unrecorded K n := by
  intro t m found
  obtain ⟨u, hu, same⟩ := (coherent.canonical.natives t).mp (Session.contains_of_native found)
  have found' : s.session.natives[u]? = some m := by
    rw [← found]
    exact Std.HashMap.getElem?_congr (Term.beq_iff.mpr same)
  obtain ⟨ns, -, named⟩ := coherent.mirrored.names u m hu found'
  exact fresh m _ named

omit [Engine σ S T] in
theorem Unrecorded.congr (unrecorded : s.Unrecorded K n) (terms : SameTerms s s') :
    s'.Unrecorded K n := by
  intro t m found
  rw [terms.natives] at found
  exact unrecorded t m found

theorem keeps_make (honoured : K.Honoured start) (coherent : s.Coherent K) {act : Action σ T}
    {b : Blueprint T} (call : K.Calls act s.engine (K.Made s.engine b)) :
    Keeps K (onEngine act) s fun n s' => s'.Offers K b n ∧ SameTerms s s' := by
  refine (keeps_onEngine honoured coherent call).mono ?_
  rintro n s' _ ⟨⟨e', made, grows⟩, terms⟩
  exact ⟨⟨honoured.names e' _ n b grows made.1, (coherent.unrecorded made.2).congr terms⟩, terms⟩

theorem Offers.kept (honoured : K.Honoured start) {b : Blueprint T} (offers : s.Offers K b n)
    (kept : Kept K s s') (terms : SameTerms s s') : s'.Offers K b n :=
  ⟨honoured.names _ _ n b kept.grows offers.names, offers.unrecorded.congr terms⟩

theorem keeps_native (honoured : K.Honoured start) (coherent : s.Coherent K)
    (genuine : s.session.Genuine t) :
    Keeps K (native t) s fun n s' =>
      s = s' ∧ s.session.Has t ∧ s.session.natives[t]? = some n := by
  by_cases number : t.session = s.session.number
  · have ht := genuine.has number
    obtain ⟨n, found⟩ := coherent.native ht
    have known : s.session.native t = .ok n := by
      rw [Session.native, if_neg (not_not_intro number), found]
    refine keeps_ask honoured coherent (fun a h => ?_) fun e h => ?_
    · rw [known] at h
      cases h
      exact ⟨rfl, ht, found⟩
    · rw [known] at h
      cases h
  · have foreign : s.session.native t = .error (.usage (.foreignTerm t)) := by
      rw [Session.native, if_pos number]
    refine keeps_ask honoured coherent (fun a h => ?_) fun e h => ?_
    · rw [foreign] at h
      cases h
    · rw [foreign] at h
      cases h
      exact honoured.fails _ trivial

theorem wrapValue_eq_reading (n : T) (sort : LogicSort) (s : Solver σ S T) :
    wrapValue n sort s = leaf sort
      (.value (Engine.reading s.session.arbiter.aliasing s.engine n sort)) [] n s :=
  rfl

omit [Engine σ S T] in
theorem natives_eq_ask (ts : List Term) (s : Solver σ S T) :
    natives ts s = ask (fun session => ts.mapM session.native) s := by
  induction ts with
  | nil => rfl
  | cons t ts ih =>
    rw [natives, ask, List.mapM_cons, List.mapM_cons]
    cases found : s.session.native t with
    | error e =>
      have asked : native t s = .error e s := by rw [native, ask, found]
      exact bind_error asked
    | ok n =>
      have asked : native t s = .ok n s := by rw [native, ask, found]
      rw [bind_ok asked]
      rw [natives, ask] at ih
      cases others : ts.mapM s.session.native with
      | error e =>
        rw [others] at ih
        exact bind_error ih
      | ok ns =>
        rw [others] at ih
        exact bind_ok ih

theorem keeps_natives (honoured : K.Honoured start) (coherent : s.Coherent K) {ts : List Term}
    (genuine : ∀ t ∈ ts, s.session.Genuine t) :
    Keeps K (natives ts) s fun ns s' =>
      s = s' ∧ (∀ t ∈ ts, s.session.Has t) ∧ s.session.Renders ts ns := by
  induction ts with
  | nil =>
    exact keeps_pure honoured coherent ⟨rfl, fun t ht => absurd ht List.not_mem_nil, .nil⟩
  | cons t ts ih =>
    rw [natives, List.mapM_cons]
    refine (keeps_native honoured coherent (genuine t List.mem_cons_self)).bind honoured ?_
    rintro n _ _ ⟨same, ht, found⟩
    subst same
    refine (ih fun u hu => genuine u (List.mem_cons_of_mem _ hu)).bind honoured ?_
    rintro ns _ _ ⟨same, hts, renders⟩
    subst same
    refine keeps_pure honoured coherent ⟨rfl, ?_, .cons found renders⟩
    intro u hu
    cases List.mem_cons.mp hu with
    | inl same => exact same ▸ ht
    | inr hu => exact hts u hu

omit [Engine σ S T] in
theorem Mirrored.sorted (mirrored : s.Mirrored K) {ts : List Term} {ns : List T}
    (known : ∀ t ∈ ts, s.session.Has t) (renders : s.session.Renders ts ns) :
    List.Forall₂ (fun n sort => ∃ b, K.Names s.engine n b ∧ b.sort = sort) ns
      (ts.map Term.sort) := by
  induction renders with
  | nil => exact .nil
  | @cons t n ts ns found _ ih =>
    obtain ⟨args, -, named⟩ := mirrored.names t n (known t List.mem_cons_self) found
    exact .cons ⟨_, named, rfl⟩ (ih fun u hu => known u (List.mem_cons_of_mem _ hu))

omit [Engine σ S T] in
theorem Coherent.renders (coherent : s.Coherent K) {ts : List Term}
    (known : ∀ t ∈ ts, s.session.Has t) : ∃ ns, s.session.Renders ts ns := by
  induction ts with
  | nil => exact ⟨[], .nil⟩
  | cons t ts ih =>
    obtain ⟨n, found⟩ := coherent.native (known t List.mem_cons_self)
    obtain ⟨ns, renders⟩ := ih fun u hu => known u (List.mem_cons_of_mem _ hu)
    exact ⟨n :: ns, .cons found renders⟩

omit [Engine σ S T] in
theorem keeps_get {next : Solver σ S T → Action (Solver σ S T) α}
    {post : α → Solver σ S T → Prop} (keeps : Keeps K (next s) s post) :
    Keeps K (get >>= next) s post :=
  keeps

theorem keeps_useSort (honoured : K.Honoured start) (coherent : s.Coherent K) {sort : LogicSort}
    {made : S} (denotes : K.Denotes sort made) :
    Keeps K (do
      record fun s => { s with sorts := s.sorts.insert sort made }
      return made) s fun made s' => K.Denotes sort made ∧ SameTerms s s' := by
  have used : Coherent K
      ⟨s.engine, { s.session with sorts := s.session.sorts.insert sort made }⟩ := by
    refine coherent.congr rfl rfl rfl rfl rfl coherent.canonical.assumptions rfl
      coherent.canonical.memo rfl ?_
    intro sort' made' found
    rw [Std.HashMap.getElem?_insert] at found
    split at found
    · rename_i same
      cases found
      exact eq_of_beq same ▸ denotes
    · exact coherent.mirrored.sorts sort' made' found
  refine (keeps_record honoured used (.congr rfl rfl rfl rfl rfl) rfl).bind honoured ?_
  intro _ _ kept recorded
  subst recorded
  exact keeps_pure honoured kept.coherent ⟨denotes, rfl, rfl, rfl⟩

theorem keeps_firstUse (honoured : K.Honoured start) (coherent : s.Coherent K) {act : Action σ S}
    {sort : LogicSort} (call : K.Calls act s.engine fun made _ => K.Denotes sort made) :
    Keeps K (do
      let made ← onEngine act
      record fun s => { s with sorts := s.sorts.insert sort made }
      return made) s fun made s' => K.Denotes sort made ∧ SameTerms s s' := by
  refine (keeps_onEngine honoured coherent call).bind honoured ?_
  rintro made s' kept ⟨⟨_, denotes, _⟩, terms⟩
  exact (keeps_useSort honoured kept.coherent denotes).mono fun _ _ _ h => ⟨h.1, terms.trans h.2⟩

theorem keeps_lateUse (honoured : K.Honoured start) (coherent : s'.Coherent K)
    (terms : SameTerms s s') {act : Action σ S} {sort : LogicSort}
    (call : K.Calls act s'.engine fun made _ => K.Denotes sort made) :
    Keeps K (do
      let made ← onEngine act
      record fun s => { s with sorts := s.sorts.insert sort made }
      return made) s' fun made s'' => K.Denotes sort made ∧ SameTerms s s'' :=
  (keeps_firstUse honoured coherent call).mono fun _ _ _ h => ⟨h.1, terms.trans h.2⟩

mutual
theorem keeps_nativeSort (honoured : K.Honoured start) (sort : LogicSort) {s : Solver σ S T}
    (coherent : s.Coherent K) :
    Keeps K (nativeSort sort) s fun made s' => K.Denotes sort made ∧ SameTerms s s' := by
  rw [nativeSort]
  refine keeps_get ?_
  split
  · rename_i known found
    exact keeps_pure honoured coherent ⟨coherent.mirrored.sorts sort known found, .refl s⟩
  · cases sort with
    | bool => exact keeps_firstUse honoured coherent (honoured.makeSort _ .bool (.inl rfl))
    | int => exact keeps_firstUse honoured coherent (honoured.makeSort _ .int (.inr (.inl rfl)))
    | real => exact keeps_firstUse honoured coherent (honoured.makeSort _ .real (.inr (.inr rfl)))
    | bitVec w => exact keeps_firstUse honoured coherent (honoured.makeBitVecSort _ w)
    | array index element =>
      refine (keeps_nativeSort honoured index coherent).bind honoured ?_
      rintro i s' kept ⟨hi, terms⟩
      refine (keeps_nativeSort honoured element kept.coherent).bind honoured ?_
      rintro x s'' kept ⟨hx, terms'⟩
      exact keeps_lateUse honoured kept.coherent (terms.trans terms')
        (honoured.makeArraySort _ _ _ i x hi hx)
    | function domain range =>
      refine (keeps_nativeSorts honoured domain coherent).bind honoured ?_
      rintro ds s' kept ⟨hds, terms⟩
      refine (keeps_nativeSort honoured range kept.coherent).bind honoured ?_
      rintro r s'' kept ⟨hr, terms'⟩
      exact keeps_lateUse honoured kept.coherent (terms.trans terms')
        (honoured.makeFunctionSort _ _ _ ds r hds hr)
    | uninterpreted | datatype | param | unresolved =>
      exact keeps_throw honoured coherent trivial
theorem keeps_nativeSorts (honoured : K.Honoured start) (sorts : List LogicSort)
    {s : Solver σ S T} (coherent : s.Coherent K) :
    Keeps K (nativeSorts sorts) s fun made s' =>
      List.Forall₂ K.Denotes sorts made ∧ SameTerms s s' := by
  cases sorts with
  | nil =>
    rw [nativeSorts]
    exact keeps_pure honoured coherent ⟨.nil, .refl s⟩
  | cons sort rest =>
    rw [nativeSorts]
    refine (keeps_nativeSort honoured sort coherent).bind honoured ?_
    rintro first s' kept ⟨one, terms⟩
    refine (keeps_nativeSorts honoured rest kept.coherent).bind honoured ?_
    rintro made s'' kept ⟨all, terms'⟩
    exact keeps_pure honoured kept.coherent ⟨.cons one all, terms.trans terms'⟩
end

theorem keeps_derive (honoured : K.Honoured start) (coherent : s.Coherent K) (op : Op)
    (args : List LogicSort) :
    Keeps K (derive op args) s fun derived s' =>
      op.resultSort args = .ok derived ∧ SameTerms s s' := by
  have memo := coherent.canonical.memo
  cases h : SortArbiter.derive op args s.session.arbiter with
  | ok derived arbiter =>
    obtain ⟨result, faithful, aliasing⟩ := SortArbiter.derive_ok memo h
    have run : derive op args s = .ok derived ⟨s.engine, { s.session with arbiter }⟩ := by
      rw [derive, h]
    refine (leads_ok run).mpr
      ⟨⟨?_, .congr rfl rfl rfl rfl aliasing, honoured.refl _, .refl _⟩, result, rfl, rfl, rfl⟩
    exact coherent.congr rfl rfl rfl rfl rfl coherent.canonical.assumptions rfl faithful aliasing
      coherent.mirrored.sorts
  | error e arbiter =>
    obtain ⟨result, same⟩ := SortArbiter.derive_error h
    subst same
    have run : derive op args s = .error e s := by
      rw [derive, h]
    refine (leads_error run).mpr ⟨.refl honoured coherent, honoured.fails e ?_⟩
    exact (Op.plainly_resultSort op args e result).plain

theorem keeps_reconcile (honoured : K.Honoured start) (coherent : s.Coherent K) {op : Op}
    {args : List LogicSort} {derived : Option LogicSort} (result : op.resultSort args = .ok derived)
    (reported : LogicSort) :
    Keeps K (reconcile op derived reported) s fun sort s' =>
      op.Gives args sort ∧ SameTerms s s' := by
  have gives := SortArbiter.gives_reconcile result s.session.arbiter reported
  cases h : s.session.arbiter.reconcile op derived reported with
  | mk sort notice =>
    rw [h] at gives
    cases notice with
    | none =>
      have run : reconcile op derived reported s = .ok sort s := by
        rw [reconcile, update, h]
      exact (leads_ok run).mpr ⟨.refl honoured coherent, gives, .refl s⟩
    | some notice =>
      have run : reconcile op derived reported s = .ok sort ⟨s.engine, s.session.note notice⟩ := by
        rw [reconcile, update, h]
      refine (leads_ok run).mpr
        ⟨⟨?_, .congr rfl rfl rfl rfl rfl, honoured.refl _, .refl _⟩, gives, rfl, rfl, rfl⟩
      exact coherent.congr rfl rfl rfl rfl rfl coherent.canonical.assumptions rfl
        coherent.canonical.memo rfl coherent.mirrored.sorts

omit [Engine σ S T] in
/-- A new term whose engine's term is on offer. -/
theorem Coherent.mirrored_add (coherent : s.Coherent K) (symm : ∀ m n, K.Apart m n → K.Apart n m)
    {ns : List T} (fresh : s.session.table.find? t = none) (id : t.id = s.session.supply.nextTerm)
    (renders : s.session.Renders t.children ns) (offers : s.Offers K ⟨t.op, t.sort, t.kind, ns⟩ n) :
    Mirrored K ⟨s.engine, s.session.add t n⟩ := by
  have interned := coherent.canonical.toInterned
  have extension := interned.extends_add fresh id n
  have mirrored := coherent.mirrored
  have old : ∀ u m, s.session.Has u → (s.session.add t n).natives[u]? = some m →
      s.session.natives[u]? = some m := by
    intro u m hu found
    have smaller := interned.supplied u hu
    rwa [Session.getElem?_natives_add, if_neg (by omega)] at found
  have new : ∀ m, (s.session.add t n).natives[t]? = some m → m = n := by
    intro m found
    rw [Session.getElem?_natives_add, if_pos rfl] at found
    exact (Option.some.inj found).symm
  refine ⟨mirrored.valid, mirrored.aliases, mirrored.sorts, ?_, ?_⟩
  · intro u m hu found
    cases (Session.has_add fresh n).mp hu with
    | inl hu =>
      obtain ⟨ms, renders, named⟩ := mirrored.names u m hu (old u m hu found)
      exact ⟨ms, renders.extend extension, named⟩
    | inr same =>
      subst same
      rw [new m found]
      exact ⟨ns, renders.extend extension, offers.names⟩
  · intro u v m k hu hv other found found'
    cases (Session.has_add fresh n).mp hu with
    | inl hu =>
      have recorded := old u m hu found
      cases (Session.has_add fresh n).mp hv with
      | inl hv => exact mirrored.apart u v m k hu hv other recorded (old v k hv found')
      | inr same =>
        rw [new k (same ▸ found')]
        exact offers.unrecorded u m recorded
    | inr same =>
      cases (Session.has_add fresh n).mp hv with
      | inl hv =>
        rw [new m (same ▸ found)]
        exact symm _ _ (offers.unrecorded v k (old v k hv found'))
      | inr same' => exact absurd (same.trans same'.symm) other

/-- Interning, where the engine's term is on offer for the structure. What is not recorded stays so,
if it is apart from that term. -/
theorem keeps_intern (honoured : K.Honoured start) (coherent : s.Coherent K) {op : Op}
    {sort : LogicSort} {kind : TermKind} {children : List Term} {ns : List T}
    (renders : s.session.Renders children ns) (known : ∀ c ∈ children, s.session.Has c)
    (formed : (s.session.candidate op sort kind children).Formed)
    (other : ∀ name, kind ≠ .symbol name) (offers : s.Offers K ⟨op, sort, kind, ns⟩ n) :
    Keeps K (update (Session.intern op sort kind children n)) s fun t s' =>
      Session.InternedAs op sort kind children n s.session t s'.session ∧
        ∀ m, s.Unrecorded K m → K.Apart n m → s'.Unrecorded K m := by
  have interns := coherent.canonical.toInterned.intern known formed n
  generalize interned : s.session.intern op sort kind children n = result at interns
  obtain ⟨t, session⟩ := result
  dsimp only at interns
  have run : update (Session.intern op sort kind children n) s = .ok t ⟨s.engine, session⟩ := by
    rw [update, interned]
  refine (leads_ok run).mpr ⟨⟨?_, interns.extension, honoured.refl _, interns.drawn⟩, interns, ?_⟩
  · cases interns.known_or_new with
    | inl hit =>
      obtain ⟨rfl, -⟩ := hit
      exact ⟨coherent.canonical.tick,
        coherent.mirrored.congr rfl rfl rfl rfl coherent.mirrored.sorts⟩
    | inr miss =>
      obtain ⟨rfl, fresh, id⟩ := miss
      obtain ⟨rfl, rfl, rfl, rfl⟩ := interns.structure_eq
      exact ⟨coherent.canonical.add_other interns.interned fresh other,
        coherent.mirrored_add honoured.symm fresh id renders offers⟩
  · intro m unrecorded apart u k found
    cases interns.known_or_new with
    | inl hit =>
      obtain ⟨rfl, -⟩ := hit
      exact unrecorded u k found
    | inr miss =>
      obtain ⟨rfl, -, -⟩ := miss
      rw [Session.getElem?_natives_add] at found
      split at found
      · cases found
        exact apart
      · exact unrecorded u k found

omit [Engine σ S T] in
/-- At most the answer is new, and if it was known, nothing has changed. -/
structure Frugal (s : Solver σ S T) (t : Term) (s' : Solver σ S T) : Prop where
  only : ∀ u, s'.session.Has u → s.session.Has u ∨ u = t
  same : s.session.Has t → SameTerms s s'

omit [Engine σ S T] in
theorem SameTerms.has (terms : SameTerms s s') : s'.session.Has t ↔ s.session.Has t := by
  rw [Session.Has, Session.Has, terms.table]

omit [Engine σ S T] in
theorem SameTerms.frugal {s'' : Solver σ S T} (terms : SameTerms s s') (frugal : Frugal s' t s'') :
    Frugal s t s'' := by
  refine ⟨fun u hu => ?_, fun ht => terms.trans (frugal.same (terms.has.mpr ht))⟩
  rw [← terms.has]
  exact frugal.only u hu

omit [Engine σ S T] in
theorem frugal_of_interned {op : Op} {sort : LogicSort} {kind : TermKind} {children : List Term}
    (interns : Session.InternedAs op sort kind children n s.session t s'.session) :
    Frugal s t s' := by
  obtain ⟨engine, session⟩ := s'
  cases interns.known_or_new with
  | inl hit =>
    obtain ⟨rfl, -⟩ := hit
    exact ⟨fun u hu => .inl hu, fun _ => ⟨rfl, rfl, rfl⟩⟩
  | inr miss =>
    obtain ⟨rfl, fresh, -⟩ := miss
    refine ⟨fun u hu => (Session.has_add fresh n).mp hu, fun ht => ?_⟩
    cases fresh.symm.trans ht

end FormulaGraph.Solver
