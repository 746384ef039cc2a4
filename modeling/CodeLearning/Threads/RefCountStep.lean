import CodeLearning.Threads.RefCountInv

/-!
# A statement keeps the invariant of the reference counts

One lemma for each part of the invariant says what a statement of one thread leaves of it: the
owners of the locks, the histories of the objects, the references, the chains, and what the other
threads and the thread itself know.
-/

namespace CodeLearning.Threads.RefCount

open CInt LinkedList

section Statement

variable {T : Type} {s : State T} {t u : T} {a b : Addr} {chain : Fin nhash → List Addr}
  {p p' : Pc} {act : Act} [DecidableEq T] [Fintype T]

/-! ## Owners of the locks -/

omit [Fintype T] in
/-- A property of every thread after a statement of one thread. -/
theorem forall_pc {motive : T → Pc → Prop} (others : ∀ u, u ≠ t → motive u (s.pc u))
    (self : motive t p') (u : T) : motive u (Function.update s.pc t p' u) := by
  by_cases same : u = t
  · subst same
    rw [Function.update_self]
    exact self
  · rw [Function.update_of_ne same]
    exact others u same

/-- The owner of `hashlock` after a step. -/
theorem Inv.hash_step (inv : Inv chain s) (rule : Discipline (s.pc t) act p')
    (enabled : Enabled s act) (u : T) :
    (((perform s t act).goTo t p').pc u).hasHash = true ↔
      ((perform s t act).goTo t p').hashlock = some u := by
  show (Function.update (perform s t act).pc t p' u).hasHash = true ↔
    (perform s t act).hashlock = some u
  rw [perform_pc]
  revert u
  cases act with
  | lockHash =>
    have free : s.hashlock = none := enabled
    refine forall_pc (motive := fun u pc => pc.hasHash = true ↔ some t = some u) ?_ ?_
    · intro u other
      have none_ := inv.hash u
      rw [free] at none_
      simp [none_, other.symm]
    · simp [rule.hash.2]
  | unlockHash =>
    have mine : s.hashlock = some t := (inv.hash t).mp rule.hash.1
    refine forall_pc (motive := fun u pc => pc.hasHash = true ↔ none = some u) ?_ ?_
    · intro u other
      have none_ := inv.hash u
      rw [mine] at none_
      simp [none_, other.symm]
    · simp [rule.hash.2]
  | _ =>
    refine forall_pc (motive := fun u pc => pc.hasHash = true ↔ s.hashlock = some u)
      (fun u _ => inv.hash u) ?_
    have kept : p'.hasHash = (s.pc t).hasHash := rule.hash
    rw [kept]
    exact inv.hash t

/-- The owners of the mutexes after a step. -/
theorem Inv.lock_step (inv : Inv chain s) (rule : Discipline (s.pc t) act p')
    (enabled : Enabled s act) (before : Before chain s act) (u : T) (a : Addr) :
    (((perform s t act).goTo t p').pc u).locked = some a ↔
      ((perform s t act).goTo t p').lock a = .held u := by
  show (Function.update (perform s t act).pc t p' u).locked = some a ↔
    (perform s t act).lock a = .held u
  rw [perform_pc]
  revert u
  -- a mutex that was not held, or by this thread, is held by no other
  have others : ∀ fp u, u ≠ t → (s.lock fp = .free ∨ s.lock fp = .held t) →
      (s.pc u).locked ≠ some fp := by
    intro fp u other shape mine
    have hers := (inv.lock u fp).mp mine
    rcases shape with free | held
    · simp [free] at hers
    · rw [held] at hers
      exact other (Mutex.held.inj hers).symm
  cases act with
  | lockFoo fp =>
    have free : s.lock fp = .free := enabled
    obtain ⟨nothing, now⟩ := rule.locked
    by_cases same : a = fp
    · subst same
      show ∀ u, _ ↔ Function.update s.lock a (.held t) a = .held u
      rw [Function.update_self]
      refine forall_pc (motive := fun u pc => pc.locked = some a ↔ Mutex.held t = .held u) ?_ ?_
      · intro u other
        simp [others a u other (Or.inl free), other.symm]
      · simp [now]
    · show ∀ u, _ ↔ Function.update s.lock fp (.held t) a = .held u
      rw [Function.update_of_ne same]
      refine forall_pc (motive := fun u pc => pc.locked = some a ↔ s.lock a = .held u)
        (fun u _ => inv.lock u a) ?_
      have none_ := inv.lock t a
      rw [nothing] at none_
      have different : fp ≠ a := fun equal => same equal.symm
      simp only [now, Option.some.injEq, different, false_iff]
      simpa using none_
  | unlockFoo fp =>
    obtain ⟨mine, now⟩ := rule.locked
    have held := (inv.lock t fp).mp mine
    by_cases same : a = fp
    · subst same
      show ∀ u, _ ↔ Function.update s.lock a .free a = .held u
      rw [Function.update_self]
      refine forall_pc (motive := fun u pc => pc.locked = some a ↔ Mutex.free = .held u) ?_ ?_
      · intro u other
        simp [others a u other (Or.inr held)]
      · simp [now]
    · show ∀ u, _ ↔ Function.update s.lock fp .free a = .held u
      rw [Function.update_of_ne same]
      refine forall_pc (motive := fun u pc => pc.locked = some a ↔ s.lock a = .held u)
        (fun u _ => inv.lock u a) ?_
      have none_ := inv.lock t a
      have different : fp ≠ a := fun equal => same equal.symm
      rw [mine] at none_
      simp only [now]
      simpa [different] using none_
  | destroy fp =>
    have free : s.lock fp = .free := before
    have kept : p'.locked = (s.pc t).locked := rule.locked
    show ∀ u, _ ↔ Function.update s.lock fp .destroyed a = .held u
    by_cases same : a = fp
    · subst same
      rw [Function.update_self]
      have nobody : ∀ u, (s.pc u).locked = some a ↔ Mutex.destroyed = .held u := by
        intro u
        rw [inv.lock u a, free]
        simp
      refine forall_pc (motive := fun u pc => pc.locked = some a ↔ Mutex.destroyed = .held u)
        (fun u _ => nobody u) ?_
      rw [kept]
      exact nobody t
    · rw [Function.update_of_ne same]
      refine forall_pc (motive := fun u pc => pc.locked = some a ↔ s.lock a = .held u)
        (fun u _ => inv.lock u a) ?_
      rw [kept]
      exact inv.lock t a
  | _ =>
    refine forall_pc (motive := fun u pc => pc.locked = some a ↔ s.lock a = .held u)
      (fun u _ => inv.lock u a) ?_
    have kept : p'.locked = (s.pc t).locked := rule.locked
    rw [kept]
    exact inv.lock t a

omit [DecidableEq T] in
/-- A step makes no object and removes none. -/
theorem Inv.absent_step (inv : Inv chain s) (rule : Discipline (s.pc t) act p')
    (enabled : Enabled s act) (before : Before chain s act) (a : Addr) :
    (perform s t act).lock a = .absent ↔ s.lock a = .absent := by
  have changed : ∀ fp (m : Mutex T), m ≠ .absent → s.lock fp ≠ .absent →
      (Function.update s.lock fp m a = .absent ↔ s.lock a = .absent) := by
    intro fp m present old
    by_cases same : a = fp
    · subst same
      simp [present, old]
    · rw [Function.update_of_ne same]
  cases act with
  | lockFoo fp =>
    have free : s.lock fp = .free := enabled
    exact changed fp _ (by simp) (by simp [free])
  | unlockFoo fp =>
    have mine := (inv.lock t fp).mp rule.locked.1
    exact changed fp _ (by simp) (by simp [mine])
  | destroy fp =>
    have free : s.lock fp = .free := before
    exact changed fp _ (by simp) (by simp [free])
  | _ => rfl

/-! ## Histories of the objects -/

/-- An object that a step unlinks was linked and not unlinked. -/
theorem Inv.unlinked (inv : Inv chain s) (rule : Discipline (s.pc t) act p')
    (before : Before chain s act)
    (unlinks : act = .unlinkHead a ∨ ∃ tfp, act = .unlinkAfter a tfp) :
    Linked s a ∧ total s a = 1 := by
  have facts : (s.pc t).owned = some a ∧ (s.pc t).making = none ∧ (s.foo a).count = 1 := by
    rcases unlinks with rfl | ⟨tfp, rfl⟩
    · exact ⟨rule.owned.1, rule.making.1, before.1⟩
    · exact ⟨rule.owned.1, rule.making.1, before.1⟩
  obtain ⟨owned, old, last⟩ := facts
  obtain ⟨present, kept⟩ := inv.alive (held_pos owned)
  have count := inv.count a present kept
  exact ⟨inv.linked_of_last owned old last, by omega⟩

/-- Every step is one of these. -/
theorem Inv.events (inv : Inv chain s) (rule : Discipline (s.pc t) act p')
    (before : Before chain s act) : Events s t p' ((perform s t act).goTo t p') := by
  cases act with
  | setHead fp => exact .linked fp rule.making.1 rule.making.2 rule.dropping rfl rfl rfl
  | unlinkHead fp =>
    have was := (inv.unlinked rule before (Or.inl rfl)).1
    exact .unlinked fp was (rule.making.2.trans rule.making.1.symm) rule.dropping.1
      rule.dropping.2 rfl rfl rfl
  | unlinkAfter fp tfp =>
    have was := (inv.unlinked rule before (Or.inr ⟨tfp, rfl⟩)).1
    exact .unlinked fp was (rule.making.2.trans rule.making.1.symm) rule.dropping.1
      rule.dropping.2 rfl rfl rfl
  | destroy fp => exact .destroyed fp rule.making rule.dropping.1 rule.dropping.2 rfl rfl rfl
  | _ => exact .none rule.making rule.dropping rfl rfl rfl

section Histories

variable {s' : State T}

omit [Fintype T]

/-- Objects that are not linked yet stay in order when no object is linked. -/
theorem Making.kept (making : Making s) (pc : s'.pc = Function.update s.pc t p')
    (kept : p'.making = (s.pc t).making) (links : s'.links = s.links)
    (present : ∀ fp, s'.lock fp = .absent ↔ s.lock fp = .absent) : Making s' := by
  have same : ∀ u, (s'.pc u).making = (s.pc u).making := by
    rw [pc]
    exact forall_pc (motive := fun u pc => pc.making = (s.pc u).making) (fun _ _ => rfl) kept
  constructor
  · intro u fp
    rw [same, links]
    exact making.unlinked u fp
  · intro u v fp
    rw [same, same]
    exact making.alone u v fp
  · intro fp
    simp only [same, links, ne_eq, present]
    exact making.exists_maker fp

/-- Objects that are not linked yet stay in order when one of them is linked. -/
theorem Making.link (making : Making s) (pc : s'.pc = Function.update s.pc t p')
    (new : (s.pc t).making = some a) (after : p'.making = none)
    (links : s'.links = Function.update s.links a (s.links a + 1))
    (present : ∀ fp, s'.lock fp = .absent ↔ s.lock fp = .absent) : Making s' := by
  -- another thread makes another object
  have others : ∀ u fp, (s'.pc u).making = some fp → (s.pc u).making = some fp ∧ fp ≠ a := by
    rw [pc]
    refine forall_pc (motive := fun u pc => ∀ fp, pc.making = some fp →
      (s.pc u).making = some fp ∧ fp ≠ a) ?_ (by simp [after])
    intro u other fp makes
    refine ⟨makes, ?_⟩
    rintro rfl
    exact other (making.alone u t fp makes new)
  constructor
  · intro u fp makes
    obtain ⟨before, different⟩ := others u fp makes
    rw [links, Function.update_of_ne different]
    exact making.unlinked u fp before
  · intro u v fp one two
    exact making.alone u v fp (others u fp one).1 (others v fp two).1
  · intro fp there notLinked
    have different : fp ≠ a := by
      rintro rfl
      rw [links, Function.update_self] at notLinked
      omega
    rw [links, Function.update_of_ne different] at notLinked
    obtain ⟨u, makes⟩ :=
      making.exists_maker fp (fun gone => there ((present fp).mpr gone)) notLinked
    have other : u ≠ t := by
      rintro rfl
      rw [new] at makes
      exact different (Option.some.inj makes).symm
    exact ⟨u, by rw [pc, Function.update_of_ne other]; exact makes⟩

/-- Objects that are not destroyed yet stay in order when no object is unlinked or destroyed. -/
theorem Dropping.kept (dropping : Dropping s) (pc : s'.pc = Function.update s.pc t p')
    (kept : p'.dropping = (s.pc t).dropping) (unlinks : s'.unlinks = s.unlinks)
    (destroys : s'.destroys = s.destroys) : Dropping s' := by
  have same : ∀ u, (s'.pc u).dropping = (s.pc u).dropping := by
    rw [pc]
    exact forall_pc (motive := fun u pc => pc.dropping = (s.pc u).dropping) (fun _ _ => rfl) kept
  constructor
  · intro u fp
    rw [same, unlinks, destroys]
    exact dropping.unlinked u fp
  · intro u v fp
    rw [same, same]
    exact dropping.alone u v fp
  · intro fp
    simp only [same, unlinks, destroys]
    exact dropping.exists_dropper fp

/-- Objects that are not destroyed yet stay in order when another object is unlinked. -/
theorem Dropping.unlink (dropping : Dropping s) (once : Once s)
    (pc : s'.pc = Function.update s.pc t p') (was : Linked s a)
    (none_ : (s.pc t).dropping = none) (after : p'.dropping = some a)
    (unlinks : s'.unlinks = Function.update s.unlinks a (s.unlinks a + 1))
    (destroys : s'.destroys = s.destroys) : Dropping s' := by
  have never := was.2
  have who : ∀ u fp, (s'.pc u).dropping = some fp →
      (u = t ∧ fp = a) ∨ ((s.pc u).dropping = some fp ∧ fp ≠ a) := by
    rw [pc]
    refine forall_pc (motive := fun u pc => ∀ fp, pc.dropping = some fp →
      (u = t ∧ fp = a) ∨ ((s.pc u).dropping = some fp ∧ fp ≠ a)) ?_ ?_
    · intro u _ fp drops
      refine Or.inr ⟨drops, ?_⟩
      rintro rfl
      have twice := (dropping.unlinked u fp drops).1
      omega
    · intro fp drops
      rw [after] at drops
      exact Or.inl ⟨rfl, (Option.some.inj drops).symm⟩
  constructor
  · intro u fp drops
    rw [unlinks, destroys]
    obtain ⟨-, rfl⟩ | ⟨before, different⟩ := who u fp drops
    · have bounds := once fp
      rw [Function.update_self]
      omega
    · rw [Function.update_of_ne different]
      exact dropping.unlinked u fp before
  · intro u v fp one two
    obtain ⟨rfl, rfl⟩ | ⟨beforeU, differentU⟩ := who u fp one
    · obtain ⟨rfl, -⟩ | ⟨-, different⟩ := who v fp two
      · rfl
      · exact absurd rfl different
    · obtain ⟨-, rfl⟩ | ⟨beforeV, -⟩ := who v fp two
      · exact absurd rfl differentU
      · exact dropping.alone u v fp beforeU beforeV
  · intro fp gone standing
    by_cases same : fp = a
    · subst same
      exact ⟨t, by rw [pc, Function.update_self, after]⟩
    · rw [unlinks, Function.update_of_ne same] at gone
      rw [destroys] at standing
      obtain ⟨u, drops⟩ := dropping.exists_dropper fp gone standing
      have other : u ≠ t := by
        rintro rfl
        rw [none_] at drops
        cases drops
      exact ⟨u, by rw [pc, Function.update_of_ne other]; exact drops⟩

/-- Objects that are not destroyed yet stay in order when one of them is destroyed. -/
theorem Dropping.destroy (dropping : Dropping s) (pc : s'.pc = Function.update s.pc t p')
    (old : (s.pc t).dropping = some a) (after : p'.dropping = none)
    (unlinks : s'.unlinks = s.unlinks)
    (destroys : s'.destroys = Function.update s.destroys a (s.destroys a + 1)) :
    Dropping s' := by
  have others : ∀ u fp, (s'.pc u).dropping = some fp →
      (s.pc u).dropping = some fp ∧ fp ≠ a := by
    rw [pc]
    refine forall_pc (motive := fun u pc => ∀ fp, pc.dropping = some fp →
      (s.pc u).dropping = some fp ∧ fp ≠ a) ?_ (by simp [after])
    intro u other fp drops
    refine ⟨drops, ?_⟩
    rintro rfl
    exact other (dropping.alone u t fp drops old)
  constructor
  · intro u fp drops
    obtain ⟨before, different⟩ := others u fp drops
    rw [unlinks, destroys, Function.update_of_ne different]
    exact dropping.unlinked u fp before
  · intro u v fp one two
    exact dropping.alone u v fp (others u fp one).1 (others v fp two).1
  · intro fp gone standing
    have different : fp ≠ a := by
      rintro rfl
      rw [destroys, Function.update_self] at standing
      omega
    rw [unlinks] at gone
    rw [destroys, Function.update_of_ne different] at standing
    obtain ⟨u, drops⟩ := dropping.exists_dropper fp gone standing
    have other : u ≠ t := by
      rintro rfl
      rw [old] at drops
      exact different (Option.some.inj drops).symm
    exact ⟨u, by rw [pc, Function.update_of_ne other]; exact drops⟩

omit [DecidableEq T] in
/-- A history that changes at one object stays in order when it does there. -/
theorem Once.step (once : Once s) (links : ∀ fp, fp ≠ a → s'.links fp = s.links fp)
    (unlinks : ∀ fp, fp ≠ a → s'.unlinks fp = s.unlinks fp)
    (destroys : ∀ fp, fp ≠ a → s'.destroys fp = s.destroys fp)
    (here : s'.links a ≤ 1 ∧ s'.unlinks a ≤ s'.links a ∧ s'.destroys a ≤ s'.unlinks a) :
    Once s' := by
  intro fp
  by_cases same : fp = a
  · subst same
    exact here
  · rw [links fp same, unlinks fp same, destroys fp same]
    exact once fp

end Histories

/-- The histories after a step. -/
theorem Inv.history_step {s' : State T} (inv : Inv chain s) (events : Events s t p' s')
    (pc : s'.pc = Function.update s.pc t p')
    (present : ∀ fp, s'.lock fp = .absent ↔ s.lock fp = .absent) :
    Making s' ∧ Dropping s' ∧ Once s' := by
  cases events with
  | none making dropping links unlinks destroys =>
    refine ⟨inv.making.kept pc making links present,
      inv.dropping.kept pc dropping unlinks destroys, ?_⟩
    intro fp
    rw [links, unlinks, destroys]
    exact inv.once fp
  | linked fp making after dropping links unlinks destroys =>
    refine ⟨inv.making.link pc making after links present,
      inv.dropping.kept pc dropping unlinks destroys, ?_⟩
    have notYet := inv.making.unlinked t fp making
    have bounds := inv.once fp
    refine inv.once.step (a := fp) ?_ (by simp [unlinks]) (by simp [destroys]) ?_
    · intro other different
      rw [links, Function.update_of_ne different]
    · rw [links, unlinks, destroys, Function.update_self]
      omega
  | unlinked fp was making dropping after links unlinks destroys =>
    refine ⟨inv.making.kept pc making links present,
      inv.dropping.unlink inv.once pc was dropping after unlinks destroys, ?_⟩
    have linked := was.1
    have never := was.2
    have bounds := inv.once fp
    refine inv.once.step (a := fp) (by simp [links]) ?_ (by simp [destroys]) ?_
    · intro other different
      rw [unlinks, Function.update_of_ne different]
    · rw [links, unlinks, destroys, Function.update_self]
      omega
  | destroyed fp making dropping after links unlinks destroys =>
    refine ⟨inv.making.kept pc making links present,
      inv.dropping.destroy pc dropping after unlinks destroys, ?_⟩
    have was := inv.dropping.unlinked t fp dropping
    have bounds := inv.once fp
    refine inv.once.step (a := fp) (by simp [links]) (by simp [unlinks]) ?_ ?_
    · intro other different
      rw [destroys, Function.update_of_ne different]
    · rw [links, unlinks, destroys, Function.update_self]
      omega

omit [DecidableEq T] in
/-- Where there is no object, none was linked, also after a step. -/
theorem Inv.links_step {s' : State T} (inv : Inv chain s) (events : Events s t p' s')
    (absent : s.lock a = .absent) : s'.links a = 0 := by
  have old := (inv.absent a absent).1
  cases events with
  | none making dropping links unlinks destroys => rw [links, old]
  | linked fp making after dropping links unlinks destroys =>
    have there := (inv.alive (held_pos (owned_of_making making))).1
    have different : a ≠ fp := by
      rintro rfl
      exact there absent
    rw [links, Function.update_of_ne different, old]
  | unlinked fp was making dropping after links unlinks destroys => rw [links, old]
  | destroyed fp making dropping after links unlinks destroys => rw [links, old]

/-- A destroyed mutex is counted after a step. -/
theorem Inv.destroyed_step (inv : Inv chain s)
    (destroyed : ((perform s t act).goTo t p').lock a = .destroyed) :
    ((perform s t act).goTo t p').destroys a ≠ 0 := by
  have changed : ∀ fp (m : Mutex T), m ≠ .destroyed →
      Function.update s.lock fp m a = .destroyed → s.destroys a ≠ 0 := by
    intro fp m other now
    by_cases same : a = fp
    · subst same
      rw [Function.update_self] at now
      exact absurd now other
    · rw [Function.update_of_ne same] at now
      exact inv.destroyed a now
  cases act with
  | lockFoo fp => exact changed fp _ (by simp) destroyed
  | unlockFoo fp => exact changed fp _ (by simp) destroyed
  | destroy fp =>
    show Function.update s.destroys fp (s.destroys fp + 1) a ≠ 0
    have now : Function.update s.lock fp .destroyed a = .destroyed := destroyed
    by_cases same : a = fp
    · subst same
      rw [Function.update_self]
      omega
    · rw [Function.update_of_ne same] at now ⊢
      exact inv.destroyed a now
  | _ => exact inv.destroyed a destroyed

/-! ## References -/

omit [DecidableEq T] in
/-- The effect on the shared data changes no numbers of references. -/
theorem total_perform : total (perform s t act) a = total s a :=
  Finset.sum_congr rfl fun _ _ => held_perform

omit [DecidableEq T] in
/-- No reference at all means none of a thread. -/
theorem held_eq_zero (none_ : total s a = 0) (u : T) : held s u a = 0 := by
  have bound := held_le_total (s := s) (t := u) (a := a)
  omega

/-- Every step is one of these. -/
theorem Inv.refers (inv : Inv chain s) (rule : Discipline (s.pc t) act p')
    (before : Before chain s act) (room : ∀ fp, act = .incr fp → total s fp < intMax) (a : Addr) :
    Refers s ((perform s t act).goTo t p') a := by
  have kept : (p' = .idle ∨ p'.owned = (s.pc t).owned) →
      total ((perform s t act).goTo t p') a = total s a := by
    intro same
    rw [total_kept (by rwa [perform_pc]), total_perform]
  have lost : ∀ {fp}, (s.pc t).owned = some fp → p'.owned = none → p' ≠ .idle →
      (total ((perform s t act).goTo t p') a + if a = fp then 1 else 0) = total s a := by
    intro fp one none_ stays
    rw [total_lost (by rwa [perform_pc]) none_ stays, total_perform]
  cases act with
  | incr fp =>
    obtain ⟨none_, one, stays⟩ := rule.owned
    have number := total_gained (s := perform s t (.incr fp)) (a := a)
      (by rwa [perform_pc]) one stays
    rw [total_perform] at number
    by_cases same : a = fp
    · subst same
      have mine := (inv.lock t a).mp rule.guarded
      have there : s.lock a ≠ .absent := by simp [mine]
      have count := inv.count a there before
      have less := room a rfl
      have int : IsInt ((s.foo a).count + 1) := ⟨by omega, by omega⟩
      refine .gained before there less rfl (by simpa using number) ?_
      simp [perform, State.setFoo, State.goTo, wrap_eq int]
    · refine .kept rfl (by simpa [same] using number) ?_
      simp [perform, State.setFoo, State.goTo, Function.update_of_ne same]
  | decr fp =>
    obtain ⟨one, none_, stays⟩ := rule.owned
    have number := lost one none_ stays
    by_cases same : a = fp
    · subst same
      have some_ := held_pos one
      obtain ⟨there, alive⟩ := inv.alive some_
      have count := inv.count a there alive
      have several : (s.foo a).count ≠ 1 := before
      have bound := held_le_total (s := s) (t := t) (a := a)
      have most := inv.int a
      have int : IsInt ((s.foo a).count - 1) := ⟨by omega, by omega⟩
      refine .lost (by omega) rfl (by simpa using number) ?_
      simp [perform, State.setFoo, State.goTo, wrap_eq int]
    · refine .kept rfl (by simpa [same] using number) ?_
      simp [perform, State.setFoo, State.goTo, Function.update_of_ne same]
  | unlinkHead fp =>
    obtain ⟨one, none_, stays⟩ := rule.owned
    have number := lost one none_ stays
    by_cases same : a = fp
    · subst same
      have single := (inv.unlinked rule before (Or.inl rfl)).2
      have there := (inv.alive (held_pos one)).1
      exact .last there (Function.update_self ..) (by simp at number; omega)
    · refine .kept (Function.update_of_ne same _ _) (by simpa [same] using number) rfl
  | unlinkAfter fp tfp =>
    obtain ⟨one, none_, stays⟩ := rule.owned
    have number := lost one none_ stays
    by_cases same : a = fp
    · subst same
      have single := (inv.unlinked rule before (Or.inr ⟨tfp, rfl⟩)).2
      have there := (inv.alive (held_pos one)).1
      exact .last there (Function.update_self ..) (by simp at number; omega)
    · refine .kept (Function.update_of_ne same _ _) (by simpa [same] using number) ?_
      simp only [perform, State.setFoo, State.goTo]
      by_cases there : a = tfp
      · subst there
        simp
      · simp [Function.update_of_ne there]
  | setNext fp =>
    refine .kept rfl (kept rule.owned) ?_
    simp only [perform, State.setFoo, State.goTo]
    by_cases there : a = fp
    · subst there
      simp
    · simp [Function.update_of_ne there]
  | _ => exact .kept rfl (kept rule.owned) rfl

/-- References after a step. -/
theorem Inv.refs_step (inv : Inv chain s) (rule : Discipline (s.pc t) act p')
    (enabled : Enabled s act) (before : Before chain s act)
    (room : ∀ fp, act = .incr fp → total s fp < intMax) {s' : State T}
    (next : s' = (perform s t act).goTo t p') (fp : Addr) :
    (s'.lock fp = .absent → ∀ u, held s' u fp = 0) ∧
      (s'.unlinks fp ≠ 0 → ∀ u, held s' u fp = 0) ∧
      (s'.lock fp ≠ .absent → s'.unlinks fp = 0 →
        (s'.foo fp).count = total s' fp ∧ 0 < total s' fp) := by
  have present : s'.lock fp = .absent ↔ s.lock fp = .absent := by
    rw [next]
    exact inv.absent_step rule enabled before fp
  have refers := inv.refers rule before room fp
  rw [← next] at refers
  have zero : (∀ u, held s u fp = 0) → total s fp = 0 := fun none_ =>
    Finset.sum_eq_zero fun u _ => none_ u
  simp only [ne_eq, present]
  cases refers with
  | kept unlinks number count =>
    rw [unlinks, count, number]
    refine ⟨fun absent => held_eq_zero ?_, fun gone => held_eq_zero ?_,
      fun there kept => ⟨inv.count fp there kept, inv.positive fp there kept⟩⟩
    · exact number.trans (zero (inv.absent fp absent).2)
    · exact number.trans (zero (inv.gone fp gone))
  | gained alive there _ unlinks number count =>
    rw [unlinks, count, number]
    refine ⟨fun absent => absurd absent there, fun gone => absurd alive gone, fun there kept => ?_⟩
    have same := inv.count fp there kept
    push_cast
    exact ⟨by omega, by omega⟩
  | lost more unlinks number count =>
    rw [unlinks, count]
    refine ⟨fun absent => ?_, fun gone => ?_, fun there kept => ?_⟩
    · have none_ := zero (inv.absent fp absent).2
      omega
    · have none_ := zero (inv.gone fp gone)
      omega
    · have same := inv.count fp there kept
      exact ⟨by omega, by omega⟩
  | last there unlinks number =>
    refine ⟨fun absent => absurd absent there, fun _ => held_eq_zero number, fun _ kept => ?_⟩
    rw [unlinks] at kept
    omega

/-- The number of references after a step. -/
theorem Inv.int_step (inv : Inv chain s) (rule : Discipline (s.pc t) act p')
    (before : Before chain s act) (room : ∀ fp, act = .incr fp → total s fp < intMax)
    (fp : Addr) : total ((perform s t act).goTo t p') fp ≤ intMax := by
  have most := inv.int fp
  cases inv.refers rule before room fp with
  | kept _ number _ => exact number.trans_le most
  | gained _ _ less _ number _ => omega
  | lost _ _ number _ => omega
  | last _ _ number => omega

/-! ## Chains -/

omit [DecidableEq T] [Fintype T] in
/-- Changing an object changes its successor only. -/
theorem nextOf_setFoo {value : Foo} :
    nextOf (s.setFoo a value) = Function.update (nextOf s) a (some value.next) := by
  funext fp
  unfold nextOf State.setFoo
  by_cases same : fp = a
  · subst same
    simp
  · simp [Function.update_of_ne same]

omit [DecidableEq T] [Fintype T] in
/-- No step changes `f_id`. -/
theorem idx_perform : (perform s t act).idx a = s.idx a := by
  have kept : ∀ fp (value : Foo), value.id = (s.foo fp).id →
      (s.setFoo fp value).idx a = s.idx a := by
    intro fp value same
    unfold State.idx State.setFoo
    by_cases here : a = fp
    · subst here
      simp [same]
    · simp [Function.update_of_ne here]
  cases act with
  | incr fp | decr fp | setNext fp => exact kept fp _ rfl
  | unlinkAfter fp tfp => exact kept tfp _ rfl
  | _ => rfl

omit [DecidableEq T] in
/-- A new object is on no chain. -/
theorem Inv.new_outside (inv : Inv chain s) (making : (s.pc t).making = some a)
    (i : Fin nhash) : a ∉ chain i := by
  intro inside
  have linked := ((inv.members i a).mp inside).1.1
  have notYet := inv.making.unlinked t a making
  omega

omit [DecidableEq T] in
/-- The chain of the object that is unlinked. -/
theorem Inv.chain_head (inv : Inv chain s) (linked : Linked s a) (first : s.fh (s.idx a) = a) :
    ∃ back, chain (s.idx a) = a :: back ∧ Path 0 (nextOf s) (s.foo a).next back := by
  have path := inv.paths (s.idx a)
  rw [first] at path
  obtain ⟨n, back, shape, found, rest⟩ := path.exists_cons (inv.linked_alive linked).2
  obtain rfl : (s.foo a).next = n := Option.some.inj found
  exact ⟨back, shape, rest⟩

/-- A chain without one of its objects. -/
theorem erase_middle {front back : List Addr} (distinct : (front ++ b :: a :: back).Nodup) :
    (front ++ b :: a :: back).erase a = front ++ b :: back := by
  have outside : a ∉ front ++ [b] := by
    have split : front ++ b :: a :: back = (front ++ [b]) ++ a :: back := by simp
    rw [split] at distinct
    intro inside
    exact (List.nodup_append.mp distinct).2.2 a inside a List.mem_cons_self rfl
  have split : front ++ b :: a :: back = (front ++ [b]) ++ a :: back := by simp
  rw [split, List.erase_append_right _ outside, List.erase_cons_head]
  simp

/-- The chains follow `f_next` after a step. -/
theorem Inv.paths_step (inv : Inv chain s) (rule : Discipline (s.pc t) act p')
    (before : Before chain s act) (i : Fin nhash) :
    Path 0 (nextOf (perform s t act)) ((perform s t act).fh i) (chainAfter chain s act i) := by
  have old := inv.paths i
  have kept : ∀ fp (value : Foo), value.next = (s.foo fp).next →
      Path 0 (nextOf (s.setFoo fp value)) (s.fh i) (chain i) := by
    intro fp value same
    rw [nextOf_setFoo, same]
    exact (Function.update_eq_self fp (nextOf s)).symm ▸ old
  cases act with
  | incr fp | decr fp => exact kept fp _ rfl
  | setNext fp =>
    show Path 0 (nextOf (s.setFoo fp _)) (s.fh i) (chain i)
    rw [nextOf_setFoo]
    exact old.update_outside (inv.new_outside rule.guarded.2 i) _
  | setHead fp =>
    show Path 0 (nextOf s) (Function.update s.fh (s.idx fp) fp i)
      (Function.update chain (s.idx fp) (fp :: chain (s.idx fp)) i)
    by_cases same : i = s.idx fp
    · subst same
      rw [Function.update_self, Function.update_self]
      have owned : (s.pc t).owned = some fp := owned_of_making rule.making.1
      have nonnull : fp ≠ 0 := by
        rintro rfl
        exact (inv.alive (held_pos owned)).1 inv.null
      exact ⟨rfl, nonnull, _, rfl, before ▸ old⟩
    · rw [Function.update_of_ne same, Function.update_of_ne same]
      exact old
  | unlinkHead fp =>
    show Path 0 (nextOf s) (Function.update s.fh (s.idx fp) (s.foo fp).next i)
      (Function.update chain (s.idx fp) ((chain (s.idx fp)).erase fp) i)
    by_cases same : i = s.idx fp
    · subst same
      rw [Function.update_self, Function.update_self]
      have linked := (inv.unlinked rule before (Or.inl rfl)).1
      obtain ⟨back, shape, rest⟩ := inv.chain_head linked before.2
      rw [shape, List.erase_cons_head]
      exact rest
    · rw [Function.update_of_ne same, Function.update_of_ne same]
      exact old
  | unlinkAfter fp tfp =>
    show Path 0 (nextOf (s.setFoo tfp _)) (s.fh i)
      (Function.update chain (s.idx fp) ((chain (s.idx fp)).erase fp) i)
    obtain ⟨front, back, shape⟩ := before.2
    rw [nextOf_setFoo]
    by_cases same : i = s.idx fp
    · subst same
      rw [Function.update_self, shape, erase_middle (shape ▸ old.nodup)]
      rw [shape] at old
      exact old.skip rfl
    · rw [Function.update_of_ne same]
      apply old.update_outside
      intro inside
      have here : tfp ∈ chain (s.idx fp) := by simp [shape]
      exact same (((inv.members i tfp).mp inside).2.symm.trans ((inv.members _ tfp).mp here).2)
  | _ => exact old

/-- The chains hold the linked objects after a step. -/
theorem Inv.members_step (inv : Inv chain s) (rule : Discipline (s.pc t) act p')
    (before : Before chain s act) (i : Fin nhash) (fp : Addr) :
    fp ∈ chainAfter chain s act i ↔ Linked (perform s t act) fp ∧ s.idx fp = i := by
  have old := inv.members i fp
  have unlinked : ∀ a, Linked s a → (∀ b, Linked (perform s t act) b ↔ Linked s b ∧ b ≠ a) →
      (fp ∈ Function.update chain (s.idx a) ((chain (s.idx a)).erase a) i ↔
        Linked (perform s t act) fp ∧ s.idx fp = i) := by
    intro a linked others
    rw [others fp]
    by_cases same : i = s.idx a
    · subst same
      rw [Function.update_self, (inv.paths _).nodup.mem_erase_iff, old]
      tauto
    · rw [Function.update_of_ne same, old]
      constructor
      · rintro ⟨here, bucket⟩
        refine ⟨⟨here, ?_⟩, bucket⟩
        rintro rfl
        exact same bucket.symm
      · rintro ⟨⟨here, -⟩, bucket⟩
        exact ⟨here, bucket⟩
  have removed : ∀ a, Linked s a → ∀ b,
      (s.links b = 1 ∧ Function.update s.unlinks a (s.unlinks a + 1) b = 0 ↔
        Linked s b ∧ b ≠ a) := by
    intro a linked b
    by_cases same : b = a
    · subst same
      simp
    · rw [Function.update_of_ne same]
      simp [Linked, same]
  cases act with
  | setHead new =>
    have notYet := inv.making.unlinked t new rule.making.1
    have bounds := inv.once new
    have added : Linked (perform s t (.setHead new)) fp ↔ Linked s fp ∨ fp = new := by
      show Function.update s.links new (s.links new + 1) fp = 1 ∧ s.unlinks fp = 0 ↔ _
      by_cases same : fp = new
      · subst same
        rw [Function.update_self]
        simp only [or_true, iff_true]
        omega
      · rw [Function.update_of_ne same]
        simp [Linked, same]
    rw [added]
    show fp ∈ Function.update chain (s.idx new) (new :: chain (s.idx new)) i ↔ _
    by_cases same : i = s.idx new
    · subst same
      rw [Function.update_self, List.mem_cons, old]
      constructor
      · rintro (rfl | ⟨linked, bucket⟩)
        · exact ⟨Or.inr rfl, rfl⟩
        · exact ⟨Or.inl linked, bucket⟩
      · rintro ⟨linked | rfl, bucket⟩
        · exact Or.inr ⟨linked, bucket⟩
        · exact Or.inl rfl
    · rw [Function.update_of_ne same, old]
      constructor
      · rintro ⟨linked, bucket⟩
        exact ⟨Or.inl linked, bucket⟩
      · rintro ⟨linked | rfl, bucket⟩
        · exact ⟨linked, bucket⟩
        · exact absurd bucket.symm same
  | unlinkHead gone =>
    have linked := (inv.unlinked rule before (Or.inl rfl)).1
    exact unlinked gone linked (removed gone linked)
  | unlinkAfter gone tfp =>
    have linked := (inv.unlinked rule before (Or.inr ⟨tfp, rfl⟩)).1
    exact unlinked gone linked (removed gone linked)
  | _ => exact old

/-! ## What the threads know -/

/-- A thread that holds `hashlock` finds the chains as it left them. -/
theorem Inv.sameChains (inv : Inv chain s) (rule : Discipline (s.pc t) act p') (other : u ≠ t)
    (hash : (s.pc u).hasHash = true) :
    SameChains chain s act ((perform s t act).goTo t p') := by
  have mine : (s.pc t).hasHash ≠ true := by
    intro hers
    have same := ((inv.hash t).mp hers).symm.trans ((inv.hash u).mp hash)
    exact other (Option.some.inj same).symm
  have kept : ∀ fp (value : Foo), value.next = (s.foo fp).next → ∀ a,
      (Function.update s.foo fp value a).next = (s.foo a).next := by
    intro fp value same a
    by_cases here : a = fp
    · subst here
      rw [Function.update_self, same]
    · rw [Function.update_of_ne here]
  cases act with
  | setNext fp => exact absurd rule.guarded.1 mine
  | setHead fp => exact absurd rule.guarded mine
  | unlinkHead fp => exact absurd rule.guarded.1 mine
  | unlinkAfter fp tfp => exact absurd rule.guarded.1 mine
  | incr fp | decr fp => exact ⟨rfl, kept fp _ rfl, rfl, fun _ => Iff.rfl⟩
  | _ => exact ⟨rfl, fun _ => rfl, rfl, fun _ => Iff.rfl⟩

/-- A thread that holds the mutex of an object finds its count as it left it. -/
theorem Inv.sameCount (inv : Inv chain s) (rule : Discipline (s.pc t) act p') (other : u ≠ t)
    (locked : (s.pc u).locked = some a) :
    (((perform s t act).goTo t p').foo a).count = (s.foo a).count := by
  have mine : (s.pc t).locked ≠ some a := by
    intro hers
    have same := ((inv.lock t a).mp hers).symm.trans ((inv.lock u a).mp locked)
    exact other (Mutex.held.inj same).symm
  have apart : ∀ fp (value : Foo), a ≠ fp →
      (Function.update s.foo fp value a).count = (s.foo a).count := by
    intro fp value different
    rw [Function.update_of_ne different]
  have kept : ∀ fp (value : Foo), value.count = (s.foo fp).count →
      (Function.update s.foo fp value a).count = (s.foo a).count := by
    intro fp value same
    by_cases here : a = fp
    · subst here
      rw [Function.update_self, same]
    · exact apart fp value here
  cases act with
  | incr fp | decr fp =>
    have locked : (s.pc t).locked = some fp := rule.guarded
    exact apart fp _ fun same => mine (same ▸ locked)
  | setNext fp => exact kept fp _ rfl
  | unlinkAfter fp tfp => exact kept tfp _ rfl
  | _ => rfl

/-- A mutex that a thread is about to destroy stays free. -/
theorem Inv.stays_free (inv : Inv chain s) (rule : Discipline (s.pc t) act p')
    (before : Before chain s act) (other : u ≠ t) (drops : (s.pc u).dropping = some a)
    (free : s.lock a = .free) : ((perform s t act).goTo t p').lock a = .free := by
  have gone := (inv.dropping.unlinked u a drops).1
  cases act with
  | lockFoo fp =>
    have alive : s.unlinks fp = 0 := before
    have different : a ≠ fp := by
      rintro rfl
      omega
    exact (Function.update_of_ne different _ _).trans free
  | unlockFoo fp =>
    by_cases same : a = fp
    · subst same
      exact Function.update_self ..
    · exact (Function.update_of_ne same _ _).trans free
  | destroy fp =>
    have different : a ≠ fp := by
      rintro rfl
      exact other (inv.dropping.alone u t a drops rule.dropping.1)
    exact (Function.update_of_ne different _ _).trans free
  | _ => exact free

omit [Fintype T] in
/-- A step of another thread changes no references of the callers of a thread. -/
theorem refs_goTo (other : u ≠ t) : (s.goTo t p').refs u = s.refs u := by
  unfold State.goTo
  dsimp only
  split
  · cases (s.pc t).owned with
    | none => rfl
    | some fp => exact Function.update_of_ne other _ _
  · rfl

/-- What a thread knows outlives the steps of the others. -/
theorem Inv.known_other (inv : Inv chain s) (rule : Discipline (s.pc t) act p')
    (before : Before chain s act) (other : u ≠ t) :
    Known (chainAfter chain s act) ((perform s t act).goTo t p') u (s.pc u) := by
  have known := inv.known u
  have chains := inv.sameChains rule other
  have counts : ∀ {fp}, (s.pc u).locked = some fp → _ := inv.sameCount rule other
  have idx : ∀ fp, ((perform s t act).goTo t p').idx fp = s.idx fp := fun _ => idx_perform
  have refs : ((perform s t act).goTo t p').refs u = s.refs u := by
    rw [refs_goTo other, perform_refs]
  cases here : s.pc u with
  | allocHead fp =>
    rw [here] at known chains
    have same := chains rfl
    show (((perform s t act).goTo t p').foo fp).next = _
    rw [same.next, same.fh, idx]
    exact known
  | holdLock inFind fp | holdCount inFind fp =>
    rw [here] at known chains
    cases inFind with
    | true => exact ((chains rfl).linked fp).mpr known
    | false =>
      show 0 < ((perform s t act).goTo t p').refs u fp
      rw [refs]
      exact known
  | findTest wanted fp =>
    rw [here] at known chains
    exact known.imp id ((chains rfl).linked fp).mpr
  | findNext id fp =>
    rw [here] at known chains
    exact ((chains rfl).linked fp).mpr known
  | releDecr fp | releDecrAgain fp =>
    rw [here] at known counts
    exact fun single => known ((counts rfl).symm.trans single)
  | releSearch fp =>
    rw [here] at known counts
    exact (counts rfl).trans known
  | releUnlinkHead fp =>
    rw [here] at known chains counts
    refine ⟨(counts rfl).trans known.1, ?_⟩
    rw [(chains rfl).fh, idx]
    exact known.2
  | releLoop fp tfp =>
    rw [here] at known chains counts
    refine ⟨(counts rfl).trans known.1, ?_⟩
    rw [(chains rfl).chains, idx]
    exact known.2
  | releUnlinkAfter fp tfp =>
    rw [here] at known chains counts
    refine ⟨(counts rfl).trans known.1, ?_⟩
    rw [(chains rfl).chains, idx]
    exact known.2
  | releDestroy fp =>
    rw [here] at known
    exact inv.stays_free rule before other (by rw [here]; rfl) known
  | crashed fp =>
    rw [here] at known
    exact known
  | _ => trivial

omit [DecidableEq T] in
/-- The address at the head of a chain is `NULL` or a linked object. -/
theorem Inv.head_linked (inv : Inv chain s) (i : Fin nhash) : s.fh i = 0 ∨ Linked s (s.fh i) :=
  (inv.paths i).start_mem.imp id fun inside => ((inv.members i _).mp inside).1

omit [DecidableEq T] in
/-- The address after a linked object is `NULL` or a linked object. -/
theorem Inv.next_linked (inv : Inv chain s) (linked : Linked s a) :
    (s.foo a).next = 0 ∨ Linked s (s.foo a).next := by
  have inside : a ∈ chain (s.idx a) := (inv.members _ a).mpr ⟨linked, rfl⟩
  exact ((inv.paths _).next_mem inside rfl).imp id fun next => ((inv.members _ _).mp next).1

omit [DecidableEq T] in
/-- The search starts before its object. -/
theorem Inv.search_starts (inv : Inv chain s) (linked : Linked s a)
    (notFirst : s.fh (s.idx a) ≠ a) :
    ∃ front back, chain (s.idx a) = front ++ s.fh (s.idx a) :: back ∧ a ∈ back := by
  have inside : a ∈ chain (s.idx a) := (inv.members _ a).mpr ⟨linked, rfl⟩
  have path := inv.paths (s.idx a)
  have nonnull : s.fh (s.idx a) ≠ 0 := by
    intro null
    rw [null] at path
    rw [path.eq_nil] at inside
    cases inside
  obtain ⟨n, back, shape, -, -⟩ := path.exists_cons nonnull
  refine ⟨[], back, shape, ?_⟩
  rw [shape] at inside
  exact (List.mem_cons.mp inside).resolve_left fun same => notFirst same.symm

omit [DecidableEq T] in
/-- The search goes on before its object, and is never at `NULL`. -/
theorem Inv.search_goes_on (inv : Inv chain s) {front back : List Addr} {i : Fin nhash}
    (shape : chain i = front ++ b :: back) (inside : a ∈ back) :
    b ≠ 0 ∧ ∃ rest, back = (s.foo b).next :: rest := by
  have path := inv.paths i
  rw [shape] at path
  have nonnull : b ≠ 0 := path.ne_null (by simp)
  obtain ⟨-, -, n, found, tail⟩ := path.suffix
  obtain rfl : (s.foo b).next = n := Option.some.inj found
  refine ⟨nonnull, ?_⟩
  cases back with
  | nil => cases inside
  | cons c rest => exact ⟨rest, by rw [tail.1]⟩

/-- What a thread knows after its own step. -/
theorem Inv.known_self (inv : Inv chain s) {s' : State T}
    (next : s' = (perform s t (instr s (s.pc t)).1).goTo t (instr s (s.pc t)).2) :
    Known (chainAfter chain s (instr s (s.pc t)).1) s' t (instr s (s.pc t)).2 := by
  have known := inv.known t
  subst next
  cases here : s.pc t with
  | allocNext fp =>
    show (Function.update s.foo fp _ fp).next =
      s.fh (RefCount.hash (Function.update s.foo fp _ fp).id)
    rw [Function.update_self]
    rfl
  | holdLock inFind fp =>
    rw [here] at known
    cases inFind with
    | true => exact known
    | false =>
      have some_ : 0 < s.refs t fp := known
      show 0 < ((perform s t (.lockFoo fp)).goTo t (.holdCount false fp)).refs t fp
      simpa [State.goTo] using some_
  | holdUnlock inFind fp => cases inFind <;> trivial
  | findHead wanted => exact inv.head_linked (RefCount.hash wanted)
  | findTest wanted fp =>
    rw [here] at known
    unfold instr
    dsimp only
    split_ifs with null
    · trivial
    · exact known.resolve_left null
    · exact known.resolve_left null
  | findNext wanted fp =>
    rw [here] at known
    exact inv.next_linked known
  | releTest fp =>
    unfold instr
    dsimp only
    split_ifs with single
    · trivial
    · exact single
  | releRetest fp =>
    unfold instr
    dsimp only
    split_ifs with more
    · exact more
    · exact not_not.mp more
  | releSearch fp =>
    rw [here] at known
    have linked : Linked s fp :=
      inv.linked_of_last (by rw [here]; rfl) (by rw [here]; rfl) known
    unfold instr
    dsimp only
    split_ifs with first
    · exact ⟨known, first⟩
    · exact ⟨known, inv.search_starts linked first⟩
  | releLoop fp tfp =>
    rw [here] at known
    obtain ⟨last, front, back, shape, inside⟩ := known
    obtain ⟨nonnull, rest, tail⟩ := inv.search_goes_on shape inside
    unfold instr
    dsimp only
    rw [if_neg nonnull]
    split_ifs with more
    · refine ⟨last, front ++ [tfp], rest, ?_, ?_⟩
      · show chain (s.idx fp) = _
        rw [shape, tail]
        simp
      · rw [tail] at inside
        exact (List.mem_cons.mp inside).resolve_left fun same => more same.symm
    · refine ⟨last, front, rest, ?_⟩
      show chain (s.idx fp) = _
      rw [shape, tail, not_not.mp more]
  | releFreeLock fp =>
    show Function.update s.lock fp .free fp = .free
    exact Function.update_self ..
  | crashed fp =>
    rw [here] at known
    exact known.elim
  | _ => trivial

/-- A statement keeps the invariant, unless it takes a reference that is no `int` any more. -/
theorem Inv.statement (inv : Inv chain s) (busy : s.pc t ≠ .idle)
    (enabled : Enabled s (instr s (s.pc t)).1)
    (room : ∀ fp, (instr s (s.pc t)).1 = .incr fp → total s fp < intMax) :
    Inv (chainAfter chain s (instr s (s.pc t)).1)
      ((perform s t (instr s (s.pc t)).1).goTo t (instr s (s.pc t)).2) := by
  have rule := instr_discipline s busy
  have before := inv.before t
  have self := inv.known_self (t := t) rfl
  have pc : ((perform s t (instr s (s.pc t)).1).goTo t (instr s (s.pc t)).2).pc =
      Function.update s.pc t (instr s (s.pc t)).2 := by
    show Function.update (perform s t _).pc t _ = _
    rw [perform_pc]
  have events := inv.events rule before
  generalize (instr s (s.pc t)).2 = p' at *
  generalize (instr s (s.pc t)).1 = act at *
  have present := inv.absent_step rule enabled before
  obtain ⟨making, dropping, once⟩ := inv.history_step events pc present
  have refs := inv.refs_step rule enabled before room rfl
  refine ⟨inv.hash_step rule enabled, inv.lock_step rule enabled before, (present 0).mpr inv.null,
    inv.paths_step rule before, ?_, ?_, fun fp => (refs fp).2.1,
    fun fp there kept => ((refs fp).2.2 there kept).1,
    fun fp there kept => ((refs fp).2.2 there kept).2, inv.int_step rule before room, making,
    dropping, once, ?_, ?_⟩
  · intro i fp
    have idx : ((perform s t act).goTo t p').idx fp = s.idx fp := idx_perform
    rw [idx]
    exact inv.members_step rule before i fp
  · intro fp absent
    exact ⟨inv.links_step events ((present fp).mp absent), (refs fp).1 absent⟩
  · intro fp destroyed
    exact inv.destroyed_step destroyed
  · rw [pc]
    exact forall_pc (motive := fun u pc => Known (chainAfter chain s act) _ u pc)
      (fun u other => inv.known_other rule before other) self

end Statement

end CodeLearning.Threads.RefCount
