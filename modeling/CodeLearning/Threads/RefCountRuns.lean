import CodeLearning.Threads.RefCountStep

/-!
# Runs of threads that share reference counted objects

Calls keep the invariant as statements do, so it holds in every state that any threads reach in
any order of their steps, as long as no object gets more references than an `int` counts. What
the protocol promises is read off it: the counts are the numbers of references, an object is
unlinked and its mutex destroyed once and with its last reference, the search of `foo_rele` finds
its object, and no threads wait for each other in a circle.
-/

namespace CodeLearning.Threads.RefCount

open CInt LinkedList

section Calls

variable {T : Type} {s : State T} {t u : T} {a : Addr} {chain : Fin nhash → List Addr} {p : Pc}
  [DecidableEq T] [Fintype T]

omit [Fintype T] [DecidableEq T] in
/-- What a thread knows does not depend on the other threads. -/
theorem Known.congr {s' : State T} (known : Known chain s u p) (foo : s'.foo = s.foo)
    (fh : s'.fh = s.fh) (lock : s'.lock = s.lock) (links : s'.links = s.links)
    (unlinks : s'.unlinks = s.unlinks) (refs : s'.refs u = s.refs u) : Known chain s' u p := by
  have idx : ∀ fp, s'.idx fp = s.idx fp := by
    intro fp
    rw [State.idx, foo]
    rfl
  have linked : ∀ fp, Linked s fp → Linked s' fp := by
    intro fp was
    rw [Linked, links, unlinks]
    exact was
  cases p with
  | holdLock inFind fp | holdCount inFind fp =>
    cases inFind with
    | true => exact linked fp known
    | false =>
      show 0 < s'.refs u fp
      rw [refs]
      exact known
  | findTest wanted fp => exact known.imp id (linked fp)
  | findNext wanted fp => exact linked fp known
  | allocHead _ | releDecr _ | releDecrAgain _ | releSearch _ | releUnlinkHead _ | releLoop _ _
  | releUnlinkAfter _ _ | releDestroy _ =>
    simpa only [Known, foo, fh, lock, idx] using known
  | crashed _ => exact known
  | _ => trivial

/-- A call that takes no lock and makes no object keeps the invariant. -/
theorem Inv.enter {refs : T → Addr → Nat} (inv : Inv chain s) (idle : s.pc t = .idle)
    (hash : p.hasHash = false) (locked : p.locked = none) (making : p.making = none)
    (dropping : p.dropping = none) (others : ∀ u, u ≠ t → refs u = s.refs u)
    (same : ∀ fp, refs t fp + (if p.owned = some fp then 1 else 0) = s.refs t fp)
    (known : Known chain { s with refs := refs, pc := Function.update s.pc t p } t p) :
    Inv chain { s with refs := refs, pc := Function.update s.pc t p } := by
  have heldSame : ∀ u fp,
      held { s with refs := refs, pc := Function.update s.pc t p } u fp = held s u fp := by
    intro u fp
    unfold held
    by_cases self : u = t
    · subst self
      simp only [Function.update_self, idle, same]
      simp [Pc.owned]
    · simp only [Function.update_of_ne self, others u self]
  have totalSame : ∀ fp,
      total { s with refs := refs, pc := Function.update s.pc t p } fp = total s fp := fun fp =>
    Finset.sum_congr rfl fun u _ => heldSame u fp
  constructor
  case hash =>
    refine forall_pc (motive := fun u pc => pc.hasHash = true ↔ s.hashlock = some u)
      (fun u _ => inv.hash u) ?_
    have old := inv.hash t
    rw [idle] at old
    rw [hash]
    exact old
  case lock =>
    intro u fp
    refine forall_pc (motive := fun u pc => pc.locked = some fp ↔ s.lock fp = .held u)
      (fun u _ => inv.lock u fp) ?_ u
    have old := inv.lock t fp
    rw [idle] at old
    rw [locked]
    exact old
  case null => exact inv.null
  case paths => exact inv.paths
  case members => exact inv.members
  case absent =>
    intro fp absent
    refine ⟨(inv.absent fp absent).1, fun u => ?_⟩
    rw [heldSame]
    exact (inv.absent fp absent).2 u
  case gone =>
    intro fp gone u
    rw [heldSame]
    exact inv.gone fp gone u
  case count =>
    intro fp there kept
    rw [totalSame]
    exact inv.count fp there kept
  case positive =>
    intro fp there kept
    rw [totalSame]
    exact inv.positive fp there kept
  case int =>
    intro fp
    rw [totalSame]
    exact inv.int fp
  case making => exact inv.making.kept rfl (by rw [making, idle]; rfl) rfl fun _ => Iff.rfl
  case dropping => exact inv.dropping.kept rfl (by rw [dropping, idle]; rfl) rfl rfl
  case once => exact inv.once
  case destroyed => exact inv.destroyed
  case known =>
    refine forall_pc (motive := fun u pc =>
      Known chain { s with refs := refs, pc := Function.update s.pc t p } u pc) ?_ known
    intro u other
    exact (inv.known u).congr rfl rfl rfl rfl rfl (others u other)

omit [DecidableEq T] in
/-- What a thread knows outlives a new object. -/
theorem Inv.known_allocate (inv : Inv chain s) (new : s.lock a = .absent) {s' : State T}
    {key : Int} (foo : s'.foo = Function.update s.foo a ⟨1, key, (s.foo a).next⟩)
    (fh : s'.fh = s.fh) (lock : s'.lock = Function.update s.lock a .free)
    (links : s'.links = s.links) (unlinks : s'.unlinks = s.unlinks)
    (refs : s'.refs u = s.refs u) : Known chain s' u (s.pc u) := by
  have known := inv.known u
  have linked : ∀ fp, Linked s fp → Linked s' fp := by
    intro fp was
    rw [Linked, links, unlinks]
    exact was
  -- the thread has a reference to every object it knows something of
  have same : ∀ fp, (s.pc u).owned = some fp → s'.foo fp = s.foo fp ∧ s'.idx fp = s.idx fp := by
    intro fp owned
    have different : fp ≠ a := by
      rintro rfl
      exact (inv.alive (held_pos owned)).1 new
    have kept : s'.foo fp = s.foo fp := by rw [foo, Function.update_of_ne different]
    exact ⟨kept, by rw [State.idx, kept]; rfl⟩
  cases here : s.pc u with
  | holdLock inFind fp | holdCount inFind fp =>
    rw [here] at known
    cases inFind with
    | true => exact linked fp known
    | false =>
      show 0 < s'.refs u fp
      rw [refs]
      exact known
  | findTest wanted fp =>
    rw [here] at known
    exact known.imp id (linked fp)
  | findNext wanted fp =>
    rw [here] at known
    exact linked fp known
  | allocHead fp | releDecr fp | releDecrAgain fp | releSearch fp | releUnlinkHead fp
  | releLoop fp _ | releUnlinkAfter fp _ =>
    rw [here] at known same
    obtain ⟨kept, idx⟩ := same fp rfl
    simpa only [Known, kept, fh, idx] using known
  | releDestroy fp =>
    rw [here] at known
    have free : s.lock fp = .free := known
    have different : fp ≠ a := by
      rintro rfl
      rw [new] at free
      cases free
    show s'.lock fp = .free
    rw [lock, Function.update_of_ne different, free]
  | crashed fp =>
    rw [here] at known
    exact known.elim
  | _ => trivial

/-- The thread that makes a new object is the only one. -/
theorem Inv.making_allocate (inv : Inv chain s) (idle : s.pc t = .idle)
    (new : s.lock a = .absent) {s' : State T}
    (pc : s'.pc = Function.update s.pc t (.allocLock a))
    (lock : s'.lock = Function.update s.lock a .free) (links : s'.links = s.links) :
    Making s' := by
  have mine : ∀ u fp, (s'.pc u).making = some fp →
      (u = t ∧ fp = a) ∨ ((s.pc u).making = some fp ∧ fp ≠ a) := by
    rw [pc]
    refine forall_pc (motive := fun u pc => ∀ fp, pc.making = some fp →
      (u = t ∧ fp = a) ∨ ((s.pc u).making = some fp ∧ fp ≠ a)) ?_ ?_
    · intro u _ fp makes
      refine Or.inr ⟨makes, ?_⟩
      rintro rfl
      exact (inv.alive (held_pos (owned_of_making makes))).1 new
    · intro fp makes
      exact Or.inl ⟨rfl, (Option.some.inj makes).symm⟩
  constructor
  · intro u fp makes
    rw [links]
    obtain ⟨-, rfl⟩ | ⟨before, -⟩ := mine u fp makes
    · exact (inv.absent fp new).1
    · exact inv.making.unlinked u fp before
  · intro u v fp one two
    obtain ⟨rfl, rfl⟩ | ⟨beforeU, differentU⟩ := mine u fp one
    · obtain ⟨rfl, -⟩ | ⟨-, different⟩ := mine v fp two
      · rfl
      · exact absurd rfl different
    · obtain ⟨-, rfl⟩ | ⟨beforeV, -⟩ := mine v fp two
      · exact absurd rfl differentU
      · exact inv.making.alone u v fp beforeU beforeV
  · intro fp there unlinked
    by_cases same : fp = a
    · subst same
      exact ⟨t, by rw [pc, Function.update_self]; rfl⟩
    · rw [lock, Function.update_of_ne same] at there
      rw [links] at unlinked
      obtain ⟨u, makes⟩ := inv.making.exists_maker fp there unlinked
      have other : u ≠ t := by
        rintro rfl
        rw [idle] at makes
        cases makes
      exact ⟨u, by rw [pc, Function.update_of_ne other]; exact makes⟩

/-- A new object keeps the invariant. -/
theorem Inv.allocate (inv : Inv chain s) (idle : s.pc t = .idle) (nonnull : a ≠ 0)
    (new : s.lock a = .absent) (id : Int) {s' : State T}
    (next : s' = { s with
      foo := Function.update s.foo a ⟨1, id, (s.foo a).next⟩
      lock := Function.update s.lock a .free
      pc := Function.update s.pc t (.allocLock a) }) : Inv chain s' := by
  obtain ⟨notLinked, noRefs⟩ := inv.absent a new
  have bounds := inv.once a
  have apart : ∀ {fp}, Linked s fp → fp ≠ a := by
    rintro fp linked rfl
    have one := linked.1
    omega
  have gained : ∀ u fp, held s' u fp = held s u fp + if u = t ∧ fp = a then 1 else 0 := by
    intro u fp
    have step := held_gained (s := s) (t := t) (u := u) (a := fp) (b := a)
      (p := .allocLock a) (by rw [idle]; rfl) rfl (by simp)
    rw [next, ← step]
    rfl
  have others : ∀ u fp, fp ≠ a → held s' u fp = held s u fp := by
    intro u fp different
    simp [gained, different]
  have number : ∀ fp, total s' fp = total s fp + if fp = a then 1 else 0 := by
    intro fp
    simp only [total, gained, Finset.sum_add_distrib, ite_and, Finset.sum_ite_eq',
      Finset.mem_univ, if_true]
  have pc : s'.pc = Function.update s.pc t (.allocLock a) := by rw [next]
  have lock : s'.lock = Function.update s.lock a .free := by rw [next]
  have zero : total s a = 0 := Finset.sum_eq_zero fun u _ => noRefs u
  constructor
  case hash =>
    rw [next]
    refine forall_pc (motive := fun u pc => pc.hasHash = true ↔ s.hashlock = some u)
      (fun u _ => inv.hash u) ?_
    have old := inv.hash t
    rw [idle] at old
    exact old
  case lock =>
    intro u fp
    rw [pc, lock]
    have kept : Function.update s.lock a .free fp = .held u ↔ s.lock fp = .held u := by
      by_cases same : fp = a
      · subst same
        simp [new]
      · rw [Function.update_of_ne same]
    rw [kept]
    refine forall_pc (motive := fun u pc => pc.locked = some fp ↔ s.lock fp = .held u)
      (fun u _ => inv.lock u fp) ?_ u
    have old := inv.lock t fp
    rw [idle] at old
    exact old
  case null =>
    rw [lock, Function.update_of_ne nonnull.symm]
    exact inv.null
  case paths =>
    intro i
    have same : nextOf s' = nextOf s := by
      rw [next]
      have kept : nextOf (s.setFoo a ⟨1, id, (s.foo a).next⟩) =
          Function.update (nextOf s) a (some (s.foo a).next) := nextOf_setFoo
      exact kept.trans (Function.update_eq_self a (nextOf s))
    rw [same, next]
    exact inv.paths i
  case members =>
    intro i fp
    have linked : Linked s' fp ↔ Linked s fp := by rw [next]; rfl
    rw [linked, inv.members i fp]
    refine and_congr_right fun was => ?_
    rw [State.idx, State.idx, next]
    simp only [Function.update_of_ne (apart was)]
  case absent =>
    intro fp absent
    have different : fp ≠ a := by
      rintro rfl
      rw [lock, Function.update_self] at absent
      cases absent
    rw [lock, Function.update_of_ne different] at absent
    refine ⟨?_, fun u => ?_⟩
    · rw [next]
      exact (inv.absent fp absent).1
    · rw [others u fp different]
      exact (inv.absent fp absent).2 u
  case gone =>
    intro fp gone u
    have before : s.unlinks fp ≠ 0 := by rwa [next] at gone
    have different : fp ≠ a := by
      rintro rfl
      omega
    rw [others u fp different]
    exact inv.gone fp before u
  case count =>
    intro fp there kept
    have before : s.unlinks fp = 0 := by rwa [next] at kept
    by_cases same : fp = a
    · subst same
      rw [number, zero, next]
      simp
    · rw [lock, Function.update_of_ne same] at there
      have count := inv.count fp there before
      rw [number, if_neg same, Nat.add_zero, ← count, next]
      simp only [Function.update_of_ne same]
  case positive =>
    intro fp there kept
    have before : s.unlinks fp = 0 := by rwa [next] at kept
    by_cases same : fp = a
    · simp [number, same]
    · rw [lock, Function.update_of_ne same] at there
      simpa [number, same] using inv.positive fp there before
  case int =>
    intro fp
    by_cases same : fp = a
    · subst same
      rw [number, zero, if_pos rfl]
      decide
    · rw [number, if_neg same]
      exact inv.int fp
  case making => exact inv.making_allocate idle new pc lock (by rw [next])
  case dropping => exact inv.dropping.kept pc (by rw [idle]; rfl) (by rw [next]) (by rw [next])
  case once =>
    rw [next]
    exact inv.once
  case destroyed =>
    intro fp destroyed
    have different : fp ≠ a := by
      rintro rfl
      rw [lock, Function.update_self] at destroyed
      cases destroyed
    rw [lock, Function.update_of_ne different] at destroyed
    rw [next]
    exact inv.destroyed fp destroyed
  case known =>
    rw [pc]
    refine forall_pc (motive := fun u pc => Known chain s' u pc) (fun u _ => ?_) trivial
    exact inv.known_allocate new (by rw [next]) (by rw [next]) lock (by rw [next]) (by rw [next])
      (by rw [next])

/-- A call keeps the invariant. -/
theorem Inv.call (inv : Inv chain s) (idle : s.pc t = .idle) (move : Move) :
    Inv chain (call s t move) := by
  have same : ∀ fp, s.refs t fp + (if Pc.idle.owned = some fp then 1 else 0) = s.refs t fp := by
    simp [Pc.owned]
  cases move with
  | alloc id result =>
    cases result with
    | none => exact inv
    | some fp =>
      unfold RefCount.call
      dsimp only
      split_ifs with new
      · exact inv.allocate idle new.1 new.2 id rfl
      · exact inv
  | find id =>
    exact inv.enter idle rfl rfl rfl rfl (fun _ _ => rfl) same trivial
  | hold fp =>
    unfold RefCount.call
    dsimp only
    split_ifs with some_
    · exact inv.enter idle rfl rfl rfl rfl (fun _ _ => rfl) same some_
    · exact inv
  | rele fp =>
    unfold RefCount.call
    dsimp only
    split_ifs with some_
    · refine inv.enter idle rfl rfl rfl rfl (fun u other => Function.update_of_ne other _ _) ?_
        trivial
      intro fp'
      rw [Function.update_self]
      by_cases here : fp' = fp
      · subst here
        simp [Pc.owned]
        omega
      · have different : fp ≠ fp' := fun equal => here equal.symm
        simp [Pc.owned, Function.update_of_ne here, different]
    · exact inv
  | run => exact inv

/-- A thread that is about to increment the count of an object finds fewer references to it than
`INT_MAX`. -/
def RoomFor (s : State T) (t : T) (move : Move) : Prop :=
  move = .run → ∀ inFind fp, s.pc t = .holdCount inFind fp → total s fp < intMax

/-- Every step of a run does. -/
def Fits : State T → List (T × Move) → Prop
  | _, [] => True
  | s, move :: moves => RoomFor s move.1 move.2 ∧ Fits (step s move.1 move.2) moves

omit [DecidableEq T] [Fintype T] in
/-- Only `foo_hold` increments a count. -/
theorem holdCount_of_incr {fp : Addr} (now : (instr s p).1 = .incr fp) :
    ∃ inFind, p = .holdCount inFind fp := by
  cases p with
  | holdCount inFind fp' =>
    cases now
    exact ⟨inFind, rfl⟩
  | holdUnlock inFind _ => cases inFind <;> cases now
  | findTest _ _ | releTest _ | releRetest _ | releSearch _ | releLoop _ _ =>
    unfold instr at now
    dsimp only at now
    split_ifs at now
  | _ => cases now

/-- A step keeps the invariant, unless it takes a reference that is no `int` any more. -/
theorem Inv.step (inv : Inv chain s) (t : T) (move : Move) (room : RoomFor s t move) :
    ∃ chain', Inv chain' (step s t move) := by
  unfold RefCount.step
  split_ifs with idle goes
  · exact ⟨chain, inv.call idle move⟩
  · refine ⟨_, inv.statement idle goes.2 fun fp now => ?_⟩
    obtain ⟨inFind, here⟩ := holdCount_of_incr now
    exact room goes.1 inFind fp here
  · exact ⟨chain, inv⟩

omit [DecidableEq T] in
/-- The invariant holds at the start. -/
theorem start_inv (memory : Addr → Foo) : Inv (fun _ => []) (start memory : State T) := by
  have noRefs : ∀ u fp, held (start memory : State T) u fp = 0 := by
    intro u fp
    simp [held, start, Pc.owned]
  have none_ : ∀ fp, total (start memory : State T) fp = 0 := fun fp =>
    Finset.sum_eq_zero fun u _ => noRefs u fp
  refine ⟨?_, ?_, rfl, fun i => rfl, ?_, fun fp _ => ⟨rfl, fun u => noRefs u fp⟩,
    fun fp _ u => noRefs u fp, ?_, ?_, fun fp => (none_ fp).trans_le (Nat.zero_le _), ?_, ?_, ?_,
    ?_, fun _ => trivial⟩
  · simp [start, Pc.hasHash]
  · simp [start, Pc.locked]
  · simp [Linked, start]
  · simp [start]
  · simp [start]
  · constructor <;> simp [start, Pc.making]
  · constructor <;> simp [start, Pc.dropping]
  · intro fp
    simp [start]
  · simp [start]

/-- The invariant holds in every run that fits. -/
theorem run_inv (memory : Addr → Foo) (moves : List (T × Move)) (fits : Fits (start memory) moves) :
    ∃ chain, Inv chain (run (start memory) moves) := by
  have runs : ∀ (s : State T) chain, Inv chain s → Fits s moves →
      ∃ chain', Inv chain' (run s moves) := by
    clear fits
    induction moves with
    | nil => exact fun s chain inv _ => ⟨chain, inv⟩
    | cons move moves rest =>
      intro s chain inv fits
      obtain ⟨chain', next⟩ := inv.step move.1 move.2 fits.1
      exact rest _ chain' next fits.2
  exact runs _ _ (start_inv memory) fits

omit [Fintype T] in
/-- A thread that goes on to another statement has at most one more reference. -/
theorem held_le {s' : State T} {fp : Addr} (pc : s'.pc = Function.update s.pc t p)
    (others : ∀ u, u ≠ t → s'.refs u = s.refs u) (mine : s'.refs t fp ≤ s.refs t fp) (u : T) :
    held s' u fp ≤ held s u fp + if u = t then 1 else 0 := by
  unfold held
  by_cases self : u = t
  · subst self
    rw [pc, Function.update_self, if_pos rfl]
    split <;> omega
  · rw [pc, Function.update_of_ne self, others u self]
    omega

omit [Fintype T] in
/-- A call gives a thread at most one more reference, and the others none. -/
theorem held_call_le (s : State T) (t : T) (move : Move) (u : T) (fp : Addr) :
    held (call s t move) u fp ≤ held s u fp + if u = t then 1 else 0 := by
  have same : held s u fp ≤ held s u fp + if u = t then 1 else 0 := Nat.le_add_right _ _
  cases move with
  | alloc id result =>
    cases result with
    | none => exact same
    | some a =>
      by_cases new : a ≠ 0 ∧ s.lock a = .absent
      · rw [RefCount.call, if_pos new]
        exact held_le (s := s) (p := .allocLock a) (by rfl) (fun _ _ => by rfl) (by rfl) u
      · rw [RefCount.call, if_neg new]
        exact same
  | find id => exact held_le (s := s) (p := .findLock id) (by rfl) (fun _ _ => by rfl) (by rfl) u
  | hold a =>
    by_cases some_ : 0 < s.refs t a
    · rw [RefCount.call, if_pos some_]
      exact held_le (s := s) (p := .holdLock false a) (by rfl) (fun _ _ => by rfl) (by rfl) u
    · rw [RefCount.call, if_neg some_]
      exact same
  | rele a =>
    by_cases some_ : 0 < s.refs t a
    · rw [RefCount.call, if_pos some_]
      refine held_le (s := s) (p := .releLock a) rfl
        (fun v other => Function.update_of_ne other _ _) ?_ u
      simp only [Function.update_self]
      by_cases here : fp = a
      · rw [here, Function.update_self]
        exact Nat.sub_le _ _
      · rw [Function.update_of_ne here]
    · rw [RefCount.call, if_neg some_]
      exact same
  | run => exact same

omit [Fintype T] in
/-- So does a step. -/
theorem held_step_le (s : State T) (t : T) (move : Move) (u : T) (fp : Addr) :
    held (step s t move) u fp ≤ held s u fp + if u = t then 1 else 0 := by
  have same : held s u fp ≤ held s u fp + if u = t then 1 else 0 := Nat.le_add_right _ _
  by_cases idle : s.pc t = .idle
  · rw [RefCount.step, if_pos idle]
    exact held_call_le s t move u fp
  rw [RefCount.step, if_neg idle]
  by_cases goes : move = .run ∧ Enabled s (instr s (s.pc t)).1
  · rw [if_pos goes]
    by_cases self : u = t
    · subst self
      by_cases returns : (instr s (s.pc u)).2 = .idle
      · rw [returns, held_return, held_perform]
        exact same
      · rw [held_goTo_self returns, perform_refs, if_pos rfl]
        unfold held
        split <;> omega
    · rw [held_goTo_other self, held_perform]
      exact same
  · rw [if_neg goes]
    exact same

/-- A run of at most `INT_MAX` steps fits. -/
theorem fits_of_short (memory : Addr → Foo) {moves : List (T × Move)}
    (short : moves.length ≤ intMax) : Fits (start memory) moves := by
  have number : ∀ (s : State T) (t : T) (move : Move) (fp : Addr),
      total (step s t move) fp ≤ total s fp + 1 := by
    intro s t move fp
    calc total (step s t move) fp ≤ ∑ u, (held s u fp + if u = t then 1 else 0) :=
          Finset.sum_le_sum fun u _ => held_step_le s t move u fp
      _ = total s fp + 1 := by
          simp only [Finset.sum_add_distrib, Finset.sum_ite_eq', Finset.mem_univ, if_true, total]
  have runs : ∀ s : State T, (∀ fp, total s fp + moves.length ≤ intMax) → Fits s moves := by
    clear short
    induction moves with
    | nil => exact fun s _ => trivial
    | cons move moves rest =>
      intro s room
      refine ⟨fun _ inFind fp _ => ?_, rest _ fun fp => ?_⟩
      · have bound := room fp
        rw [List.length_cons] at bound
        omega
      · have bound := room fp
        have more := number s move.1 move.2 fp
        rw [List.length_cons] at bound
        omega
  refine runs _ fun fp => ?_
  have none_ : total (start memory : State T) fp = 0 :=
    Finset.sum_eq_zero fun u _ => by simp [held, start, Pc.owned]
  omega

/-! ## What the protocol promises -/

/-- How late in the order of locks a thread waits. -/
def rank (s : State T) (t : T) : Nat :=
  match (instr s (s.pc t)).1 with
  | .lockHash => 0
  | .lockFoo _ => 1
  | _ => 2

omit [DecidableEq T] in
/-- A thread that holds `hashlock` does not wait for it. -/
theorem Inv.rank_hash (inv : Inv chain s) (owner : s.hashlock = some u) : 0 < rank s u := by
  have has := (inv.hash u).mpr owner
  have busy : s.pc u ≠ .idle := by
    intro idle
    rw [idle] at has
    cases has
  have rule := instr_discipline s busy
  unfold rank
  split
  · rename_i now
    rw [now] at rule
    rw [rule.hash.1] at has
    cases has
  · decide
  · decide

omit [DecidableEq T] in
/-- A thread that holds a mutex waits for nothing. -/
theorem Inv.rank_lock (inv : Inv chain s) (owner : s.lock a = .held u) : 1 < rank s u := by
  have has := (inv.lock u a).mpr owner
  have busy : s.pc u ≠ .idle := by
    intro idle
    rw [idle] at has
    cases has
  have rule := instr_discipline s busy
  unfold rank
  split
  · rename_i now
    rw [now] at rule
    have nothing : (s.pc u).locked = none := rule.guarded
    rw [nothing] at has
    cases has
  · rename_i now
    rw [now] at rule
    rw [rule.locked.1] at has
    cases has
  · decide

omit [DecidableEq T] in
/-- A thread waits only for a thread that waits later in the order. -/
theorem Inv.rank_waits (inv : Inv chain s) (waits : Waits s t u) : rank s t < rank s u := by
  obtain ⟨now, owner⟩ | ⟨fp, now, owner⟩ := waits
  · have low : rank s t = 0 := by rw [rank, now]
    have high := inv.rank_hash owner
    omega
  · have low : rank s t = 1 := by rw [rank, now]
    have high := inv.rank_lock owner
    omega

omit [DecidableEq T] in
/-- No threads wait for each other in a circle. -/
theorem Inv.no_circle (inv : Inv chain s) (t : T) : ¬ Relation.TransGen (Waits s) t t := by
  intro circle
  have rising : Relation.TransGen (· < ·) (rank s t) (rank s t) :=
    circle.lift (rank s) fun _ _ waits => inv.rank_waits waits
  rw [Relation.transGen_eq_self] at rising
  exact Nat.lt_irrefl _ rising

omit [DecidableEq T] in
/-- An object is unlinked exactly when there is no reference to it. -/
theorem Inv.unlinked_iff (inv : Inv chain s) (there : s.lock a ≠ .absent) :
    s.unlinks a = 1 ↔ total s a = 0 := by
  have bounds := inv.once a
  constructor
  · intro gone
    exact Finset.sum_eq_zero fun u _ => inv.gone a (by omega) u
  · intro none_
    by_contra kept
    have some_ := inv.positive a there (by omega)
    omega

omit [DecidableEq T] in
/-- The search of `foo_rele` is before its object on the chain. -/
theorem Inv.search_finds (inv : Inv chain s) {tfp : Addr} (here : s.pc t = .releLoop a tfp) :
    ∃ objects, Path 0 (nextOf s) tfp (tfp :: objects) ∧ a ∈ objects := by
  have known := inv.known t
  rw [here] at known
  obtain ⟨-, front, back, shape, inside⟩ := known
  have path := inv.paths (s.idx a)
  rw [shape] at path
  exact ⟨back, path.suffix, inside⟩

/-- What the protocol promises in a state. -/
structure Promise (s : State T) : Prop where
  /-- The chains of the hash table end, and while no thread is in a critical section the count of
  every object on them is the number of references to it. -/
  counted : (∀ t, ¬ (s.pc t).Critical) → ∀ i, ∃ objects,
    Path 0 (nextOf s) (s.fh i) objects ∧ ∀ fp ∈ objects, (s.foo fp).count = total s fp
  /-- An object is unlinked at most once, and is unlinked exactly when no reference to it is
  left. -/
  unlinked : ∀ fp, s.unlinks fp ≤ 1 ∧ (s.lock fp ≠ .absent → (s.unlinks fp = 1 ↔ total s fp = 0))
  /-- The mutex of an object is destroyed at most once and only after the object is unlinked; the
  thread that unlinked it destroys it, unless it is about to. -/
  destroyed : ∀ fp, s.destroys fp ≤ s.unlinks fp ∧
    (s.unlinks fp = 1 → s.destroys fp = 1 ∨ ∃ t, (s.pc t).dropping = some fp)
  /-- The search of `foo_rele` is before its object on the chain. -/
  found : ∀ t fp tfp, s.pc t = .releLoop fp tfp →
    ∃ objects, Path 0 (nextOf s) tfp (tfp :: objects) ∧ fp ∈ objects
  /-- The search of `foo_rele` never reads `f_next` of `NULL`. -/
  sound : ∀ t fp, s.pc t ≠ .crashed fp
  /-- No threads wait for each other's mutexes in a circle. -/
  no_circle : ∀ t, ¬ Relation.TransGen (Waits s) t t

/-- The protocol keeps its promise in every state that threads reach in any order of their
steps, when no step increments a count that is `INT_MAX` already. -/
theorem references_counted (memory : Addr → Foo) (moves : List (T × Move))
    (fits : Fits (start memory) moves) : Promise (run (start memory) moves) := by
  obtain ⟨chain, inv⟩ := run_inv memory moves fits
  generalize run (start memory) moves = s at inv
  constructor
  · intro _ i
    refine ⟨chain i, inv.paths i, fun fp inside => ?_⟩
    have linked := ((inv.members i fp).mp inside).1
    exact inv.count fp (inv.linked_alive linked).1 linked.2
  · intro fp
    have bounds := inv.once fp
    exact ⟨by omega, inv.unlinked_iff⟩
  · intro fp
    have bounds := inv.once fp
    refine ⟨by omega, fun gone => ?_⟩
    by_cases standing : s.destroys fp = 0
    · exact Or.inr (inv.dropping.exists_dropper fp gone standing)
    · exact Or.inl (by omega)
  · intro t fp tfp here
    exact inv.search_finds here
  · intro t fp here
    have known := inv.known t
    rw [here] at known
    exact known
  · exact inv.no_circle

/-- One thread makes an object and releases it; between its two looks at the count another thread
finds the object, and releases it in the end. -/
def findWhileReleased : List (Bool × Move) :=
  (true, .alloc 5 (some 1)) :: List.replicate 6 (true, .run) ++
    (true, .rele 1) :: List.replicate 3 (true, .run) ++
    (false, .find 5) :: List.replicate 7 (false, .run) ++
    List.replicate 6 (true, .run) ++
    (false, .rele 1) :: List.replicate 10 (false, .run)

set_option maxRecDepth 2000 in
/-- The protocol keeps its promise after such a run, which unlinks the object. -/
theorem references_counted_found_while_released :
    (run (start fun _ => ⟨0, 0, 0⟩) findWhileReleased).unlinks 1 = 1 ∧
      Promise (run (start fun _ => ⟨0, 0, 0⟩) findWhileReleased) :=
  ⟨by decide, references_counted _ findWhileReleased (fits_of_short _ (by decide))⟩

end Calls

/-! ## A count that is no `int` any more -/

/-- A thread that holds every reference to its object and is in none of the functions. -/
def shared (count : Int) (n : Nat) : State Unit where
  foo := Function.update (fun _ => ⟨0, 0, 0⟩) 1 ⟨count, 0, 0⟩
  fh := Function.update (fun _ => 0) (hash 0) 1
  hashlock := none
  lock := Function.update (fun _ => .absent) 1 .free
  pc := fun _ => .idle
  refs := fun _ => Function.update (fun _ => 0) 1 n
  links := Function.update (fun _ => 0) 1 1
  unlinks := fun _ => 0
  destroys := fun _ => 0

/-- A call of `foo_alloc`. -/
def allocOnce : List (Unit × Move) := ((), .alloc 0 (some 1)) :: List.replicate 6 ((), .run)

/-- A call of `foo_hold`. -/
def holdOnce : List (Unit × Move) := [((), .hold 1), ((), .run), ((), .run), ((), .run)]

/-- One object is made, and a reference to it taken so many times. -/
def holds (n : Nat) : List (Unit × Move) := allocOnce ++ (List.replicate n holdOnce).flatten

/-- A call of `foo_alloc` makes the object. -/
theorem run_allocOnce : run (start fun _ => ⟨0, 0, 0⟩) allocOnce = shared 1 1 := by
  have given : Function.update (fun (_ : Unit) (_ : Addr) => 0) ()
      (Function.update (fun _ => 0) 1 1) = fun _ => Function.update (fun _ => 0) 1 1 :=
    funext fun _ => Function.update_self _ _ _
  simp [run, allocOnce, List.replicate, step, call, start, instr, Enabled, perform, State.setFoo,
    State.idx, State.goTo, State.given, Pc.owned, shared, given]

/-- A call of `foo_hold` counts one more reference. -/
theorem run_holdOnce (count : Int) {n : Nat} (some_ : 0 < n) :
    run (shared count n) holdOnce = shared (wrap (count + 1)) (n + 1) := by
  have given : Function.update (fun (_ : Unit) => Function.update (fun (_ : Addr) => 0) 1 n) ()
      (Function.update (fun _ => 0) 1 (n + 1)) = fun _ => Function.update (fun _ => 0) 1 (n + 1) :=
    funext fun _ => Function.update_self _ _ _
  simp [run, holdOnce, step, call, instr, Enabled, perform, State.setFoo, State.goTo, State.given,
    Pc.owned, shared, some_, given]

/-- So many calls of `foo_hold` count so many references, as far as an `int` goes. -/
theorem run_holds (n : Nat) :
    run (start fun _ => ⟨0, 0, 0⟩) (holds n) = shared (wrap (n + 1)) (n + 1) := by
  have rounds : ∀ (count : Int) (m : Nat), 0 < m →
      run (shared (wrap count) m) (List.replicate n holdOnce).flatten =
        shared (wrap (count + n)) (m + n) := by
    induction n with
    | zero => simp [run]
    | succ n rest =>
      intro count m some_
      have next : wrap (wrap count + 1) = wrap (count + 1) := Int.bmod_add_bmod
      rw [List.replicate_succ, List.flatten_cons, run, List.foldl_append]
      have once := run_holdOnce (wrap count) some_
      rw [run] at once
      rw [once, next]
      have later := rest (count + 1) (m + 1) (Nat.succ_pos m)
      rw [run] at later
      rw [later, Nat.cast_succ, add_assoc, add_assoc, Nat.add_comm 1 n, add_comm 1 (n : Int)]
  have made := run_allocOnce
  rw [run] at made
  rw [holds, run, List.foldl_append, made]
  have later := rounds 1 1 Nat.one_pos
  rw [run, wrap_eq (by decide)] at later
  rw [later, Nat.add_comm 1 n, add_comm 1 (n : Int)]

/-- A count is an `int`: after a call of `foo_alloc` and `INT_MAX` calls of `foo_hold` it is not the
number of references. -/
theorem count_overflows : ¬ Promise (run (start fun _ => ⟨0, 0, 0⟩) (holds intMax)) := by
  intro promise
  rw [run_holds] at promise
  obtain ⟨objects, path, counted⟩ := promise.counted (fun _ critical => by
    simp [shared, Pc.Critical, Pc.hasHash, Pc.locked] at critical) (hash 0)
  have first : (shared (wrap (intMax + 1)) (intMax + 1)).fh (hash 0) = 1 := by
    simp [shared]
  rw [first] at path
  have inside : 1 ∈ objects := by
    cases objects with
    | nil => cases path
    | cons fp objects =>
      obtain ⟨rfl, -⟩ := path
      exact List.mem_cons_self
  have count := counted 1 inside
  have references : total (shared (wrap (intMax + 1)) (intMax + 1)) 1 = intMax + 1 := by
    simp [total, held, shared, Pc.owned]
  have small := wrap_lt (intMax + 1)
  rw [references] at count
  simp only [shared, Function.update_self] at count
  rw [count] at small
  exact absurd small (by decide)

end CodeLearning.Threads.RefCount
