import CodeLearning.Db.Ghost

/-!
# Rules for the steps of a process

One rule for each kind of system call the library makes: what it does to the state, on which
locks it needs, and that the state it is known from may be taken as the state it happens in.
Records change lists at the marks of the log; a request takes effect when its process unlocks
the chain.
-/

namespace CodeLearning

namespace Db

open FileProgram ByteFile

variable {P : Type} [DecidableEq P]

/-! ## What a step makes of the state -/

namespace State

/-- The pointer to the first record of a list is written. -/
def setHead (s : State P) (c : Place) (v : Nat) : State P :=
  { s with
    files := Function.update s.files .idx (writeAt (s.files .idx) c.off (ptrText v))
    head := Function.update s.head c v }

/-- Bytes are written that change one record. -/
def setEntry (s : State P) (file : File) (off : Nat) (bytes : Bytes) (o : Nat) (e : Entry) :
    State P :=
  { s with
    files := Function.update s.files file (writeAt (s.files file) off bytes)
    recs := Function.update s.recs o (some e) }

/-- Data is appended. -/
def appendData (s : State P) (p : P) (d : Bytes) : State P :=
  { s with
    files := Function.update s.files .dat
      (writeAt (s.files .dat) (s.files .dat).length (d ++ [newline]))
    loose := Function.update s.loose p (some ((s.files .dat).length, d)) }

/-- A record for data appended before is appended. -/
def appendEntry (s : State P) (p : P) (e : Entry) : State P :=
  { s with
    files := Function.update s.files .idx
      (writeAt (s.files .idx) (s.files .idx).length e.text)
    recs := Function.update s.recs (s.files .idx).length (some e)
    loose := Function.update s.loose p none }

/-- A mark moves a record to another list. -/
def hand (s : State P) (p : P) (mark : Note) (o : Nat) (e : Entry) : State P :=
  { s with log := s.log ++ [(p, mark)], recs := Function.update s.recs o (some e) }

/-- Locks are set or dropped. -/
def setLocks (s : State P) (p : P) (file : File) (range : Range) (mode : Option LockMode) :
    State P :=
  { s with toWorld := s.toWorld.setLocks p file range mode }

/-- A request takes effect and its chain is unlocked. -/
def commit (s : State P) (p : P) (range : Range) (request : Request) : State P :=
  { s.setLocks p .idx range none with
    kv := (mapStep s.kv request).2
    hist := s.hist ++ [(p, request, (mapStep s.kv request).1)] }

end State

section Parts

variable {s : State P} {c c' : Place} {o v : Nat} {e e' : Entry} {recs : Nat → Option Entry}

omit [DecidableEq P] in
/-- Setting a head changes its part. -/
theorem part_setHead_self : (s.setHead c v).part c = (s.part c).setHead v := by
  simp [State.part, State.setHead, Part.setHead]

omit [DecidableEq P] in
/-- Setting a head keeps the other parts. -/
theorem part_setHead_other (differ : c' ≠ c) : (s.setHead c v).part c' = s.part c' := by
  simp [State.part, State.setHead, Function.update_of_ne differ]

/-- The records of a list after one record changed. -/
theorem filter_update (recs : Nat → Option Entry) (o : Nat) (e : Entry) (c : Place) :
    (fun x => (Function.update recs o (some e) x).filter fun e => e.owner = some c) =
      Function.update (fun x => (recs x).filter fun e => e.owner = some c) o
        (if e.owner = some c then some e else none) := by
  funext x
  by_cases same : x = o
  · subst same
    simp only [Function.update_self, Option.filter_some, decide_eq_true_eq]
  · simp only [Function.update_of_ne same]

omit [DecidableEq P] in
/-- The list that a changed record belongs to. -/
theorem part_update_self (s u : State P) (recs : u.recs = Function.update s.recs o (some e))
    (head : u.head = s.head) (mine : e.owner = some c) : u.part c = (s.part c).put o e := by
  simp only [State.part, Part.put, recs, head, filter_update, mine, if_true]

omit [DecidableEq P] in
/-- The list that a changed record does not belong to any more. -/
theorem part_update_erase (s u : State P) (recs : u.recs = Function.update s.recs o (some e))
    (head : u.head = s.head) (other : e.owner ≠ some c) :
    u.part c = (s.part c).erase o := by
  simp only [State.part, Part.erase, recs, head, filter_update, other, if_false]

omit [DecidableEq P] in
/-- A list that a changed record never belonged to. -/
theorem part_update_other (s u : State P) (recs : u.recs = Function.update s.recs o (some e))
    (head : u.head = s.head) (other : e.owner ≠ some c)
    (before : (s.part c).entries o = none) : u.part c = s.part c := by
  rw [part_update_erase s u recs head other, Part.erase, ← before, Function.update_eq_self]

omit [DecidableEq P] in
/-- A record belongs to one list only. -/
theorem entries_none_of_ne (found : (s.part c).entries o = some e) (differ : c' ≠ c) :
    (s.part c').entries o = none := by
  cases other : (s.part c').entries o with
  | none => rfl
  | some e' =>
    obtain ⟨found₁, owner₁⟩ := State.part_entries.mp found
    obtain ⟨found₂, owner₂⟩ := State.part_entries.mp other
    have same : e = e' := Option.some.inj (found₁.symm.trans found₂)
    rw [same, owner₂] at owner₁
    exact absurd (Option.some.inj owner₁) differ

end Parts

/-- What holds of all records holds after one of them changed, if it holds of the new one. -/
theorem forall_update {o : Nat} {e : Entry} {recs : Nat → Option Entry} {holds : Entry → Prop}
    (new : holds e) (old : ∀ o e, recs o = some e → holds e) :
    ∀ o' e', Function.update recs o (some e) o' = some e' → holds e' := by
  intro o' e' found
  by_cases here : o' = o
  · rw [here, Function.update_self] at found
    exact Option.some.inj found ▸ new
  · rw [Function.update_of_ne here] at found
    exact old o' e' found

section Own

variable {p q : P}

/-- A request of the process itself. -/
theorem ownRequests_append_self (hist : List (P × Request × Result)) (p : P)
    (entry : Request × Result) :
    ownRequests (hist ++ [(p, entry)]) p = ownRequests hist p ++ [entry] := by
  simp [ownRequests]

/-- A request of another process. -/
theorem ownRequests_append_other (hist : List (P × Request × Result)) (other : q ≠ p)
    (entry : Request × Result) :
    ownRequests (hist ++ [(p, entry)]) q = ownRequests hist q := by
  simp [ownRequests, other.symm]

/-- Taking a record is no return. -/
theorem ownReturns_append_took (log : List (P × Note)) (p q : P) (off : Int) :
    ownReturns (log ++ [(p, .took off)]) q = ownReturns log q := by
  simp [ownReturns]

/-- Freeing a record is no return. -/
theorem ownReturns_append_freed (log : List (P × Note)) (p q : P) (off : Int) :
    ownReturns (log ++ [(p, .freed off)]) q = ownReturns log q := by
  simp [ownReturns]

end Own

section Writes

variable {α : Type} {g : Setting P} {p : P} {s : State P} {c : Place} {o v : Nat} {e e' : Entry}
  {post : α → State P → Prop} {fail : Failure → State P → Prop} {rest : Unit → DbProg α}

/-- The owner of a list writes the pointer to its first record. -/
theorem wp_setHead (owns : s.Owns p c) (small : v ≤ ptrMax)
    (next : SameSize s (s.setHead c v) → g.wp p (rest ()) post fail (s.setHead c v)) :
    g.wp p (.op (.write .idx c.off (ptrText v)) rest) post fail s := by
  have length : ∀ t : State P, Inv g t →
      (writeAt (t.files .idx) c.off (ptrText v)).length = (t.files .idx).length := by
    intro t inv
    have inside := inv.layout.cell_le c
    rw [length_writeAt, length_ptrText small]
    omega
  have sameSize : ∀ t, Rely p s t → Inv g t → SameSize s (s.setHead c v) := by
    intro t rely inv single file
    cases file with
    | idx => exact length s (rely.alone single ▸ inv)
    | dat => rfl
  apply Logic.wp_fact sameSize
  intro same
  apply Logic.wp_update (fun t => t.setHead c v) (fun _ _ _ => rfl) _ (next same)
  intro t rely inv _
  have ownsT : t.Owns p c := rely.owns owns
  have parts : ∀ c', (t.setHead c v).part c' = t.part c' ∨ t.Owns p c' := by
    intro c'
    by_cases same : c' = c
    · exact .inr (same ▸ ownsT)
    · exact .inl (part_setHead_other same)
  have onFree : (t.setHead c v).OnFree = t.OnFree := rfl
  refine ⟨rfl, ?_, ?_, ?_⟩
  · apply inv.edit (t.setHead c v) p rfl rfl rfl _ parts _ inv.scripts inv.plain inv.whole
    · exact inv.layout.setHead small
    · rw [onFree]
      exact inv.takes
  · apply inv.guarantee (t.setHead c v) (fun _ _ => rfl) parts (fun _ => .inl rfl) (fun _ _ => rfl)
      (fun _ _ => rfl) (fun _ _ => rfl)
    intro file
    cases file with
    | idx => exact .inl (length t inv)
    | dat => exact .inl rfl
  · refine { rely with part := ?_, size := ?_, alone := ?_ }
    · intro c' sees
      by_cases same : c' = c
      · subst same
        rw [part_setHead_self, part_setHead_self, rely.part c' sees]
      · rw [part_setHead_other same, part_setHead_other same]
        exact rely.part c' sees
    · intro file appends
      cases file with
      | idx =>
        have sizes := rely.size .idx appends
        simp only [State.setHead, Function.update_self, length_writeAt, sizes]
      | dat => exact rely.size .dat appends
    · exact fun single => by rw [rely.alone single]

/-- The owner of a list writes bytes that change one of its records. -/
theorem wp_setEntry {file : File} {off : Nat} {bytes : Bytes} (owns : s.Owns p c)
    (found : (s.part c).entries o = some e) (sameOwner : e'.owner = some c)
    (layout : ∀ t : State P, Inv g t → t.recs o = some e →
      Layout ((t.setEntry file off bytes o e').files .idx)
        ((t.setEntry file off bytes o e').files .dat) (Function.update t.recs o (some e')) t.head
        t.loose)
    (length : ∀ t : State P, Inv g t → t.recs o = some e →
      (writeAt (t.files file) off bytes).length = (t.files file).length)
    (plain : g.plain → sep ∉ e'.key)
    (next : SameSize s (s.setEntry file off bytes o e') →
      g.wp p (rest ()) post fail (s.setEntry file off bytes o e')) :
    g.wp p (.op (.write file off bytes) rest) post fail s := by
  have sizeOf : ∀ t : State P, Inv g t → t.recs o = some e → ∀ file',
      ((t.setEntry file off bytes o e').files file').length = (t.files file').length := by
    intro t inv recT file'
    by_cases same : file' = file
    · subst same
      simp only [State.setEntry, Function.update_self]
      exact length t inv recT
    · simp only [State.setEntry, Function.update_of_ne same]
  have sameSize : ∀ t, Rely p s t → Inv g t → SameSize s (s.setEntry file off bytes o e') := by
    intro t rely inv single
    exact sizeOf s (rely.alone single ▸ inv) (State.part_entries.mp found).1
  apply Logic.wp_fact sameSize
  intro same
  apply Logic.wp_update (fun t => t.setEntry file off bytes o e') (fun _ _ _ => rfl) _ (next same)
  intro t rely inv _
  have ownsT : t.Owns p c := rely.owns owns
  have foundT : (t.part c).entries o = some e := by
    rw [rely.part c owns.sees]
    exact found
  have recT : t.recs o = some e := (State.part_entries.mp foundT).1
  have other : ∀ c', c' ≠ c → e'.owner ≠ some c' := by
    intro c' differ same
    rw [sameOwner] at same
    exact differ (Option.some.inj same).symm
  have parts : ∀ c', (t.setEntry file off bytes o e').part c' = t.part c' ∨ t.Owns p c' := by
    intro c'
    by_cases same : c' = c
    · exact .inr (same ▸ ownsT)
    · exact .inl (part_update_other t (t.setEntry file off bytes o e') rfl rfl (other c' same)
        (entries_none_of_ne foundT same))
  have onFree : ∀ x, (t.setEntry file off bytes o e').OnFree x ↔ t.OnFree x := by
    intro x
    unfold State.OnFree
    by_cases same : (.free : Place) = c
    · subst same
      rw [part_update_self t (t.setEntry file off bytes o e') rfl rfl sameOwner]
      by_cases here : x = o
      · subst here
        simp [Part.put, foundT]
      · simp [Part.put, Function.update_of_ne here]
    · rw [part_update_other t (t.setEntry file off bytes o e') rfl rfl (other .free same)
        (entries_none_of_ne foundT same)]
  refine ⟨rfl, ?_, ?_, ?_⟩
  · apply inv.edit (t.setEntry file off bytes o e') p rfl rfl rfl (layout t inv recT) parts
      (inv.takes.congr onFree) inv.scripts
    · exact fun isPlain => forall_update (plain isPlain) (inv.plain isPlain)
    · exact fun isWhole => forall_update (by simp [sameOwner]) (inv.whole isWhole)
  · apply inv.guarantee (t.setEntry file off bytes o e') (fun _ _ => rfl) parts
      (fun _ => .inl rfl) (fun _ _ => rfl) (fun _ _ => rfl) (fun _ _ => rfl)
    exact fun file' => .inl (sizeOf t inv recT file')
  · refine { rely with part := ?_, size := ?_, alone := ?_ }
    · intro c' sees
      by_cases same : c' = c
      · subst same
        rw [part_update_self t (t.setEntry file off bytes o e') rfl rfl sameOwner,
          part_update_self s (s.setEntry file off bytes o e') rfl rfl sameOwner,
          rely.part c' sees]
      · rw [part_update_other t (t.setEntry file off bytes o e') rfl rfl (other c' same)
            (entries_none_of_ne foundT same),
          part_update_other s (s.setEntry file off bytes o e') rfl rfl (other c' same)
            (entries_none_of_ne found same)]
        exact rely.part c' sees
    · intro file' appends
      have sizes := rely.size file' appends
      by_cases same : file' = file
      · subst same
        simp only [State.setEntry, Function.update_self, length_writeAt, sizes]
      · simp only [State.setEntry, Function.update_of_ne same]
        exact sizes
    · exact fun single => by rw [rely.alone single]

/-- A record of a locked list has a key without separator where all have. -/
theorem wp_plain {prog : DbProg α} (sees : s.Sees p c) (found : (s.part c).entries o = some e)
    (next : (g.plain → sep ∉ e.key) → g.wp p prog post fail s) : g.wp p prog post fail s := by
  apply Logic.wp_fact _ next
  intro t rely inv isPlain
  exact inv.plain isPlain o e (rely.entry sees found)

/-- The owner of a list writes the pointer of one of its records. -/
theorem wp_setPtr (owns : s.Owns p c) (found : (s.part c).entries o = some e)
    (small : v ≤ ptrMax)
    (next : SameSize s (s.setEntry .idx o (ptrText v) o { e with ptr := v }) →
      g.wp p (rest ()) post fail (s.setEntry .idx o (ptrText v) o { e with ptr := v })) :
    g.wp p (.op (.write .idx o (ptrText v)) rest) post fail s := by
  have owner : ({ e with ptr := v } : Entry).owner = some c := (State.part_entries.mp found).2
  apply wp_plain owns.sees found
  intro plain
  apply wp_setEntry owns found owner _ _ plain next
  · intro t inv recT
    exact inv.layout.setPtr recT small
  · intro t inv recT
    have inside := inv.layout.index_le recT
    have positive := inv.layout.text_pos recT
    rw [length_writeAt, length_ptrText small]
    omega

/-- The owner of a list overwrites data of one of its records. -/
theorem wp_setData {d : Bytes} (owns : s.Owns p c) (found : (s.part c).entries o = some e)
    (sameLength : d.length = e.data.length) (noNul : 0 ∉ d)
    (next : SameSize s (s.setEntry .dat e.datoff (d ++ [newline]) o { e with data := d }) →
      g.wp p (rest ()) post fail
        (s.setEntry .dat e.datoff (d ++ [newline]) o { e with data := d })) :
    g.wp p (.op (.write .dat e.datoff (d ++ [newline])) rest) post fail s := by
  have owner : ({ e with data := d } : Entry).owner = some c := (State.part_entries.mp found).2
  apply wp_plain owns.sees found
  intro plain
  apply wp_setEntry owns found owner _ _ plain next
  · intro t inv recT
    exact inv.layout.setData recT sameLength noNul
  · intro t inv recT
    have old : pieces t.recs t.loose (.inl o) = some (e.datoff, e.data) := by
      simp [pieces, recT]
    have inside := inv.layout.data_le old
    rw [length_writeAt, List.length_append, List.length_singleton, sameLength]
    omega

/-- The owner of a list rewrites one of its records in place. -/
theorem wp_setRecord (owns : s.Owns p c) (found : (s.part c).entries o = some e)
    (sameOwner : e'.owner = e.owner) (valid : e'.Valid)
    (sameLength : e'.text.length = e.text.length) (sameOff : e'.datoff = e.datoff)
    (sameData : e'.data = e.data) (plain : g.plain → sep ∉ e'.key)
    (next : SameSize s (s.setEntry .idx o e'.text o e') →
      g.wp p (rest ()) post fail (s.setEntry .idx o e'.text o e')) :
    g.wp p (.op (.write .idx o e'.text) rest) post fail s := by
  have owner := (State.part_entries.mp found).2
  apply wp_setEntry owns found (sameOwner.trans owner) _ _ plain next
  · intro t inv recT
    exact inv.layout.setRecord recT valid sameLength sameOff sameData
  · intro t inv recT
    have inside := inv.layout.index_le recT
    rw [length_writeAt, sameLength]
    omega

/-- A process that may append to the data file appends data. -/
theorem wp_appendData {d : Bytes} (appends : s.Appends p .dat)
    (next : g.wp p (rest ()) post fail (s.appendData p d)) :
    g.wp p (.op (.write .dat (s.files .dat).length (d ++ [newline])) rest) post fail s := by
  apply Logic.wp_update (fun t => t.appendData p d) (fun _ _ _ => rfl) _ next
  intro t rely inv _
  have sizes : (t.files .dat).length = (s.files .dat).length := rely.size .dat appends
  have appendsT : t.Appends p .dat := rely.appends appends
  refine ⟨?_, ?_, ?_, ?_⟩
  · show (t.appendData p d).toWorld = t.toWorld.act p _
    simp only [State.appendData, World.act, sizes]
  · apply inv.edit (t.appendData p d) p rfl rfl rfl _ (fun _ => .inl rfl) inv.takes inv.scripts
      inv.plain inv.whole
    exact inv.layout.appendData
  · apply inv.guarantee (t.appendData p d) (fun _ _ => rfl) (fun _ => .inl rfl)
      (fun _ => .inl rfl) _ (fun _ _ => rfl) (fun _ _ => rfl)
    · intro file
      cases file with
      | idx => exact .inl rfl
      | dat => exact .inr appendsT
    · intro q other
      simp only [State.appendData, Function.update_of_ne other]
  · refine { rely with loose := ?_, size := ?_, alone := ?_ }
    · simp only [State.appendData, Function.update_self, sizes]
    · intro file mine
      cases file with
      | idx => exact rely.size .idx mine
      | dat => simp only [State.appendData, Function.update_self, length_writeAt, sizes]
    · exact fun single => by rw [rely.alone single]

/-- A process that may append to the index file and owns a chain appends a record of the
chain, for the data it appended before. -/
theorem wp_appendEntry {h : Fin nhashDef} (owns : s.Owns p (.chain h))
    (appends : s.Appends p .idx) (owner : e.owner = some (.chain h))
    (waiting : s.loose p = some (e.datoff, e.data)) (valid : e.Valid)
    (plain : g.plain → sep ∉ e.key)
    (next : g.wp p (rest ()) post fail (s.appendEntry p e)) :
    g.wp p (.op (.write .idx (s.files .idx).length e.text) rest) post fail s := by
  apply Logic.wp_update (fun t => t.appendEntry p e) (fun _ _ _ => rfl) _ next
  intro t rely inv _
  have sizes : (t.files .idx).length = (s.files .idx).length := rely.size .idx appends
  have appendsT : t.Appends p .idx := rely.appends appends
  have ownsT : t.Owns p (.chain h) := rely.owns owns
  have other : ∀ c', c' ≠ .chain h → e.owner ≠ some c' := by
    intro c' differ same
    rw [owner] at same
    exact differ (Option.some.inj same).symm
  have new : ∀ c', (t.part c').entries (t.files .idx).length = none := by
    intro c'
    simp [State.part, inv.layout.end_free]
  have same : ∀ c', c' ≠ .chain h → (t.appendEntry p e).part c' = t.part c' := fun c' differ =>
    part_update_other t (t.appendEntry p e) rfl rfl (other c' differ) (new c')
  have parts : ∀ c', (t.appendEntry p e).part c' = t.part c' ∨ t.Owns p c' := by
    intro c'
    by_cases here : c' = .chain h
    · exact .inr (here ▸ ownsT)
    · exact .inl (same c' here)
  have onFree : ∀ x, (t.appendEntry p e).OnFree x ↔ t.OnFree x := by
    intro x
    unfold State.OnFree
    rw [same .free (by simp)]
  refine ⟨?_, ?_, ?_, ?_⟩
  · show (t.appendEntry p e).toWorld = t.toWorld.act p _
    simp only [State.appendEntry, World.act, sizes]
  · apply inv.edit (t.appendEntry p e) p rfl rfl rfl _ parts (inv.takes.congr onFree) inv.scripts
    · exact fun isPlain => forall_update (plain isPlain) (inv.plain isPlain)
    · exact fun isWhole => forall_update (by simp [owner]) (inv.whole isWhole)
    · exact inv.layout.appendRecord valid (rely.loose.trans waiting)
  · apply inv.guarantee (t.appendEntry p e) (fun _ _ => rfl) parts (fun _ => .inl rfl) _
      (fun _ _ => rfl) (fun _ _ => rfl)
    · intro file
      cases file with
      | idx => exact .inr appendsT
      | dat => exact .inl rfl
    · intro q differ
      simp only [State.appendEntry, Function.update_of_ne differ]
  · refine { rely with part := ?_, loose := ?_, size := ?_, alone := ?_ }
    · intro c' sees
      have agree := rely.part c' sees
      by_cases here : c' = .chain h
      · subst here
        rw [part_update_self t (t.appendEntry p e) rfl rfl owner,
          part_update_self s (s.appendEntry p e) rfl rfl owner, agree, sizes]
      · rw [same c' here, part_update_other s (s.appendEntry p e) rfl rfl (other c' here), agree]
        rw [← agree, ← sizes]
        exact new c'
    · simp only [State.appendEntry, Function.update_self]
    · intro file mine
      cases file with
      | idx => simp only [State.appendEntry, Function.update_self, length_writeAt, sizes]
      | dat => exact rely.size .dat mine
    · exact fun single => by rw [rely.alone single]

/-- A process that holds the free list and a chain moves a record from one to the other. -/
theorem wp_hand {mark : Note} {dest : Place} (owns : s.Owns p c) (ownsTo : s.Owns p dest)
    (differ : dest ≠ c) (found : (s.part c).entries o = some e)
    (takes : ∀ t : State P, Inv g t → t.recs o = some e →
      TakesFrom g.free (t.log ++ [(p, mark)])
        (t.hand p mark o { e with owner := some dest }).OnFree)
    (silent : ∀ (log : List (P × Note)) q, ownReturns (log ++ [(p, mark)]) q = ownReturns log q)
    (next : g.wp p (rest ()) post fail (s.hand p mark o { e with owner := some dest })) :
    g.wp p (.op (.note mark) rest) post fail s := by
  apply Logic.wp_update (fun t => t.hand p mark o { e with owner := some dest })
    (fun _ _ _ => rfl) _ next
  intro t rely inv _
  have ownsT : t.Owns p c := rely.owns owns
  have ownsToT : t.Owns p dest := rely.owns ownsTo
  have foundT : (t.part c).entries o = some e := by
    rw [rely.part c owns.sees]
    exact found
  have recT : t.recs o = some e := (State.part_entries.mp foundT).1
  have notFrom : some dest ≠ some c := fun same => differ (Option.some.inj same)
  have notOther : ∀ c', c' ≠ dest → some dest ≠ some c' := fun c' other same =>
    other (Option.some.inj same).symm
  have parts : ∀ c', (t.hand p mark o { e with owner := some dest }).part c' = t.part c' ∨
      t.Owns p c' := by
    intro c'
    by_cases isTo : c' = dest
    · exact .inr (isTo ▸ ownsToT)
    · by_cases isFrom : c' = c
      · exact .inr (isFrom ▸ ownsT)
      · exact .inl (part_update_other t (t.hand p mark o { e with owner := some dest }) rfl rfl
          (notOther c' isTo) (entries_none_of_ne foundT isFrom))
  refine ⟨rfl, ?_, ?_, ?_⟩
  · apply inv.edit (t.hand p mark o { e with owner := some dest }) p rfl rfl rfl
      (inv.layout.setOwner recT (some dest)) parts (takes t inv recT)
    · intro q
      rw [show (t.hand p mark o { e with owner := some dest }).log = t.log ++ [(p, mark)] from rfl,
        silent]
      exact inv.scripts q
    · exact fun isPlain => forall_update (inv.plain isPlain o e recT) (inv.plain isPlain)
    · exact fun isWhole => forall_update (by simp) (inv.whole isWhole)
  · apply inv.guarantee (t.hand p mark o { e with owner := some dest }) (fun _ _ => rfl) parts
      (fun _ => .inl rfl) (fun _ _ => rfl) (fun _ _ => rfl)
    · exact fun q _ => silent t.log q
    · exact fun _ => .inl rfl
  · refine { rely with part := ?_, returns := ?_, alone := ?_ }
    · intro c' sees
      have agree := rely.part c' sees
      by_cases isTo : c' = dest
      · subst isTo
        rw [part_update_self t (t.hand p mark o { e with owner := some c' }) rfl rfl rfl,
          part_update_self s (s.hand p mark o { e with owner := some c' }) rfl rfl rfl, agree]
      · by_cases isFrom : c' = c
        · subst isFrom
          rw [part_update_erase t (t.hand p mark o { e with owner := some dest }) rfl rfl notFrom,
            part_update_erase s (s.hand p mark o { e with owner := some dest }) rfl rfl notFrom,
            agree]
        · rw [part_update_other t (t.hand p mark o { e with owner := some dest }) rfl rfl
              (notOther c' isTo) (entries_none_of_ne foundT isFrom),
            part_update_other s (s.hand p mark o { e with owner := some dest }) rfl rfl
              (notOther c' isTo) (entries_none_of_ne found isFrom), agree]
    · show ownReturns (t.log ++ [(p, mark)]) p = ownReturns (s.log ++ [(p, mark)]) p
      rw [silent, silent, rely.returns]
    · exact fun single => by rw [rely.alone single]

/-- A process that holds the free list and a chain takes a record for its chain. -/
theorem wp_took {h : Fin nhashDef} (owns : s.Owns p .free) (ownsTo : s.Owns p (.chain h))
    (found : (s.part .free).entries o = some e)
    (next : g.wp p (rest ()) post fail
      (s.hand p (.took o) o { e with owner := some (.chain h) })) :
    g.wp p (.op (.note (.took o)) rest) post fail s := by
  apply wp_hand owns ownsTo (by simp) found _ (fun log q => ownReturns_append_took log p q o) next
  intro t inv recT
  have owner := (State.part_entries.mp found).2
  have notFree : some (Place.chain h) ≠ some .free := by simp
  apply inv.takes.append
  refine ⟨o, rfl, ⟨e, State.part_entries.mpr ⟨recT, owner⟩⟩, ?_⟩
  intro x
  unfold State.OnFree
  rw [part_update_erase t (t.hand p (.took o) o { e with owner := some (.chain h) }) rfl rfl
    notFree]
  by_cases here : x = o
  · simp [Part.erase, here]
  · simp [Part.erase, here]

/-- A process that holds the free list and a chain frees a record of its chain. -/
theorem wp_freed {h : Fin nhashDef} (owns : s.Owns p (.chain h)) (ownsTo : s.Owns p .free)
    (found : (s.part (.chain h)).entries o = some e)
    (next : g.wp p (rest ()) post fail (s.hand p (.freed o) o { e with owner := some .free })) :
    g.wp p (.op (.note (.freed o)) rest) post fail s := by
  apply wp_hand owns ownsTo (by simp) found _ (fun log q => ownReturns_append_freed log p q o) next
  intro t inv recT
  have owner := (State.part_entries.mp found).2
  apply inv.takes.append
  refine ⟨o, rfl, ?_, ?_⟩
  · rintro ⟨e', found'⟩
    obtain ⟨rec', owner'⟩ := State.part_entries.mp found'
    have same : e = e' := Option.some.inj (recT.symm.trans rec')
    rw [← same, owner] at owner'
    cases owner'
  · intro x
    unfold State.OnFree
    rw [part_update_self t (t.hand p (.freed o) o { e with owner := some .free }) rfl rfl rfl]
    by_cases here : x = o
    · simp [Part.put, here]
    · simp [Part.put, here]

end Writes

end Db

end CodeLearning
